import Mathlib.Data.Nat.Log
import Mathlib.Tactic

/-!
# Trees over a list of leaves

A nonempty list of leaves is merged into one value: the left subtree takes the largest
power of two of leaves below the whole.  The same value comes out of merging neighbours
level by level, and out of a stack with a complete subtree for each one bit of the number
of leaves so far.
-/

namespace Stdx.Foundation

def splitPoint (n : Nat) : Nat := 2 ^ (n - 1).log2

theorem splitPoint_eq {n k : Nat} (hlt : 2 ^ k < n) (hle : n ≤ 2 ^ (k + 1)) :
    splitPoint n = 2 ^ k := by
  have hpos := Nat.two_pow_pos k
  rw [splitPoint]
  congr 1
  rw [Nat.log2_eq_iff (by omega)]
  omega

theorem splitPoint_spec {n : Nat} (h : 2 ≤ n) :
    ∃ k, splitPoint n = 2 ^ k ∧ 2 ^ k < n ∧ n ≤ 2 ^ (k + 1) := by
  have hlow := Nat.log2_self_le (n := n - 1) (by omega)
  have hhigh := Nat.lt_log2_self (n := n - 1)
  exact ⟨(n - 1).log2, rfl, by omega, by omega⟩

theorem splitPoint_lt {n : Nat} (h : 2 ≤ n) : 0 < splitPoint n ∧ splitPoint n < n := by
  obtain ⟨k, hk, hlt, -⟩ := splitPoint_spec h
  rw [hk]
  exact ⟨Nat.two_pow_pos k, hlt⟩

theorem add_pow_le {n k m : Nat} (hn : 2 ^ k ∣ n) (hkm : k ≤ m) (hlt : n < 2 ^ m) :
    n + 2 ^ k ≤ 2 ^ m := by
  obtain ⟨q, rfl⟩ := hn
  obtain ⟨j, rfl⟩ := Nat.exists_eq_add_of_le hkm
  rw [pow_add] at hlt ⊢
  rw [← Nat.mul_succ]
  exact Nat.mul_le_mul_left _ (Nat.lt_of_mul_lt_mul_left hlt)

/-! ## The number of one bits -/

def countOnes (n : Nat) : Nat :=
  if n = 0 then 0 else n % 2 + countOnes (n / 2)
termination_by n
decreasing_by omega

@[simp] theorem countOnes_zero : countOnes 0 = 0 := by
  rw [countOnes, if_pos rfl]

theorem countOnes_eq (n : Nat) : countOnes n = n % 2 + countOnes (n / 2) := by
  by_cases h : n = 0
  · rw [h]
    simp
  · rw [countOnes, if_neg h]

theorem countOnes_add {m s : Nat} (h : s < 2 ^ m) : countOnes (2 ^ m + s) = 1 + countOnes s := by
  induction m generalizing s with
  | zero =>
    have hs : s = 0 := by simpa using h
    rw [hs, countOnes_eq]
    simp
  | succ m ih =>
    rw [pow_succ] at h
    have hmod : (2 ^ (m + 1) + s) % 2 = s % 2 := by omega
    have hdiv : (2 ^ (m + 1) + s) / 2 = 2 ^ m + s / 2 := by omega
    rw [countOnes_eq, hmod, hdiv, ih (by omega), countOnes_eq s]
    omega

theorem countOnes_pow (m : Nat) : countOnes (2 ^ m) = 1 := by
  have h := countOnes_add (m := m) (s := 0) (Nat.two_pow_pos m)
  simpa using h

theorem countOnes_pos {n : Nat} (h : 0 < n) : 0 < countOnes n := by
  have hlow := Nat.log2_self_le (n := n) (by omega)
  have hhigh := Nat.lt_log2_self (n := n)
  rw [pow_succ] at hhigh
  have hsum := @countOnes_add n.log2 (n - 2 ^ n.log2) (by omega)
  rw [Nat.add_sub_cancel' hlow] at hsum
  omega

theorem countOnes_le {n m : Nat} (h : n < 2 ^ m) : countOnes n ≤ m := by
  induction m generalizing n with
  | zero =>
    have hn : n = 0 := by simpa using h
    simp [hn]
  | succ m ih =>
    rw [pow_succ] at h
    have := ih (n := n / 2) (by omega)
    rw [countOnes_eq]
    omega

/-! ## Merging -/

section

variable {α : Type*} (node : α → α → α)

def mergePairs : List α → List α
  | [] => []
  | [x] => [x]
  | a :: b :: rest => node a b :: mergePairs rest

/-- The top two values of a stack are merged until `target` are left. -/
def mergeTo (target : Nat) : List α → List α
  | [] => []
  | [x] => [x]
  | right :: left :: rest =>
    if target < rest.length + 2 then mergeTo target (node left right :: rest)
    else right :: left :: rest
termination_by stack => stack.length

variable {node}

theorem mergePairs_length (xs : List α) : (mergePairs node xs).length = (xs.length + 1) / 2 := by
  induction xs using mergePairs.induct with
  | case1 => simp [mergePairs]
  | case2 x => simp [mergePairs]
  | case3 a b rest ih =>
    rw [mergePairs, List.length_cons, ih, List.length_cons, List.length_cons]
    omega

theorem mergePairs_append {xs ys : List α} (h : xs.length % 2 = 0) :
    mergePairs node (xs ++ ys) = mergePairs node xs ++ mergePairs node ys := by
  induction xs using mergePairs.induct with
  | case1 => rfl
  | case2 x => simp at h
  | case3 a b rest ih =>
    rw [List.length_cons, List.length_cons] at h
    rw [List.cons_append, List.cons_append, mergePairs, mergePairs, ih (by omega),
      List.cons_append]

/-- A list of at least three values falls into an even complete part and the rest. -/
theorem split_even {xs : List α} (h : 3 ≤ xs.length) :
    ∃ front back k, xs = front ++ back ∧ front.length = 2 ^ (k + 1) ∧ back ≠ [] ∧
      back.length ≤ 2 ^ (k + 1) := by
  obtain ⟨k, hk, hlt, hle⟩ := splitPoint_spec (by omega : 2 ≤ xs.length)
  cases k with
  | zero => omega
  | succ k =>
    refine ⟨xs.take (2 ^ (k + 1)), xs.drop (2 ^ (k + 1)), k, ?_, ?_, ?_, ?_⟩
    · exact (List.take_append_drop _ _).symm
    · rw [List.length_take]
      omega
    · rw [Ne, List.drop_eq_nil_iff]
      omega
    · rw [pow_succ] at hle
      rw [List.length_drop]
      omega

theorem mergePairs_halves_lengths {front back : List α} {k : Nat}
    (hfront : front.length = 2 ^ (k + 1)) (hne : back ≠ []) (hback : back.length ≤ 2 ^ (k + 1)) :
    (mergePairs node front).length = 2 ^ k ∧ mergePairs node back ≠ [] ∧
      (mergePairs node back).length ≤ 2 ^ k := by
  have hpos := List.length_pos_iff.mpr hne
  rw [pow_succ] at hfront hback
  refine ⟨?_, ?_, ?_⟩
  · rw [mergePairs_length, hfront]
    omega
  · rw [← List.length_pos_iff, mergePairs_length]
    omega
  · rw [mergePairs_length]
    omega

theorem mergeTo_concat {target : Nat} (htarget : 0 < target) (xs : List α) (x : α) :
    mergeTo node (target + 1) (xs ++ [x]) = mergeTo node target xs ++ [x] := by
  induction xs using mergeTo.induct node target with
  | case1 => simp [mergeTo]
  | case2 y =>
    simp only [List.singleton_append, mergeTo]
    rw [if_neg (by simp; omega)]
  | case3 right left rest hlt ih =>
    rw [List.cons_append, List.cons_append, mergeTo, if_pos (by simp; omega), mergeTo,
      if_pos hlt, ← ih, List.cons_append]
  | case4 right left rest hge =>
    rw [List.cons_append, List.cons_append, mergeTo, if_neg (by simp; omega), mergeTo,
      if_neg hge]
    rfl

theorem mergeTo_one (xs : List α) {x y : α} (h : mergeTo node 1 xs = [y]) :
    mergeTo node 1 (xs ++ [x]) = [node x y] := by
  induction xs using mergeTo.induct node 1 with
  | case1 => simp [mergeTo] at h
  | case2 z =>
    rw [mergeTo] at h
    rw [List.singleton_append, mergeTo, if_pos (by simp), mergeTo, List.singleton_inj.mp h]
  | case3 right left rest hlt ih =>
    rw [mergeTo, if_pos hlt] at h
    rw [List.cons_append, List.cons_append, mergeTo, if_pos (by simp), ← List.cons_append]
    exact ih h
  | case4 right left rest hge => exact absurd (by omega) hge

end

/-! ## Trees -/

section

variable {α : Type*} [Inhabited α] (node : α → α → α)

def mergeTree (xs : List α) : α :=
  if xs.length < 2 then xs.headI
  else node (mergeTree (xs.take (splitPoint xs.length)))
    (mergeTree (xs.drop (splitPoint xs.length)))
termination_by xs.length
decreasing_by
  · rename_i h
    have := splitPoint_lt (n := xs.length) (by omega)
    rw [List.length_take]
    omega
  · rename_i h
    have := splitPoint_lt (n := xs.length) (by omega)
    rw [List.length_drop]
    omega

def halves (xs : List α) : α × α :=
  (mergeTree node (xs.take (splitPoint xs.length)),
    mergeTree node (xs.drop (splitPoint xs.length)))

/-- One complete subtree for each one bit of the number of leaves, the smallest on top. -/
def stackOf (xs : List α) : List α :=
  if xs = [] then []
  else stackOf (xs.drop (2 ^ xs.length.log2)) ++ [mergeTree node (xs.take (2 ^ xs.length.log2))]
termination_by xs.length
decreasing_by
  rename_i h
  have := List.length_pos_iff.mpr h
  have := Nat.two_pow_pos xs.length.log2
  rw [List.length_drop]
  omega

variable {node}

@[simp] theorem mergeTree_singleton (x : α) : mergeTree node [x] = x := by
  rw [mergeTree, if_pos (by simp)]
  rfl

theorem mergeTree_halves {xs : List α} (h : 2 ≤ xs.length) :
    mergeTree node xs = node (halves node xs).1 (halves node xs).2 := by
  rw [mergeTree, if_neg (by omega)]
  rfl

theorem halves_append {xs ys : List α} {k : Nat} (hxs : xs.length = 2 ^ k) (hne : ys ≠ [])
    (hys : ys.length ≤ 2 ^ k) :
    halves node (xs ++ ys) = (mergeTree node xs, mergeTree node ys) := by
  have hpos := List.length_pos_iff.mpr hne
  have hsplit : splitPoint (xs ++ ys).length = xs.length := by
    rw [hxs, List.length_append, hxs]
    exact splitPoint_eq (by omega) (by rw [pow_succ]; omega)
  rw [halves, hsplit, List.take_left, List.drop_left]

theorem mergeTree_append {xs ys : List α} {k : Nat} (hxs : xs.length = 2 ^ k) (hne : ys ≠ [])
    (hys : ys.length ≤ 2 ^ k) :
    mergeTree node (xs ++ ys) = node (mergeTree node xs) (mergeTree node ys) := by
  have hpos := List.length_pos_iff.mpr hne
  have hpow := Nat.two_pow_pos k
  rw [mergeTree_halves (by rw [List.length_append]; omega), halves_append hxs hne hys]

theorem mergeTree_mergePairs (xs : List α) :
    mergeTree node (mergePairs node xs) = mergeTree node xs := by
  induction hn : xs.length using Nat.strong_induction_on generalizing xs with
  | _ n ih =>
    by_cases hlong : 3 ≤ xs.length
    · obtain ⟨front, back, k, rfl, hfront, hne, hback⟩ := split_even hlong
      obtain ⟨hpfront, hpne, hpback⟩ :=
        @mergePairs_halves_lengths α node _ _ k hfront hne hback
      have hpos := List.length_pos_iff.mpr hne
      have hpow := Nat.two_pow_pos (k + 1)
      rw [List.length_append] at hn
      rw [mergePairs_append (by rw [hfront, pow_succ]; omega),
        mergeTree_append hpfront hpne hpback, ih front.length (by omega) front rfl,
        ih back.length (by omega) back rfl, mergeTree_append hfront hne hback]
    · match xs, hlong with
      | [], _ => rfl
      | [_], _ => rfl
      | [a, b], _ =>
        have htwo := @mergeTree_append α _ node [a] [b] 0 rfl (by simp) (by simp)
        rw [mergePairs, mergePairs, mergeTree_singleton]
        simpa using htwo.symm
      | _ :: _ :: _ :: _, hlong => simp at hlong

theorem halves_mergePairs {xs : List α} (h : 3 ≤ xs.length) :
    halves node (mergePairs node xs) = halves node xs := by
  obtain ⟨front, back, k, rfl, hfront, hne, hback⟩ := split_even h
  obtain ⟨hpfront, hpne, hpback⟩ := @mergePairs_halves_lengths α node _ _ k hfront hne hback
  rw [mergePairs_append (by rw [hfront, pow_succ]; omega), halves_append hpfront hpne hpback,
    halves_append hfront hne hback, mergeTree_mergePairs, mergeTree_mergePairs]

/-! ## The stack -/

@[simp] theorem stackOf_nil : stackOf node ([] : List α) = [] := by
  rw [stackOf, if_pos rfl]

theorem stackOf_append {front back : List α} {m : Nat} (hfront : front.length = 2 ^ m)
    (hback : back.length < 2 ^ m) :
    stackOf node (front ++ back) = stackOf node back ++ [mergeTree node front] := by
  have hpow := Nat.two_pow_pos m
  have hne : front ++ back ≠ [] := by
    intro hnil
    have := congrArg List.length hnil
    rw [List.length_append, List.length_nil] at this
    omega
  have hlog : (front ++ back).length.log2 = m := by
    rw [List.length_append, hfront, Nat.log2_eq_iff (by omega), pow_succ]
    omega
  rw [stackOf, if_neg hne, hlog, ← hfront, List.take_left, List.drop_left]

omit [Inhabited α] in
theorem split_stack {xs : List α} (h : xs ≠ []) :
    ∃ front back m, xs = front ++ back ∧ front.length = 2 ^ m ∧ back.length < 2 ^ m := by
  have hpos := List.length_pos_iff.mpr h
  have hlow := Nat.log2_self_le (n := xs.length) (by omega)
  have hhigh := Nat.lt_log2_self (n := xs.length)
  rw [pow_succ] at hhigh
  refine ⟨xs.take (2 ^ xs.length.log2), xs.drop (2 ^ xs.length.log2), xs.length.log2,
    (List.take_append_drop _ _).symm, ?_, ?_⟩
  · rw [List.length_take]
    omega
  · rw [List.length_drop]
    omega

theorem stackOf_complete {xs : List α} {k : Nat} (h : xs.length = 2 ^ k) :
    stackOf node xs = [mergeTree node xs] := by
  have hempty := @stackOf_append α _ node xs [] k h (Nat.two_pow_pos k)
  rwa [List.append_nil, stackOf_nil, List.nil_append] at hempty

theorem stackOf_length (xs : List α) : (stackOf node xs).length = countOnes xs.length := by
  induction hn : xs.length using Nat.strong_induction_on generalizing xs with
  | _ n ih =>
    by_cases hnil : xs = []
    · rw [hnil, List.length_nil] at hn
      rw [hnil, ← hn]
      simp
    · obtain ⟨front, back, m, rfl, hfront, hback⟩ := split_stack hnil
      have hpow := Nat.two_pow_pos m
      rw [List.length_append] at hn
      rw [stackOf_append hfront hback, List.length_append, List.length_singleton,
        ih back.length (by omega) back rfl, ← hn, hfront, countOnes_add hback, Nat.add_comm]

theorem pow_dvd_of_add {k m n : Nat} (hn : n < 2 ^ m) (hdvd : 2 ^ k ∣ 2 ^ m + n) :
    k ≤ m ∧ 2 ^ k ∣ n := by
  have hkm : k ≤ m := by
    by_contra hlt
    have hle : 2 ^ (m + 1) ≤ 2 ^ k := Nat.pow_le_pow_right (by decide) (by omega)
    have := Nat.le_of_dvd (by omega) hdvd
    rw [pow_succ] at hle
    omega
  exact ⟨hkm, (Nat.dvd_add_right (Nat.pow_dvd_pow 2 hkm)).mp hdvd⟩

/-- Pushing the tree of `2 ^ k` leaves behind a multiple of `2 ^ k` and merging to the
one bits of the new number gives its stack. -/
theorem mergeTo_push {xs ys : List α} {k : Nat} (hys : ys.length = 2 ^ k)
    (hdvd : 2 ^ k ∣ xs.length) :
    mergeTo node (countOnes (xs.length + 2 ^ k)) (mergeTree node ys :: stackOf node xs) =
      stackOf node (xs ++ ys) := by
  induction hn : xs.length using Nat.strong_induction_on generalizing xs with
  | _ n ih =>
    by_cases hnil : xs = []
    · rw [hnil, List.length_nil] at hn
      rw [hnil, ← hn, stackOf_nil, mergeTo, List.nil_append, stackOf_complete hys]
    · obtain ⟨front, back, m, rfl, hfront, hback⟩ := split_stack hnil
      have hpow := Nat.two_pow_pos m
      rw [List.length_append] at hn hdvd
      obtain ⟨hkm, hdvdback⟩ := pow_dvd_of_add hback (hfront ▸ hdvd)
      have hroom := add_pow_le hdvdback hkm hback
      have hback' := @ih back.length (by omega) back hdvdback rfl
      rw [stackOf_append hfront hback, ← hn, hfront, List.append_assoc,
        ← List.cons_append, Nat.add_assoc]
      rcases Nat.lt_or_ge (back.length + 2 ^ k) (2 ^ m) with hlt | hge
      · have hones : 0 < countOnes (back.length + 2 ^ k) := by
          apply countOnes_pos
          have := Nat.two_pow_pos k
          omega
        rw [countOnes_add hlt, Nat.add_comm 1, mergeTo_concat hones, hback',
          stackOf_append hfront (by rw [List.length_append, hys]; exact hlt)]
      · -- The carry completes the next larger subtree.
        have hfull : back.length + 2 ^ k = 2 ^ m := by omega
        have hlength : (back ++ ys).length = 2 ^ m := by
          rw [List.length_append, hys, hfull]
        have hne : back ++ ys ≠ [] := by
          rw [← List.length_pos_iff, hlength]
          exact hpow
        rw [hfull, countOnes_pow, stackOf_complete hlength] at hback'
        have hwhole := @mergeTree_append α _ node front (back ++ ys) m hfront hne
          (Nat.le_of_eq hlength)
        have hdouble : 2 ^ m + 2 ^ m = 2 ^ (m + 1) := by
          rw [pow_succ]
          omega
        rw [hfull, hdouble, countOnes_pow, mergeTo_one _ hback', ← hwhole,
          stackOf_complete (k := m + 1) (by
            rw [List.length_append, hfront, hlength, hdouble])]

end

end Stdx.Foundation
