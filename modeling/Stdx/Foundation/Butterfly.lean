import Stdx.Foundation.Loop

/-!
# In-place butterfly passes

A pass cuts an array into blocks of `2 * len` cells and replaces the cells `j`
and `j + len` of each block by the two outputs of a butterfly.  The array is
updated in place, so the pass is specified against the array before it: every
cell is written once, and what is read has not been written yet.
-/

namespace Stdx.Foundation

variable {α : Type*}

/-! ## The pass as a function of the array before it -/

/-- One pass read pointwise; `bf b` is the butterfly of block `b`. -/
def layerFn (bf : Nat → α → α → α × α) (len : Nat) (x : Nat → α) (i : Nat) : α :=
  if i % (2 * len) < len then (bf (i / (2 * len)) (x i) (x (i + len))).1
  else (bf (i / (2 * len)) (x (i - len)) (x i)).2

theorem layerFn_lower (bf : Nat → α → α → α × α) {len : Nat} (x : Nat → α)
    (b : Nat) {j : Nat} (hj : j < len) :
    layerFn bf len x (b * (2 * len) + j) =
      (bf b (x (b * (2 * len) + j)) (x (b * (2 * len) + len + j))).1 := by
  have hmod : (b * (2 * len) + j) % (2 * len) = j := by
    rw [Nat.add_comm, Nat.add_mul_mod_self_right, Nat.mod_eq_of_lt (by omega)]
  have hdiv : (b * (2 * len) + j) / (2 * len) = b := by
    rw [Nat.add_comm, Nat.add_mul_div_right _ _ (by omega),
      Nat.div_eq_of_lt (by omega), Nat.zero_add]
  rw [layerFn, if_pos (by omega), hdiv]
  congr 3
  omega

theorem layerFn_upper (bf : Nat → α → α → α × α) {len : Nat} (x : Nat → α)
    (b : Nat) {j : Nat} (hj : j < len) :
    layerFn bf len x (b * (2 * len) + len + j) =
      (bf b (x (b * (2 * len) + j)) (x (b * (2 * len) + len + j))).2 := by
  have hsplit : b * (2 * len) + len + j = (len + j) + b * (2 * len) := by omega
  have hmod : (b * (2 * len) + len + j) % (2 * len) = len + j := by
    rw [hsplit, Nat.add_mul_mod_self_right, Nat.mod_eq_of_lt (by omega)]
  have hdiv : (b * (2 * len) + len + j) / (2 * len) = b := by
    rw [hsplit, Nat.add_mul_div_right _ _ (by omega),
      Nat.div_eq_of_lt (by omega), Nat.zero_add]
  rw [layerFn, if_neg (by omega), hdiv]
  congr 3
  omega

theorem block_cases {len : Nat} (hlen : 0 < len) (i : Nat) :
    ∃ b j, j < len ∧
      (i = b * (2 * len) + j ∨ i = b * (2 * len) + len + j) := by
  have hdecomp := Nat.div_add_mod i (2 * len)
  have hmod := Nat.mod_lt i (show 0 < 2 * len by omega)
  rw [Nat.mul_comm] at hdecomp
  rcases Nat.lt_or_ge (i % (2 * len)) len with h | h
  · exact ⟨i / (2 * len), i % (2 * len), h, .inl hdecomp.symm⟩
  · exact ⟨i / (2 * len), i % (2 * len) - len, by omega, .inr (by omega)⟩

theorem block_lt {w b count i : Nat} (hi : i < count * (2 * w))
    (hb : b * (2 * w) ≤ i) : b < count := by
  by_contra hge
  have : count * (2 * w) ≤ b * (2 * w) := Nat.mul_le_mul_right _ (by omega)
  omega

theorem layerFn_congr {bf bf' : Nat → α → α → α × α} {len count : Nat}
    (hlen : 0 < len) {x x' : Nat → α} (hbf : ∀ b, b < count → bf b = bf' b)
    (hx : ∀ i, i < count * (2 * len) → x i = x' i) {i : Nat}
    (hi : i < count * (2 * len)) :
    layerFn bf len x i = layerFn bf' len x' i := by
  obtain ⟨b, j, hj, rfl | rfl⟩ := block_cases hlen i
  all_goals
    have hb : b < count := block_lt hi (by omega)
    have hend : (b + 1) * (2 * len) ≤ count * (2 * len) :=
      Nat.mul_le_mul_right _ hb
    rw [Nat.add_mul] at hend
  · rw [layerFn_lower _ _ _ hj, layerFn_lower _ _ _ hj, hbf b hb,
      hx _ (by omega), hx _ (by omega)]
  · rw [layerFn_upper _ _ _ hj, layerFn_upper _ _ _ hj, hbf b hb,
      hx _ (by omega), hx _ (by omega)]

theorem layerFn_forall {bf : Nat → α → α → α × α} {len count : Nat}
    (hlen : 0 < len) {x : Nat → α} {P Q : α → Prop}
    (hx : ∀ i, i < count * (2 * len) → P (x i))
    (hbf : ∀ b u v, b < count → P u → P v → Q (bf b u v).1 ∧ Q (bf b u v).2)
    {i : Nat} (hi : i < count * (2 * len)) : Q (layerFn bf len x i) := by
  obtain ⟨b, j, hj, rfl | rfl⟩ := block_cases hlen i
  all_goals
    have hb : b < count := block_lt hi (by omega)
    have hend : (b + 1) * (2 * len) ≤ count * (2 * len) :=
      Nat.mul_le_mul_right _ hb
    rw [Nat.add_mul] at hend
  · rw [layerFn_lower _ _ _ hj]
    exact (hbf b _ _ hb (hx _ (by omega)) (hx _ (by omega))).1
  · rw [layerFn_upper _ _ _ hj]
    exact (hbf b _ _ hb (hx _ (by omega)) (hx _ (by omega))).2

theorem layerFn_map {β : Type*} {bf : Nat → α → α → α × α}
    {e : Nat → β → β → β × β} {f : α → β} {len count : Nat} (hlen : 0 < len)
    {x : Nat → α} {P : α → Prop} (hx : ∀ i, i < count * (2 * len) → P (x i))
    (hbf : ∀ b u v, b < count → P u → P v →
      e b (f u) (f v) = (f (bf b u v).1, f (bf b u v).2))
    {i : Nat} (hi : i < count * (2 * len)) :
    f (layerFn bf len x i) = layerFn e len (fun i => f (x i)) i := by
  obtain ⟨b, j, hj, rfl | rfl⟩ := block_cases hlen i
  all_goals
    have hb : b < count := block_lt hi (by omega)
    have hend : (b + 1) * (2 * len) ≤ count * (2 * len) :=
      Nat.mul_le_mul_right _ hb
    rw [Nat.add_mul] at hend
  · rw [layerFn_lower _ _ _ hj, layerFn_lower _ _ _ hj,
      hbf b _ _ hb (hx _ (by omega)) (hx _ (by omega))]
  · rw [layerFn_upper _ _ _ hj, layerFn_upper _ _ _ hj,
      hbf b _ _ hb (hx _ (by omega)) (hx _ (by omega))]

/-! ## The pass in place -/

section InPlace

variable [Zero α]

def butterfly (bf : α → α → α × α) (len j : Nat) (r : List α) : List α :=
  let out := bf (r.getD j 0) (r.getD (j + len) 0)
  (r.set (j + len) out.2).set j out.1

@[simp] theorem length_butterfly (bf : α → α → α × α) (len j : Nat) (r : List α) :
    (butterfly bf len j r).length = r.length := by
  simp [butterfly]

theorem getD_set_of_lt (r : List α) {j : Nat} (hj : j < r.length) (v : α) (i : Nat) :
    (r.set j v).getD i 0 = if i = j then v else r.getD i 0 := by
  simp only [List.getD_eq_getElem?_getD, List.getElem?_set]
  rcases eq_or_ne j i with rfl | hne
  · simp [hj]
  · simp [hne, hne.symm]

theorem getD_butterfly (bf : α → α → α × α) {len j : Nat} (hlen : 0 < len)
    {r : List α} (hr : j + len < r.length) (i : Nat) :
    (butterfly bf len j r).getD i 0 =
      if i = j then (bf (r.getD j 0) (r.getD (j + len) 0)).1
      else if i = j + len then (bf (r.getD j 0) (r.getD (j + len) 0)).2
      else r.getD i 0 := by
  rw [butterfly, getD_set_of_lt _ (by simp; omega), getD_set_of_lt _ hr]

/-- `for j in start..start + len` with one butterfly in the body -/
def butterflies (bf : α → α → α × α) (len start : Nat) (r : List α) : List α :=
  forRange start len (butterfly bf len) r

@[simp] theorem length_butterflies (bf : α → α → α × α) (len start : Nat)
    (r : List α) : (butterflies bf len start r).length = r.length :=
  forRange_rule (I := fun _ s => s.length = r.length)
    (fun _ s _ _ hs => (length_butterfly bf len _ s).trans hs) rfl

structure BlockSpec (bf : α → α → α × α) (len start : Nat) (r r' : List α) : Prop where
  length_eq : r'.length = r.length
  lower : ∀ j, j < len →
    r'.getD (start + j) 0 = (bf (r.getD (start + j) 0) (r.getD (start + len + j) 0)).1
  upper : ∀ j, j < len →
    r'.getD (start + len + j) 0 =
      (bf (r.getD (start + j) 0) (r.getD (start + len + j) 0)).2
  frame : ∀ i, i < start ∨ start + 2 * len ≤ i → r'.getD i 0 = r.getD i 0

theorem butterflies_spec (bf : α → α → α × α) {len start : Nat} {r : List α}
    (hr : start + 2 * len ≤ r.length) :
    BlockSpec bf len start r (butterflies bf len start r) := by
  -- The first `j - start` pairs are done, all other cells are as they were.
  have hinv := forRange_rule (σ := List α) (f := butterfly bf len)
    (l := start) (n := len)
    (I := fun j s => s.length = r.length ∧ ∀ i, s.getD i 0 =
      if start ≤ i ∧ i < j then (bf (r.getD i 0) (r.getD (i + len) 0)).1
      else if start + len ≤ i ∧ i < j + len then
        (bf (r.getD (i - len) 0) (r.getD i 0)).2
      else r.getD i 0)
    (by
      rintro j s hlo hhi ⟨hlength, hs⟩
      refine ⟨by simp [hlength], fun i => ?_⟩
      have hu : s.getD j 0 = r.getD j 0 := by
        rw [hs, if_neg (by omega), if_neg (by omega)]
      have hv : s.getD (j + len) 0 = r.getD (j + len) 0 := by
        rw [hs, if_neg (by omega), if_neg (by omega)]
      rw [getD_butterfly _ (by omega) (by omega), hu, hv]
      by_cases hij : i = j
      · rw [if_pos hij, if_pos (by omega), hij]
      · by_cases hijl : i = j + len
        · rw [if_neg hij, if_pos hijl, if_neg (by omega), if_pos (by omega), hijl,
            Nat.add_sub_cancel]
        · rw [if_neg hij, if_neg hijl, hs]
          congr 1
          · exact propext (by omega)
          · congr 1
            exact propext (by omega))
    (s := r)
    ⟨rfl, fun i => by rw [if_neg (by omega), if_neg (by omega)]⟩
  obtain ⟨hlength, hcells⟩ := hinv
  refine ⟨hlength, fun j hj => ?_, fun j hj => ?_, fun i hi => ?_⟩
  · have hidx : start + j + len = start + len + j := by omega
    rw [butterflies, hcells, if_pos (by omega), hidx]
  · have hidx : start + len + j - len = start + j := by omega
    rw [butterflies, hcells, if_neg (by omega), if_pos (by omega), hidx]
  · rw [butterflies, hcells, if_neg (by omega), if_neg (by omega)]

structure PassState (α : Type*) where
  k : Nat
  start : Nat
  r : List α

/-- `while start < n { block k start r; k = next k; start += 2 * len }` -/
def blockPass (n len : Nat) (next : Nat → Nat)
    (block : Nat → Nat → List α → List α) (k : Nat) (r : List α) : Nat × List α :=
  let s := whileLoop (fun s : PassState α => decide (s.start < n))
    (fun s => ⟨next s.k, s.start + 2 * len, block s.k s.start s.r⟩) (n + 1) ⟨k, 0, r⟩
  (s.k, s.r)

omit [Zero α] in
theorem length_blockPass (n len : Nat) (next : Nat → Nat)
    {block : Nat → Nat → List α → List α}
    (hblock : ∀ k start s, (block k start s).length = s.length) (k : Nat)
    (r : List α) : (blockPass n len next block k r).2.length = r.length :=
  whileLoop_preserves (P := fun s : PassState α => s.r.length = r.length)
    (fun s hs => (hblock s.k s.start s.r).trans hs) (n + 1) rfl

theorem blockPass_spec {n len count : Nat} (hlen : 0 < len)
    (hn : n = count * (2 * len)) {o : Nat → Nat}
    {block : Nat → Nat → List α → List α} {bf : Nat → α → α → α × α}
    (hblock : ∀ k start s, s.length = n → start + 2 * len ≤ n →
      BlockSpec (bf k) len start s (block k start s))
    (k : Nat) {r : List α} (hr : r.length = n) :
    (blockPass n len o block k r).1 = o^[count] k ∧
      (blockPass n len o block k r).2.length = n ∧
      ∀ i, i < n → (blockPass n len o block k r).2.getD i 0 =
        layerFn (fun b => bf (o^[b] k)) len (fun i => r.getD i 0) i := by
  -- `b` blocks are done; the cells from `start` on are as they were.
  have hinv := whileLoop_rule
    (c := fun s : PassState α => decide (s.start < n))
    (f := fun s => ⟨o s.k, s.start + 2 * len, block s.k s.start s.r⟩)
    (I := fun s => ∃ b, b ≤ count ∧ s.start = b * (2 * len) ∧
      s.k = o^[b] k ∧ s.r.length = n ∧
      (∀ i, i < s.start → s.r.getD i 0 =
        layerFn (fun b => bf (o^[b] k)) len (fun i => r.getD i 0) i) ∧
      ∀ i, s.start ≤ i → s.r.getD i 0 = r.getD i 0)
    (fun s => n - s.start)
    (by
      rintro s ⟨b, hb, hstart, hk, hlength, hdone, hrest⟩ hcond
      have hlt : s.start < n := by simpa using hcond
      have hbc : b < count := block_lt (w := len) (hn ▸ hlt) (by omega)
      have hend : (b + 1) * (2 * len) ≤ count * (2 * len) :=
        Nat.mul_le_mul_right _ hbc
      rw [Nat.add_mul, Nat.one_mul] at hend
      have hspec := hblock s.k s.start s.r hlength (by omega)
      refine ⟨⟨b + 1, hbc, by simp only; rw [hstart]; ring, ?_,
        hspec.length_eq.trans hlength, fun i hi => ?_, fun i hi => ?_⟩,
        by simp only; omega⟩
      · simp only [hk]
        rw [← Function.iterate_succ_apply' o b k]
      · simp only at hi ⊢
        rcases Nat.lt_or_ge i s.start with hlow | hhigh
        · rw [hspec.frame i (.inl hlow), hdone i hlow]
        · rcases Nat.lt_or_ge i (s.start + len) with hhalf | hhalf
          · obtain ⟨j, rfl⟩ := Nat.exists_eq_add_of_le hhigh
            rw [hspec.lower j (by omega), hrest _ (by omega), hrest _ (by omega),
              hstart, layerFn_lower _ _ _ (by omega), hk]
          · obtain ⟨j, rfl⟩ := Nat.exists_eq_add_of_le hhalf
            rw [hspec.upper j (by omega), hrest _ (by omega), hrest _ (by omega),
              hstart, layerFn_upper _ _ _ (by omega), hk]
      · simp only at hi ⊢
        rw [hspec.frame i (.inr hi), hrest i (by omega)])
    (k := n + 1) (s := ⟨k, 0, r⟩)
    ⟨0, Nat.zero_le _, by simp, rfl, hr, fun i hi => absurd hi (Nat.not_lt_zero i),
      fun i _ => rfl⟩
    (by simp)
  obtain ⟨⟨b, hb, hstart, hk, hlength, hdone, -⟩, hexit⟩ := hinv
  have hge := of_decide_eq_false hexit
  have hbc : b = count := by
    by_contra hne
    have hend : (b + 1) * (2 * len) ≤ count * (2 * len) :=
      Nat.mul_le_mul_right _ (by omega)
    rw [Nat.add_mul, Nat.one_mul] at hend
    omega
  refine ⟨by rw [blockPass]; simp only [hk, hbc], hlength, fun i hi => ?_⟩
  exact hdone i (by omega)

/-! ## Passes that can fail -/

/-- `butterfly`, without an answer where `bf` has none. -/
def butterflyChecked (bf : α → α → Option (α × α)) (len j : Nat) (r : List α) :
    Option (List α) := do
  let out ← bf (r.getD j 0) (r.getD (j + len) 0)
  some ((r.set (j + len) out.2).set j out.1)

def butterfliesChecked (bf : α → α → Option (α × α)) (len start : Nat) (r : List α) :
    Option (List α) :=
  forRange start len (fun j r => r.bind (butterflyChecked bf len j)) (some r)

theorem butterfliesChecked_eq {bf : α → α → α × α} {check : α → α → Option (α × α)}
    {len start : Nat} {r : List α} (hr : start + 2 * len ≤ r.length)
    (hcheck : ∀ j, j < len → check (r.getD (start + j) 0) (r.getD (start + j + len) 0) =
      some (bf (r.getD (start + j) 0) (r.getD (start + j + len) 0))) :
    butterfliesChecked check len start r = some (butterflies bf len start r) := by
  refine forRange_lift (I := fun j s => s.length = r.length ∧ ∀ i, j ≤ i → i < start + len →
    s.getD i 0 = r.getD i 0 ∧ s.getD (i + len) 0 = r.getD (i + len) 0) ?_
    ⟨rfl, fun i _ _ => ⟨rfl, rfl⟩⟩
  rintro j s hlo hhi ⟨hlength, hrest⟩
  obtain ⟨hu, hv⟩ := hrest j le_rfl hhi
  have hread := hcheck (j - start) (by omega)
  rw [Nat.add_sub_cancel' hlo] at hread
  refine ⟨?_, by rw [length_butterfly, hlength], fun i hi hend => ?_⟩
  · rw [butterflyChecked, hu, hv, hread, butterfly, hu, hv]
    rfl
  · obtain ⟨hlow, hhigh⟩ := hrest i (by omega) hend
    rw [getD_butterfly _ (by omega) (by omega), if_neg (by omega), if_neg (by omega),
      getD_butterfly _ (by omega) (by omega), if_neg (by omega), if_neg (by omega)]
    exact ⟨hlow, hhigh⟩

def blockPassChecked (n len : Nat) (next : Nat → Nat)
    (block : Nat → Nat → List α → Option (List α)) (k : Nat) (r : List α) :
    Option (Nat × List α) :=
  (whileLoop (fun s : Option (PassState α) => s.elim false fun s => decide (s.start < n))
    (fun s => s.bind fun s => (block s.k s.start s.r).map
      fun r => ⟨next s.k, s.start + 2 * len, r⟩) (n + 1) (some ⟨k, 0, r⟩)).map
    fun s => (s.k, s.r)

theorem blockPassChecked_eq {n len count : Nat} (hlen : 0 < len)
    (hn : n = count * (2 * len)) {o : Nat → Nat} {g : Nat → α → α → α × α}
    {check : Nat → α → α → Option (α × α)} {P : α → Prop} {k : Nat}
    (hcheck : ∀ b, b < count → ∀ u v, P u → P v →
      check (o^[b] k) u v = some (g (o^[b] k) u v))
    {r : List α} (hr : r.length = n) (hP : ∀ i, i < n → P (r.getD i 0)) :
    blockPassChecked n len o (fun k => butterfliesChecked (check k) len) k r =
      some (blockPass n len o (fun k => butterflies (g k) len) k r) := by
  rw [blockPassChecked, (whileLoop_lift (c := fun s : PassState α => decide (s.start < n))
    (f := fun s => ⟨o s.k, s.start + 2 * len, butterflies (g s.k) len s.start s.r⟩)
    (I := fun s => ∃ b, b ≤ count ∧ s.start = b * (2 * len) ∧ s.k = o^[b] k ∧
      s.r.length = n ∧ ∀ i, s.start ≤ i → s.r.getD i 0 = r.getD i 0) ?_ (n + 1)
    ⟨0, Nat.zero_le _, by simp, rfl, hr, fun i _ => rfl⟩).1]
  · rfl
  · rintro s ⟨b, hb, hstart, hk, hlength, hrest⟩ hcond
    have hlt : s.start < n := by simpa using hcond
    have hbc : b < count := block_lt (w := len) (hn ▸ hlt) (by omega)
    have hend : (b + 1) * (2 * len) ≤ count * (2 * len) := Nat.mul_le_mul_right _ hbc
    rw [Nat.add_mul, Nat.one_mul] at hend
    have hcell : ∀ i, s.start ≤ i → i < n → P (s.r.getD i 0) := fun i hlo hhi =>
      hrest i hlo ▸ hP i hhi
    have hblock : butterfliesChecked (check s.k) len s.start s.r =
        some (butterflies (g s.k) len s.start s.r) :=
      butterfliesChecked_eq (by omega) (fun j hj => by
        rw [hk]
        exact hcheck b hbc _ _ (hcell _ (by omega) (by omega)) (hcell _ (by omega) (by omega)))
    have hspec : BlockSpec (g s.k) len s.start s.r (butterflies (g s.k) len s.start s.r) :=
      butterflies_spec (g s.k) (by omega)
    refine ⟨by rw [hblock]; rfl, b + 1, hbc, ?_, ?_, hspec.length_eq.trans hlength,
      fun i hi => ?_⟩
    · simp only [hstart]
      ring
    · simp only [hk]
      rw [← Function.iterate_succ_apply' o b k]
    · simp only at hi ⊢
      rw [hspec.frame i (.inr hi), hrest i (by omega)]

end InPlace

/-! ## Passes over concrete cells

Cells of type `α` stand for values of type `β` through `f`; `P` and `P'` bound what a
pass reads and writes.
-/

section Cells

variable [Zero α] {β : Type*}

/-- The array holds the values `x`, in cells that satisfy `P`. -/
def Holds (n : Nat) (f : α → β) (P : α → Prop) (x : Nat → β) (r : List α) : Prop :=
  r.length = n ∧ ∀ i, i < n → P (r.getD i 0) ∧ f (r.getD i 0) = x i

theorem blocks_fill {h m : Nat} (hm : m < h) :
    2 ^ h = 2 ^ m * (2 * 2 ^ (h - 1 - m)) := by
  rw [← pow_succ', ← pow_add]
  congr 1
  omega

theorem blockPass_holds {h m : Nat} (hm : m < h) {f : α → β} {P S : α → Prop}
    {x : Nat → β} {o : Nat → Nat} {g : Nat → Nat → List α → List α}
    {w : Nat → α → α → α × α} {p : Nat → β → β → β × β}
    (hblock : ∀ k start s, s.length = 2 ^ h → start + 2 * 2 ^ (h - 1 - m) ≤ 2 ^ h →
      BlockSpec (w k) (2 ^ (h - 1 - m)) start s (g k start s))
    {k : Nat}
    (hbf : ∀ b, b < 2 ^ m → ∀ u v, P u → P v →
      S (w (o^[b] k) u v).1 ∧ S (w (o^[b] k) u v).2 ∧
        p b (f u) (f v) = (f (w (o^[b] k) u v).1, f (w (o^[b] k) u v).2))
    {r : List α} (hr : Holds (2 ^ h) f P x r) :
    (blockPass (2 ^ h) (2 ^ (h - 1 - m)) o g k r).1 = o^[2 ^ m] k ∧
      Holds (2 ^ h) f S (layerFn p (2 ^ (h - 1 - m)) x)
        (blockPass (2 ^ h) (2 ^ (h - 1 - m)) o g k r).2 := by
  obtain ⟨hlength, hcells⟩ := hr
  have hpos : 0 < 2 ^ (h - 1 - m) := by positivity
  obtain ⟨hk, hlength', hcells'⟩ := blockPass_spec hpos (blocks_fill hm)
    (o := o) hblock k hlength
  refine ⟨hk, hlength', fun i hi => ?_⟩
  rw [hcells' i hi]
  rw [blocks_fill hm] at hi hcells
  have hP : ∀ i, i < 2 ^ m * (2 * 2 ^ (h - 1 - m)) → P (r.getD i 0) :=
    fun i hi => (hcells i hi).1
  constructor
  · exact layerFn_forall hpos hP
      (fun b u v hb hu hv => ⟨(hbf b hb u v hu hv).1, (hbf b hb u v hu hv).2.1⟩) hi
  · rw [layerFn_map (f := f) (e := p) hpos hP
      (fun b u v hb hu hv => (hbf b hb u v hu hv).2.2) hi]
    exact layerFn_congr hpos (fun _ _ => rfl) (fun i hi => (hcells i hi).2) hi

theorem iterate_succ_nat (b k : Nat) : (fun k => k + 1)^[b] k = k + b := by
  induction b with
  | zero => rfl
  | succ b ih => rw [Function.iterate_succ_apply', ih]; rfl

theorem iterate_pred_nat (b k : Nat) : (fun k => k - 1)^[b] k = k - b := by
  induction b with
  | zero => rfl
  | succ b ih => rw [Function.iterate_succ_apply', ih]; omega

end Cells

end Stdx.Foundation
