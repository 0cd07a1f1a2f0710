import Mathlib
import Stdx.Foundation.Transition

/-!
# Threads that meet at a barrier

Every thread works through rounds of actions on one shared state and waits at the
barrier after each round, until all have come.  Where actions of different threads
commute within a round, every order in which the threads take turns gives the state of
the plain loop: round by round, one thread after the other.
-/

namespace Stdx.Foundation

variable {σ α : Type*} {p : Nat}

theorem exec_flatMap {β : Type*} {step : σ → α → Option σ} {s : σ} (g : β → List α) (bs : List β) :
    exec (fun t b => exec step t (g b)) s bs = exec step s (bs.flatMap g) := by
  induction bs generalizing s with
  | nil => rfl
  | cons b bs ih => simp only [exec, List.flatMap_cons, exec_append, ih]

theorem exec_range (step : σ → Nat → Option σ) {s : σ} {n : Nat} {P : Nat → σ → Prop}
    (hstart : P 0 s)
    (hstep : ∀ k t, k < n → P k t → ∃ t', step t k = some t' ∧ P (k + 1) t') :
    ∃ t, exec step s (List.range n) = some t ∧ P n t := by
  induction n with
  | zero => exact ⟨s, rfl, hstart⟩
  | succ n ih =>
    obtain ⟨t, hrun, ht⟩ := ih fun k t hk => hstep k t (by omega)
    obtain ⟨t', hlast, ht'⟩ := hstep n t (by omega) ht
    exact ⟨t', by rw [List.range_succ]; exact exec_concat_eq_some.mpr ⟨t, hrun, hlast⟩, ht'⟩

def Commutes (step : σ → α → Option σ) (a b : α) : Prop :=
  ∀ s, ((step s a).bind fun t => step t b) = (step s b).bind fun t => step t a

variable {step : σ → α → Option σ}

theorem exec_front {a : α} {xs ys : List α} {s : σ} (h : ∀ b ∈ xs, Commutes step b a) :
    exec step s (xs ++ a :: ys) = exec step s (a :: (xs ++ ys)) := by
  induction xs generalizing s with
  | nil => rfl
  | cons b xs ih =>
    have htail : ∀ t, exec step t (xs ++ a :: ys) = exec step t (a :: (xs ++ ys)) :=
      fun t => ih fun c hc => h c (List.mem_cons_of_mem b hc)
    have hswap := congrArg (fun r => r.bind fun t => exec step t (xs ++ ys))
      (h b List.mem_cons_self s)
    simp only [Option.bind_assoc] at hswap
    simpa only [List.cons_append, exec, htail] using hswap

/-- The shared state, and what each thread has left of its round and of those after it. -/
structure Team (σ α : Type*) (p : Nat) where
  state : σ
  rounds : Fin p → List (List α)

/-- A thread takes its next action, or the barrier lets all threads pass. -/
inductive Turn (p : Nat) where
  | act (thread : Fin p)
  | release

namespace Team

def Pending (team : Team σ α p) (i : Fin p) (a : α) : Prop :=
  ∃ as rest, team.rounds i = (a :: as) :: rest

def Arrived (team : Team σ α p) (i : Fin p) : Prop := (team.rounds i).head? = some []

instance arrivedDecidable (team : Team σ α p) (i : Fin p) : Decidable (team.Arrived i) :=
  decidable_of_iff ((team.rounds i).head?.any List.isEmpty = true) (by
    rw [Arrived, Option.any_eq_true]
    simp)

def Finished (team : Team σ α p) : Prop := ∀ i, team.rounds i = []

/-- `none` when the turn is not possible or its action fails. -/
def turn (step : σ → α → Option σ) (team : Team σ α p) : Turn p → Option (Team σ α p)
  | .act i =>
    match team.rounds i with
    | (a :: as) :: rest =>
      (step team.state a).map fun s => ⟨s, Function.update team.rounds i (as :: rest)⟩
    | _ => none
  | .release =>
    if ∀ i, team.Arrived i then some ⟨team.state, fun i => (team.rounds i).tail⟩ else none

end Team

/-! ## The order of the plain loop -/

def currentRound (rounds : Fin p → List (List α)) : List α :=
  (List.finRange p).flatMap fun i => (rounds i).headD []

def inOrder : Nat → (Fin p → List (List α)) → List α
  | 0, _ => []
  | n + 1, rounds => currentRound rounds ++ inOrder n fun i => (rounds i).tail

theorem inOrder_map {β : Type*} (work : Fin p → β → List α) (bs : List β) :
    inOrder bs.length (fun i => bs.map (work i)) =
      bs.flatMap fun b => (List.finRange p).flatMap fun i => work i b := by
  induction bs with
  | nil => rfl
  | cons b bs ih =>
    rw [List.flatMap_cons, ← ih]
    rfl

variable {rounds : Fin p → List (List α)} {i : Fin p} {a : α} {as : List α}
  {rest : List (List α)}

theorem currentRound_split (h : rounds i = (a :: as) :: rest) :
    ∃ xs ys, currentRound rounds = xs ++ a :: ys ∧
      currentRound (Function.update rounds i (as :: rest)) = xs ++ ys ∧
      ∀ b ∈ xs, ∃ j, j ≠ i ∧ b ∈ (rounds j).headD [] := by
  obtain ⟨before, after, hsplit⟩ := List.append_of_mem (List.mem_finRange i)
  have hnodup := List.nodup_finRange p
  rw [hsplit] at hnodup
  obtain ⟨-, hafter, hapart⟩ := List.nodup_append.mp hnodup
  have hbefore : ∀ j ∈ before, j ≠ i := fun j hj => hapart j hj i List.mem_cons_self
  have hnot : ∀ j ∈ after, j ≠ i := by
    rintro j hj rfl
    exact (List.nodup_cons.mp hafter).1 hj
  have hsame : ∀ l : List (Fin p), (∀ j ∈ l, j ≠ i) →
      (l.flatMap fun j => (Function.update rounds i (as :: rest) j).headD []) =
        l.flatMap fun j => (rounds j).headD [] := by
    intro l hl
    refine List.flatMap_congr fun j hj => ?_
    rw [Function.update_of_ne (hl j hj)]
  refine ⟨before.flatMap fun j => (rounds j).headD [],
    as ++ after.flatMap fun j => (rounds j).headD [], ?_, ?_, ?_⟩
  · rw [currentRound, hsplit, List.flatMap_append, List.flatMap_cons, h]
    rfl
  · rw [currentRound, hsplit, List.flatMap_append, List.flatMap_cons, hsame before hbefore,
      hsame after hnot, Function.update_self]
    rfl
  · intro b hb
    obtain ⟨j, hj, hmem⟩ := List.mem_flatMap.mp hb
    exact ⟨j, hbefore j hj, hmem⟩

theorem inOrder_split (h : rounds i = (a :: as) :: rest) (n : Nat) :
    ∃ xs ys, inOrder (n + 1) rounds = xs ++ a :: ys ∧
      inOrder (n + 1) (Function.update rounds i (as :: rest)) = xs ++ ys ∧
      ∀ b ∈ xs, ∃ j, j ≠ i ∧ b ∈ (rounds j).headD [] := by
  obtain ⟨xs, ys, hbefore, hafter, hothers⟩ := currentRound_split h
  have htails : (fun j => (Function.update rounds i (as :: rest) j).tail) =
      fun j => (rounds j).tail := by
    funext j
    by_cases hj : j = i
    · subst hj
      rw [Function.update_self, h, List.tail_cons, List.tail_cons]
    · rw [Function.update_of_ne hj]
  refine ⟨xs, ys ++ inOrder n fun j => (rounds j).tail, ?_, ?_, hothers⟩
  · rw [inOrder, hbefore, List.append_assoc, List.cons_append]
  · rw [inOrder, hafter, htails, List.append_assoc]

/-! ## Actions of different threads -/

/-- The relation holds between any two actions that different threads have in one round. -/
def Across (R : α → α → Prop) (rounds : Fin p → List (List α)) : Prop :=
  ∀ n i j, i ≠ j → ∀ a ∈ (rounds i).getD n [], ∀ b ∈ (rounds j).getD n [], R a b

variable {R : α → α → Prop}

theorem across_map {β : Type*} {work : Fin p → β → List α} {bs : List β}
    (h : ∀ b ∈ bs, ∀ i j, i ≠ j → ∀ x ∈ work i b, ∀ y ∈ work j b, R x y) :
    Across R fun i => bs.map (work i) := by
  intro n i j hij x hx y hy
  rw [List.getD_eq_getElem?_getD, List.getElem?_map] at hx hy
  cases hb : bs[n]? with
  | none =>
    rw [hb] at hx
    cases hx
  | some b =>
    rw [hb] at hx hy
    exact h b (List.mem_of_getElem? hb) i j hij x hx y hy

theorem Across.mono {rounds' : Fin p → List (List α)} (h : Across R rounds)
    (hsub : ∀ i n a, a ∈ (rounds' i).getD n [] → a ∈ (rounds i).getD n []) :
    Across R rounds' := by
  intro n i j hij a ha b hb
  exact h n i j hij a (hsub i n a ha) b (hsub j n b hb)

theorem Across.head (h : Across R rounds) {i j : Fin p} (hij : i ≠ j) {a b : α}
    (ha : a ∈ (rounds i).headD []) (hb : b ∈ (rounds j).headD []) : R a b := by
  apply h 0 i j hij
  · rwa [List.getD_eq_getElem?_getD, ← List.head?_eq_getElem?, ← List.headD_eq_head?_getD]
  · rwa [List.getD_eq_getElem?_getD, ← List.head?_eq_getElem?, ← List.headD_eq_head?_getD]

theorem Across.tail (h : Across R rounds) : Across R fun i => (rounds i).tail := by
  intro n i j hij a ha b hb
  apply h (n + 1) i j hij
  · simpa [List.getD_eq_getElem?_getD] using ha
  · simpa [List.getD_eq_getElem?_getD] using hb

theorem Across.update (h : Across R rounds) (hi : rounds i = (a :: as) :: rest) :
    Across R (Function.update rounds i (as :: rest)) := by
  refine h.mono fun j n b hb => ?_
  by_cases hj : j = i
  · subst hj
    rw [Function.update_self] at hb
    rw [hi]
    cases n with
    | zero => exact List.mem_cons_of_mem a hb
    | succ n => exact hb
  · rwa [Function.update_of_ne hj] at hb

/-! ## Runs -/

/-- The team has come from one whose plain loop ends in `result`. -/
structure Team.OnCourse (step : σ → α → Option σ) (R : α → α → Prop) (result : Option σ)
    (n : Nat) (team : Team σ α p) : Prop where
  length_eq : ∀ i, (team.rounds i).length = n
  commutes : Across (Commutes step) team.rounds
  across : Across R team.rounds
  exec_eq : exec step team.state (inOrder n team.rounds) = result

namespace Team

variable {team team' : Team σ α p} {result : Option σ} {n : Nat}

theorem OnCourse.pos (h : team.OnCourse step R result n) {l : List α}
    (hi : team.rounds i = l :: rest) : ∃ m, n = m + 1 := by
  have hlength := h.length_eq i
  rw [hi, List.length_cons] at hlength
  exact ⟨rest.length, hlength.symm⟩

/-- The next action of any thread can be the next action of the plain loop. -/
theorem OnCourse.front (h : team.OnCourse step R result n)
    (hi : team.rounds i = (a :: as) :: rest) :
    (step team.state a).bind (fun t =>
      exec step t (inOrder n (Function.update team.rounds i (as :: rest)))) = result := by
  obtain ⟨m, rfl⟩ := h.pos hi
  obtain ⟨xs, ys, hbefore, hafter, hothers⟩ := inOrder_split hi m
  have hcommutes : ∀ b ∈ xs, Commutes step b a := by
    intro b hb
    obtain ⟨j, hj, hmem⟩ := hothers b hb
    refine h.commutes.head hj hmem ?_
    rw [hi]
    exact List.mem_cons_self
  have hexec := h.exec_eq
  rw [hbefore, exec_front hcommutes] at hexec
  rw [hafter]
  exact hexec

theorem OnCourse.act (h : team.OnCourse step R result n) {s : σ}
    (hi : team.rounds i = (a :: as) :: rest) (hs : step team.state a = some s) :
    OnCourse step R result n ⟨s, Function.update team.rounds i (as :: rest)⟩ where
  length_eq j := by
    have hlength := h.length_eq j
    by_cases hj : j = i
    · subst hj
      rw [hi] at hlength
      simpa using hlength
    · simpa [Function.update_of_ne hj] using hlength
  commutes := h.commutes.update hi
  across := h.across.update hi
  exec_eq := by
    have hfront := h.front hi
    rwa [hs, Option.bind_some] at hfront

theorem OnCourse.release (h : team.OnCourse step R result n) (harrived : ∀ i, team.Arrived i) :
    OnCourse step R result (n - 1) ⟨team.state, fun i => (team.rounds i).tail⟩ where
  length_eq j := by rw [List.length_tail, h.length_eq]
  commutes := h.commutes.tail
  across := h.across.tail
  exec_eq := by
    have hexec := h.exec_eq
    cases n with
    | zero => exact hexec
    | succ n =>
      have hround : currentRound team.rounds = [] := by
        refine List.flatMap_eq_nil_iff.mpr fun j _ => ?_
        rw [List.headD_eq_head?_getD, harrived j, Option.getD_some]
      rwa [inOrder, hround, List.nil_append] at hexec

theorem OnCourse.turn (h : team.OnCourse step R result n) {t : Turn p}
    (hturn : team.turn step t = some team') : ∃ n', team'.OnCourse step R result n' := by
  cases t with
  | act i =>
    simp only [Team.turn] at hturn
    split at hturn
    · next a as rest hi =>
      obtain ⟨s, hs, hteam⟩ := Option.map_eq_some_iff.mp hturn
      subst hteam
      exact ⟨n, h.act hi hs⟩
    · cases hturn
  | release =>
    simp only [Team.turn] at hturn
    split at hturn
    · next harrived =>
      cases hturn
      exact ⟨n - 1, h.release harrived⟩
    · cases hturn

theorem OnCourse.run (h : team.OnCourse step R result n) {turns : List (Turn p)}
    (hrun : exec (Team.turn step) team turns = some team') :
    ∃ n', team'.OnCourse step R result n' :=
  run_invariant (P := fun t => ∃ n', Team.OnCourse step R result n' t) ⟨n, h⟩
    (fun _ _ _ ⟨_, hcourse⟩ hturn => hcourse.turn hturn) hrun

theorem OnCourse.pending_isSome (h : team.OnCourse step R result n) (hresult : result.isSome)
    (hpending : team.Pending i a) : (step team.state a).isSome := by
  obtain ⟨as, rest, hi⟩ := hpending
  have hfront := h.front hi
  cases hs : step team.state a with
  | some s => rfl
  | none =>
    rw [hs] at hfront
    rw [← hfront] at hresult
    exact hresult

theorem OnCourse.pending_across (h : team.OnCourse step R result n) {i j : Fin p} (hij : i ≠ j)
    {a b : α} (ha : team.Pending i a) (hb : team.Pending j b) : R a b := by
  obtain ⟨as, rest, hi⟩ := ha
  obtain ⟨bs, rest', hj⟩ := hb
  refine h.across.head hij ?_ ?_
  · rw [hi]
    exact List.mem_cons_self
  · rw [hj]
    exact List.mem_cons_self

theorem OnCourse.finished [NeZero p] (h : team.OnCourse step R result n)
    (hfinished : team.Finished) : result = some team.state := by
  have hlength := h.length_eq 0
  rw [hfinished 0] at hlength
  subst hlength
  exact h.exec_eq.symm

/-! ## No deadlock -/

def left (n : Nat) (team : Team σ α p) : Nat := (inOrder n team.rounds).length + n

theorem OnCourse.progress (h : team.OnCourse step R result (n + 1)) (hresult : result.isSome) :
    ∃ t team' n', team.turn step t = some team' ∧ team'.OnCourse step R result n' ∧
      left n' team' < left (n + 1) team := by
  by_cases hpending : ∃ i a as rest, team.rounds i = (a :: as) :: rest
  · obtain ⟨i, a, as, rest, hi⟩ := hpending
    obtain ⟨s, hs⟩ := Option.isSome_iff_exists.mp (h.pending_isSome hresult ⟨as, rest, hi⟩)
    obtain ⟨xs, ys, hbefore, hafter, -⟩ := inOrder_split hi n
    refine ⟨.act i, _, n + 1, ?_, h.act hi hs, ?_⟩
    · simp only [Team.turn, hi, hs, Option.map_some]
    · simp only [left, hbefore, hafter, List.length_append, List.length_cons]
      omega
  · have harrived : ∀ i, team.Arrived i := by
      intro i
      have hlength := h.length_eq i
      cases hi : team.rounds i with
      | nil =>
        rw [hi] at hlength
        cases hlength
      | cons l rest =>
        cases l with
        | nil => rw [Arrived, hi, List.head?_cons]
        | cons a as => exact absurd ⟨i, a, as, rest, hi⟩ hpending
    refine ⟨.release, _, n, if_pos harrived, h.release harrived, ?_⟩
    simp only [left, inOrder, List.length_append]
    omega

theorem OnCourse.completes (h : team.OnCourse step R result n) (hresult : result.isSome) :
    ∃ turns team', exec (Team.turn step) team turns = some team' ∧ team'.Finished := by
  induction hleft : left n team using Nat.strong_induction_on generalizing n team with
  | h k ih =>
    subst hleft
    cases n with
    | zero => exact ⟨[], team, rfl, fun i => List.length_eq_zero_iff.mp (h.length_eq i)⟩
    | succ n =>
      obtain ⟨t, next, n', hturn, hcourse, hlt⟩ := h.progress hresult
      obtain ⟨turns, last, hrun, hfinished⟩ := ih _ hlt hcourse rfl
      refine ⟨t :: turns, last, ?_, hfinished⟩
      rw [exec, hturn, Option.bind_some, hrun]

end Team

end Stdx.Foundation
