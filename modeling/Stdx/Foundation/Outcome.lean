import Mathlib.Tactic

/-!
# Outcomes of checked code

A call either returns, returns an error, or panics (an index out of range, an
arithmetic overflow, a failed assertion).  Panics are kept apart from errors so
that their absence is a statement about the code and not a property of the
embedding.
-/

namespace Stdx.Foundation

/-- The width of `usize`; every supported target has at least 32 bits. -/
structure Target where
  usizeBits : Nat
  wide : 32 ≤ usizeBits

theorem two_pow_usizeBits (T : Target) : 2 ^ T.usizeBits = 2 * 2 ^ (T.usizeBits - 1) := by
  have h := T.wide
  rw [← pow_succ', show T.usizeBits - 1 + 1 = T.usizeBits by omega]

theorem le_two_pow_usizeBits (T : Target) : 2 ^ 32 ≤ 2 ^ T.usizeBits :=
  Nat.pow_le_pow_right (by decide) T.wide

inductive Outcome (ε α : Type) where
  | ok (value : α)
  | err (error : ε)
  | panic
  deriving DecidableEq, Repr

namespace Outcome

variable {ε α β : Type}

instance : Monad (Outcome ε) where
  pure := ok
  bind first next :=
    match first with
    | ok value => next value
    | err error => err error
    | panic => panic

@[simp] theorem pure_eq (value : α) : (Pure.pure value : Outcome ε α) = ok value := rfl

@[simp] theorem ok_bind (value : α) (next : α → Outcome ε β) :
    (ok value >>= next) = next value := rfl

@[simp] theorem err_bind (error : ε) (next : α → Outcome ε β) :
    (err error >>= next) = err error := rfl

@[simp] theorem panic_bind (next : α → Outcome ε β) :
    (panic >>= next) = panic := rfl

instance : LawfulMonad (Outcome ε) :=
  LawfulMonad.mk' _
    (fun first => by cases first <;> rfl)
    (fun _ _ => rfl)
    (fun first _ _ => by cases first <;> rfl)

theorem bind_eq_ok {first : Outcome ε α} {next : α → Outcome ε β} {b : β} :
    first >>= next = ok b ↔ ∃ a, first = ok a ∧ next a = ok b := by
  cases first <;> simp

end Outcome

/--
Code that reads and advances a state of type `σ`.  The state is returned on
every outcome, since a failed call keeps what it had already consumed.
-/
def Checked (σ ε α : Type) : Type := σ → Outcome ε α × σ

namespace Checked

variable {σ ε α β : Type}

def pure (value : α) : Checked σ ε α := fun s => (.ok value, s)

def bind (first : Checked σ ε α) (next : α → Checked σ ε β) :
    Checked σ ε β := fun s =>
  match first s with
  | (.ok value, s') => next value s'
  | (.err error, s') => (.err error, s')
  | (.panic, s') => (.panic, s')

def fail (error : ε) : Checked σ ε α := fun s => (.err error, s)

def abort : Checked σ ε α := fun s => (.panic, s)

instance : Monad (Checked σ ε) where
  pure := Checked.pure
  bind := Checked.bind

@[simp] theorem run_pure (value : α) (s : σ) :
    (Pure.pure value : Checked σ ε α) s = (.ok value, s) := rfl

@[simp] theorem run_fail (error : ε) (s : σ) :
    (fail error : Checked σ ε α) s = (.err error, s) := rfl

@[simp] theorem run_abort (s : σ) :
    (abort : Checked σ ε α) s = (.panic, s) := rfl

theorem run_bind (first : Checked σ ε α) (next : α → Checked σ ε β) (s : σ) :
    (first >>= next) s =
      match first s with
      | (.ok value, s') => next value s'
      | (.err error, s') => (.err error, s')
      | (.panic, s') => (.panic, s') := rfl

theorem bind_eq_ok {first : Checked σ ε α} {next : α → Checked σ ε β}
    {s s' : σ} {value : β} (h : (first >>= next) s = (.ok value, s')) :
    ∃ mid t, first s = (.ok mid, t) ∧ next mid t = (.ok value, s') := by
  rw [run_bind] at h
  split at h
  · next mid t heq => exact ⟨mid, t, heq, h⟩
  · simp at h
  · simp at h

/-- A run from a state satisfying `I` never panics and ends in such a state. -/
def Safe (I : σ → Prop) (code : Checked σ ε α) : Prop :=
  ∀ s, I s → (code s).1 ≠ .panic ∧ I (code s).2

theorem Safe.pure (I : σ → Prop) (value : α) :
    Safe I (Pure.pure value : Checked σ ε α) := by
  intro s hs
  exact ⟨by simp, hs⟩

theorem Safe.fail (I : σ → Prop) (error : ε) :
    Safe I (Checked.fail error : Checked σ ε α) := by
  intro s hs
  exact ⟨by simp, hs⟩

theorem Safe.bind {I : σ → Prop} {first : Checked σ ε α}
    {next : α → Checked σ ε β} (hfirst : Safe I first)
    (hnext : ∀ value, Safe I (next value)) : Safe I (first >>= next) := by
  intro s hs
  obtain ⟨hpanic, hinv⟩ := hfirst s hs
  rw [run_bind]
  split
  · next value t heq =>
    rw [heq] at hinv
    exact hnext value t hinv
  · next error t heq =>
    rw [heq] at hinv
    exact ⟨by simp, hinv⟩
  · next t heq =>
    rw [heq] at hpanic
    exact absurd rfl hpanic

/-! ## Triples -/

/--
From a state in `pre` the code does not panic: it returns a value in `post` or
fails in a state in `fault`.
-/
def Triple (pre : σ → Prop) (code : Checked σ ε α) (post : α → σ → Prop)
    (fault : σ → Prop) : Prop :=
  ∀ s, pre s →
    match code s with
    | (.ok value, s') => post value s'
    | (.err _, s') => fault s'
    | (.panic, _) => False

variable {pre : σ → Prop} {fault : σ → Prop}

theorem Triple.pure {post : α → σ → Prop} {value : α} (h : ∀ s, pre s → post value s) :
    Triple pre (Pure.pure value : Checked σ ε α) post fault := h

theorem Triple.fail {post : α → σ → Prop} {error : ε} (h : ∀ s, pre s → fault s) :
    Triple pre (Checked.fail error : Checked σ ε α) post fault := h

theorem Triple.bind {mid : α → σ → Prop} {post : β → σ → Prop} {first : Checked σ ε α}
    {next : α → Checked σ ε β} (hfirst : Triple pre first mid fault)
    (hnext : ∀ value, Triple (mid value) (next value) post fault) :
    Triple pre (first >>= next) post fault := by
  intro s hs
  have hfirst := hfirst s hs
  rw [run_bind]
  cases hrun : first s with
  | mk outcome s' =>
    rw [hrun] at hfirst
    cases outcome with
    | ok value => exact hnext value s' hfirst
    | err error => exact hfirst
    | panic => exact hfirst

theorem Triple.consequence {pre' : σ → Prop} {post post' : α → σ → Prop} {fault' : σ → Prop}
    {code : Checked σ ε α} (h : Triple pre code post fault) (hpre : ∀ s, pre' s → pre s)
    (hpost : ∀ value s, post value s → post' value s) (hfault : ∀ s, fault s → fault' s) :
    Triple pre' code post' fault' := by
  intro s hs
  have h := h s (hpre s hs)
  cases hrun : code s with
  | mk outcome s' =>
    rw [hrun] at h
    cases outcome with
    | ok value => exact hpost value s' h
    | err error => exact hfault s' h
    | panic => exact h

theorem Triple.of_state {post : α → σ → Prop} {code : Checked σ ε α}
    (h : ∀ s, pre s → Triple (· = s) code post fault) : Triple pre code post fault :=
  fun s hs => h s hs s rfl

end Checked

/-! ## `Result` -/

theorem except_bind_eq_ok {ε α β : Type} {first : Except ε α} {next : α → Except ε β} {b : β} :
    first >>= next = .ok b ↔ ∃ a, first = .ok a ∧ next a = .ok b := by
  cases first with
  | error e => exact ⟨nofun, nofun⟩
  | ok a => exact ⟨fun h => ⟨a, rfl, h⟩, fun ⟨_, ha, h⟩ => Except.ok.inj ha ▸ h⟩

end Stdx.Foundation
