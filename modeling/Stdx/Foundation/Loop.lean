import Mathlib.Tactic

/-!
# Loops

`while` and `for` over an explicit state, with the invariant rule of each.  A
`while` loop carries fuel; the rule asks for a measure below it, so a conclusion
drawn through the rule is about the loop's own exit and not about fuel.
-/

namespace Stdx.Foundation

variable {σ : Type*}

def whileLoop (cond : σ → Bool) (body : σ → σ) : Nat → σ → σ
  | 0, s => s
  | fuel + 1, s => if cond s then whileLoop cond body fuel (body s) else s

theorem whileLoop_rule {c : σ → Bool} {f : σ → σ} {I : σ → Prop}
    (measure : σ → Nat)
    (hstep : ∀ s, I s → c s = true →
      I (f s) ∧ measure (f s) < measure s)
    {k : Nat} {s : σ} (hs : I s) (hfuel : measure s < k) :
    I (whileLoop c f k s) ∧
      c (whileLoop c f k s) = false := by
  induction k generalizing s with
  | zero => omega
  | succ k ih =>
    simp only [whileLoop]
    split
    · next hcond =>
      obtain ⟨hinv, hlt⟩ := hstep s hs hcond
      exact ih hinv (by omega)
    · next hcond => exact ⟨hs, by simpa using hcond⟩

theorem whileLoop_preserves {c : σ → Bool} {f : σ → σ} {P : σ → Prop}
    (hstep : ∀ s, P s → P (f s)) (fuel : Nat) {s : σ} (hs : P s) :
    P (whileLoop c f fuel s) := by
  induction fuel generalizing s with
  | zero => exact hs
  | succ fuel ih =>
    simp only [whileLoop]
    split
    · exact ih (hstep s hs)
    · exact hs

theorem whileLoop_of_le {c : σ → Bool} {f : σ → σ} {fuel fuel' : Nat} {s : σ}
    (hexit : c (whileLoop c f fuel s) = false) (hle : fuel ≤ fuel') :
    whileLoop c f fuel' s = whileLoop c f fuel s := by
  induction fuel generalizing fuel' s with
  | zero =>
    cases fuel' with
    | zero => rfl
    | succ fuel' =>
      rw [whileLoop, whileLoop] at *
      rw [hexit]
      rfl
  | succ fuel ih =>
    cases fuel' with
    | zero => omega
    | succ fuel' =>
      simp only [whileLoop] at hexit ⊢
      split
      · next hcond =>
        rw [if_pos hcond] at hexit
        exact ih hexit (by omega)
      · rfl

theorem whileLoop_lift {c : σ → Bool} {f : σ → σ} {g : σ → Option σ} {I : σ → Prop}
    (hstep : ∀ s, I s → c s = true → g s = some (f s) ∧ I (f s)) (fuel : Nat) {s : σ}
    (hs : I s) :
    whileLoop (fun s : Option σ => s.elim false c) (fun s => s.bind g) fuel (some s) =
      some (whileLoop c f fuel s) ∧ I (whileLoop c f fuel s) := by
  induction fuel generalizing s with
  | zero => exact ⟨rfl, hs⟩
  | succ fuel ih =>
    change (if c s = true then whileLoop _ _ fuel (g s) else some s) =
      some (if c s = true then whileLoop c f fuel (f s) else s) ∧
        I (if c s = true then whileLoop c f fuel (f s) else s)
    by_cases hcond : c s = true
    · obtain ⟨hg, hf⟩ := hstep s hs hcond
      rw [if_pos hcond, if_pos hcond, hg]
      exact ih hf
    · rw [if_neg hcond, if_neg hcond]
      exact ⟨rfl, hs⟩

/-- `for i in lo..lo + count { body i }` -/
def forRange (lo : Nat) : Nat → (Nat → σ → σ) → σ → σ
  | 0, _, s => s
  | count + 1, body, s => forRange (lo + 1) count body (body lo s)

theorem forRange_rule {f : Nat → σ → σ} {I : Nat → σ → Prop}
    {l n : Nat}
    (hstep : ∀ i s, l ≤ i → i < l + n → I i s → I (i + 1) (f i s))
    {s : σ} (hs : I l s) : I (l + n) (forRange l n f s) := by
  induction n generalizing l s with
  | zero => exact hs
  | succ n ih =>
    have hfirst := hstep l s le_rfl (by omega) hs
    have hrest := ih (l := l + 1)
      (fun i t hlo hhi hi => hstep i t (by omega) (by omega) hi) hfirst
    simpa [forRange, Nat.add_assoc, Nat.add_comm, Nat.add_left_comm] using hrest

@[simp] theorem forRange_zero (lo : Nat) (body : Nat → σ → σ) (s : σ) :
    forRange lo 0 body s = s := rfl

theorem forRange_succ (lo count : Nat) (body : Nat → σ → σ) (s : σ) :
    forRange lo (count + 1) body s = forRange (lo + 1) count body (body lo s) :=
  rfl

theorem forRange_congr {f g : Nat → σ → σ} {lo count : Nat}
    (h : ∀ i s, lo ≤ i → i < lo + count → f i s = g i s) (s : σ) :
    forRange lo count f s = forRange lo count g s := by
  induction count generalizing lo s with
  | zero => rfl
  | succ count ih =>
    rw [forRange_succ, forRange_succ, h lo s le_rfl (by omega)]
    exact ih (fun i s hlo hhi => h i s (by omega) (by omega)) _

theorem forRange_lift {f : Nat → σ → σ} {g : Nat → σ → Option σ} {I : Nat → σ → Prop}
    {l n : Nat}
    (hstep : ∀ i s, l ≤ i → i < l + n → I i s → g i s = some (f i s) ∧ I (i + 1) (f i s))
    {s : σ} (hs : I l s) :
    forRange l n (fun i s => s.bind (g i)) (some s) = some (forRange l n f s) := by
  induction n generalizing l s with
  | zero => rfl
  | succ n ih =>
    obtain ⟨hg, hf⟩ := hstep l s le_rfl (by omega) hs
    rw [forRange_succ, forRange_succ, Option.bind_some, hg]
    exact ih (fun i t hlo hhi ht => hstep i t (by omega) (by omega) ht) hf

theorem forRange_snoc (lo count : Nat) (body : Nat → σ → σ) (s : σ) :
    forRange lo (count + 1) body s = body (lo + count) (forRange lo count body s) := by
  induction count generalizing lo s with
  | zero => rfl
  | succ count ih =>
    rw [forRange_succ, ih (lo + 1) (body lo s), forRange_succ, Nat.add_right_comm]
    rfl

theorem forRange_pairs (body : Nat → σ → σ) (lo count : Nat) (s : σ) :
    forRange 0 count (fun i s => body (lo + 2 * i + 1) (body (lo + 2 * i) s)) s =
      forRange lo (2 * count) body s := by
  suffices h : ∀ start s, forRange start count
      (fun i s => body (lo + 2 * i + 1) (body (lo + 2 * i) s)) s =
      forRange (lo + 2 * start) (2 * count) body s from h 0 s
  induction count with
  | zero => exact fun _ _ => rfl
  | succ count ih =>
    intro start s
    rw [forRange_succ, ih]
    rfl

/-- `let mut i = count; while i > 0 { i -= 1; body i }` -/
def forDown : Nat → (Nat → σ → σ) → σ → σ
  | 0, _, s => s
  | count + 1, body, s => forDown count body (body count s)

theorem forDown_rule {f : Nat → σ → σ} {I : Nat → σ → Prop} {n : Nat}
    (hstep : ∀ i s, i < n → I (i + 1) s → I i (f i s)) {s : σ}
    (hs : I n s) : I 0 (forDown n f s) := by
  induction n generalizing s with
  | zero => exact hs
  | succ n ih =>
    exact ih (fun i t hi => hstep i t (by omega)) (hstep n s (by omega) hs)

/-- `for i in 0..count { out[i] = f(i) }` where a call of `f` may not return. -/
@[grind =]
def forCollect {α : Type*} : Nat → (Nat → Option α) → Option (List α)
  | 0, _ => some []
  | count + 1, f => do
      let out ← forCollect count f
      let x ← f count
      some (out ++ [x])

theorem forCollect_some {α : Type*} {f : Nat → Option α} {count : Nat} {out : List α}
    (h : forCollect count f = some out) (d : α) :
    out.length = count ∧ ∀ i, i < count → f i = some (out.getD i d) := by
  induction count generalizing out with
  | zero =>
    obtain rfl := Option.some.inj h
    exact ⟨rfl, fun i hi => absurd hi (Nat.not_lt_zero i)⟩
  | succ count ih =>
    simp only [forCollect, Option.bind_eq_bind, Option.bind_eq_some_iff,
      Option.some.injEq] at h
    obtain ⟨front, hfront, x, hx, rfl⟩ := h
    obtain ⟨hlength, hcells⟩ := ih hfront
    refine ⟨by simp [hlength], fun i hi => ?_⟩
    rcases Nat.lt_or_ge i count with hlt | hge
    · rw [hcells i hlt]
      simp [List.getD_eq_getElem?_getD, List.getElem?_append_left, hlength, hlt]
    · obtain rfl : i = count := by omega
      rw [hx]
      simp [List.getD_eq_getElem?_getD, ← hlength]

theorem forCollect_mono {α : Type*} {f g : Nat → Option α} {count : Nat} {out : List α}
    (hfg : ∀ i x, f i = some x → g i = some x) (h : forCollect count f = some out) :
    forCollect count g = some out := by
  induction count generalizing out with
  | zero => exact h
  | succ count ih =>
    simp only [forCollect, Option.bind_eq_bind, Option.bind_eq_some_iff] at h ⊢
    obtain ⟨front, hfront, x, hx, hout⟩ := h
    exact ⟨front, ih hfront, x, hfg _ _ hx, hout⟩

theorem mapM_of_forall {α β : Type*} {f : α → Option β} {g : α → β} {xs : List α}
    (h : ∀ x ∈ xs, f x = some (g x)) : xs.mapM f = some (xs.map g) := by
  induction xs with
  | nil => rfl
  | cons x xs ih =>
    rw [List.mapM_cons, h x List.mem_cons_self, ih fun y hy => h y (List.mem_cons_of_mem x hy)]
    rfl

theorem forCollect_of_forall {α : Type*} {f : Nat → Option α} {g : Nat → α}
    {count : Nat} (h : ∀ i, i < count → f i = some (g i)) :
    forCollect count f = some ((List.range count).map g) := by
  induction count with
  | zero => rfl
  | succ count ih =>
    rw [forCollect, ih fun i hi => h i (by omega), h count (by omega)]
    simp [List.range_succ]

end Stdx.Foundation
