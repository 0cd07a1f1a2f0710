import Mathlib.Tactic

/-!
# Periods that follow each other

Period `k` starts at `start k` and ends where the next one starts, so every point is held
by at most one period, and points compare by their period first and by the distance from
its start second.
-/

namespace Stdx.Foundation

structure Timeline where
  start : Int → Int
  start_lt : ∀ k, start k < start (k + 1)

namespace Timeline

variable {t : Timeline} {j k x y : Int}

theorem strictMono (t : Timeline) : StrictMono t.start :=
  strictMono_int_of_lt_succ t.start_lt

def Holds (t : Timeline) (k x : Int) : Prop := t.start k ≤ x ∧ x < t.start (k + 1)

theorem Holds.le_of_le (hx : t.Holds j x) (hy : t.Holds k y) (hle : x ≤ y) : j ≤ k := by
  by_contra hlt
  have hstart : t.start (k + 1) ≤ t.start j := t.strictMono.monotone (by omega)
  have hlow := hx.1
  have hhigh := hy.2
  omega

theorem Holds.unique (hj : t.Holds j x) (hk : t.Holds k x) : j = k :=
  le_antisymm (hj.le_of_le hk le_rfl) (hk.le_of_le hj le_rfl)

theorem Holds.lt_of_lt (hx : t.Holds j x) (hy : t.Holds k y) (hlt : j < k) : x < y := by
  by_contra hle
  have hback := hy.le_of_le hx (by omega)
  omega

theorem Holds.lt_iff (hx : t.Holds j x) (hy : t.Holds k y) :
    x < y ↔ j < k ∨ j = k ∧ x - t.start j < y - t.start k := by
  constructor
  · intro hlt
    have hle := hx.le_of_le hy hlt.le
    rcases hle.lt_or_eq with hperiod | hperiod
    · exact Or.inl hperiod
    · subst hperiod
      exact Or.inr ⟨rfl, by omega⟩
  · rintro (hperiod | ⟨hperiod, hdistance⟩)
    · exact hx.lt_of_lt hy hperiod
    · subst hperiod
      omega

end Timeline

end Stdx.Foundation
