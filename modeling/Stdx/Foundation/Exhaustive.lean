import Mathlib.Data.List.GetD
import Mathlib.Data.Nat.Digits.Defs

/-!
# Tables checked entry by entry

A bounded statement about numbers as one evaluation, from the bound down.
-/

namespace Stdx.Foundation

def checkBelow (f : Nat → Bool) : Nat → Bool
  | 0 => true
  | n + 1 => f n && checkBelow f n

theorem forall_of_checkBelow {f : Nat → Bool} {n : Nat} (h : checkBelow f n = true) :
    ∀ x < n, f x = true := by
  induction n with
  | zero => exact fun x hx => absurd hx (Nat.not_lt_zero x)
  | succ n ih =>
    obtain ⟨hlast, hrest⟩ := (Bool.and_eq_true _ _).mp h
    intro x hx
    rcases Nat.lt_succ_iff_lt_or_eq.mp hx with hlt | rfl
    · exact ih hrest x hlt
    · exact hlast

theorem forall_lt_of_check {p : Nat → Prop} [DecidablePred p] {n : Nat}
    (h : checkBelow (fun x => decide (p x)) n = true) : ∀ x < n, p x :=
  fun x hx => of_decide_eq_true (forall_of_checkBelow h x hx)

theorem ofDigits_lookup {b : Nat} {table : List Nat} (h : ∀ x ∈ table, x < b) (hb : 0 < b)
    (i : Nat) : Nat.ofDigits b table / b ^ i % b = table.getD i 0 := by
  rw [Nat.ofDigits_div_pow_eq_ofDigits_drop i hb table h]
  rcases Nat.lt_or_ge i table.length with hi | hi
  · rw [List.drop_eq_getElem_cons hi, Nat.ofDigits_cons, Nat.add_mul_mod_self_left,
      Nat.mod_eq_of_lt (h _ (List.getElem_mem hi)), List.getD_eq_getElem _ _ hi]
  · rw [List.drop_of_length_le hi, List.getD_eq_default _ _ hi]
    exact Nat.zero_mod b

end Stdx.Foundation
