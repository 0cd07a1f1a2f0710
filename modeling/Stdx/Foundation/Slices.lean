import Mathlib.Data.List.Basic

/-!
# Slices and searches

`xs[i..j]` of a list, and what the first position that satisfies a predicate splits
it into.
-/

namespace Stdx.Foundation

variable {α : Type*}

/-- `xs[i..j]` -/
def slice (xs : List α) (i j : Nat) : List α := (xs.drop i).take (j - i)

@[simp] theorem slice_self (xs : List α) (i : Nat) : slice xs i i = [] := by
  simp [slice]

theorem slice_length (xs : List α) (i : Nat) : slice xs i xs.length = xs.drop i := by
  rw [slice, ← List.length_drop, List.take_length]

theorem slice_append {xs ys : List α} {i j : Nat} (h : j ≤ xs.length) :
    slice (xs ++ ys) i j = slice xs i j := by
  rcases Nat.lt_or_ge j i with hji | hij
  · simp [slice, Nat.sub_eq_zero_of_le (Nat.le_of_lt hji)]
  · rw [slice, slice, List.drop_append_of_le_length (by omega),
      List.take_append_of_le_length (by rw [List.length_drop]; omega)]

theorem slice_extend {xs seg rest : List α} {i j : Nat} (hij : i ≤ j)
    (h : xs.drop j = seg ++ rest) : slice xs i (j + seg.length) = slice xs i j ++ seg := by
  have hdrop : (xs.drop i).drop (j - i) = seg ++ rest := by
    rw [List.drop_drop, Nat.add_sub_cancel' hij, h]
  have hlen : j + seg.length - i = (j - i) + seg.length := by omega
  rw [slice, slice, hlen, List.take_add, hdrop, List.take_left]

theorem findIdx_split {p : α → Bool} {xs : List α} (h : xs.findIdx p < xs.length) :
    ∃ seg hit rest, xs = seg ++ hit :: rest ∧ xs.findIdx p = seg.length ∧
      (∀ x ∈ seg, p x = false) ∧ p hit = true := by
  refine ⟨xs.take (xs.findIdx p), xs[xs.findIdx p], xs.drop (xs.findIdx p + 1), ?_, ?_, ?_,
    List.findIdx_getElem⟩
  · rw [List.getElem_cons_drop, List.take_append_drop]
  · rw [List.length_take, Nat.min_eq_left (Nat.le_of_lt h)]
  · intro x hx
    obtain ⟨i, hi, rfl⟩ := List.mem_iff_getElem.mp hx
    rw [List.getElem_take]
    rw [List.length_take] at hi
    exact List.not_of_lt_findIdx (by omega)

theorem findIdx_miss {p : α → Bool} {xs : List α} (h : ¬xs.findIdx p < xs.length) :
    ∀ x ∈ xs, p x = false := by
  intro x hx
  by_contra hp
  exact h (List.findIdx_lt_length_of_exists ⟨x, hx, by simpa using hp⟩)

end Stdx.Foundation
