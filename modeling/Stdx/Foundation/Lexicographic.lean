import Mathlib.Tactic

/-!
# The order of sequences by their first difference

A loop over the pairs of two sequences that stops at the first difference and compares the
lengths when there is none is the lexicographic comparison.
-/

namespace Stdx.Foundation

variable {α β : Type}

/-- One sequence comes before another: it ends first, or it is smaller where they first
differ. -/
inductive Lexicographic (lt : α → α → Prop) : List α → List α → Prop
  | shorter (common : List α) (b : α) (ys : List α) :
      Lexicographic lt common (common ++ b :: ys)
  | difference (common : List α) {a b : α} (xs ys : List α) : lt a b →
      Lexicographic lt (common ++ a :: xs) (common ++ b :: ys)

namespace Lexicographic

variable {lt : α → α → Prop} {a b : α} {xs ys : List α}

theorem not_nil : ¬Lexicographic lt xs [] := by
  intro h
  generalize hys : ([] : List α) = ys at h
  cases h <;> simp at hys

theorem nil_cons : Lexicographic lt [] (b :: ys) := shorter [] b ys

theorem cons (h : Lexicographic lt xs ys) : Lexicographic lt (a :: xs) (a :: ys) := by
  cases h with
  | shorter _ b ys => exact shorter (a :: xs) b ys
  | difference common xs ys hlt => exact difference (a :: common) xs ys hlt

theorem cons_cons_iff :
    Lexicographic lt (a :: xs) (b :: ys) ↔ lt a b ∨ a = b ∧ Lexicographic lt xs ys := by
  constructor
  · intro h
    generalize hleft : a :: xs = left at h
    generalize hright : b :: ys = right at h
    cases h with
    | shorter common c rest =>
      subst hleft
      obtain ⟨rfl, rfl⟩ := List.cons.inj hright
      exact Or.inr ⟨rfl, shorter xs c rest⟩
    | difference common front back hlt =>
      cases common with
      | nil =>
        obtain ⟨rfl, rfl⟩ := List.cons.inj hleft
        obtain ⟨rfl, rfl⟩ := List.cons.inj hright
        exact Or.inl hlt
      | cons c common =>
        obtain ⟨rfl, rfl⟩ := List.cons.inj hleft
        obtain ⟨rfl, rfl⟩ := List.cons.inj hright
        exact Or.inr ⟨rfl, difference common front back hlt⟩
  · rintro (hlt | ⟨rfl, h⟩)
    · exact difference [] xs ys hlt
    · exact h.cons

end Lexicographic

variable {cmp : α → α → Ordering}

/-- A comparison that finds the order `lt` of the images finds their lexicographic order. -/
theorem compareLex_eq_lt_iff {f : α → β} {lt : β → β → Prop} {xs ys : List α}
    (hlt : ∀ a ∈ xs, ∀ b ∈ ys, cmp a b = .lt ↔ lt (f a) (f b))
    (heq : ∀ a ∈ xs, ∀ b ∈ ys, cmp a b = .eq ↔ f a = f b) :
    xs.compareLex cmp ys = .lt ↔ Lexicographic lt (xs.map f) (ys.map f) := by
  induction xs generalizing ys with
  | nil =>
    cases ys with
    | nil => simpa [List.compareLex] using Lexicographic.not_nil
    | cons b ys => simpa [List.compareLex] using Lexicographic.nil_cons
  | cons a xs ih =>
    cases ys with
    | nil => simpa [List.compareLex] using Lexicographic.not_nil
    | cons b ys =>
      have hrest := @ih ys
        (fun x hx y hy => hlt x (List.mem_cons_of_mem a hx) y (List.mem_cons_of_mem b hy))
        (fun x hx y hy => heq x (List.mem_cons_of_mem a hx) y (List.mem_cons_of_mem b hy))
      rw [List.compareLex_cons_cons, List.map_cons, List.map_cons,
        Lexicographic.cons_cons_iff, ← hrest, ← hlt a (by simp) b (by simp),
        ← heq a (by simp) b (by simp)]
      cases cmp a b <;> simp

def comparePairs (cmp : α → α → Ordering) : List (α × α) → Ordering
  | [] => .eq
  | (a, b) :: rest =>
    match cmp a b with
    | .eq => comparePairs cmp rest
    | nonEq => nonEq

theorem comparePairs_then_length (xs ys : List α) :
    (match comparePairs cmp (xs.zip ys) with
      | .eq => compare xs.length ys.length
      | nonEq => nonEq) = xs.compareLex cmp ys := by
  induction xs generalizing ys with
  | nil => cases ys <;> rfl
  | cons a xs ih =>
    cases ys with
    | nil => rfl
    | cons b ys =>
      rw [List.compareLex_cons_cons, ← ih, List.zip_cons_cons, comparePairs]
      cases cmp a b with
      | eq =>
        have hlength : compare (a :: xs).length (b :: ys).length =
            compare xs.length ys.length := by
          simp [compare, compareOfLessAndEq]
        rw [hlength]
        rfl
      | lt => rfl
      | gt => rfl

end Stdx.Foundation
