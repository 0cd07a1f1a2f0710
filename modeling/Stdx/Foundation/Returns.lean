import Stdx.Foundation.Outcome

/-!
# What checked code returns

`Returns post code`: the code does not panic, and a value it returns has the property.
-/

namespace Stdx.Foundation.Outcome

variable {ε α β : Type} {post : α → Prop}

def Returns (post : α → Prop) : Outcome ε α → Prop
  | ok value => post value
  | err _ => True
  | panic => False

theorem Returns.ne_panic {code : Outcome ε α} (h : code.Returns post) : code ≠ panic := by
  rintro rfl
  exact h

theorem returns_of_ne_panic {code : Outcome ε α} (h : code ≠ panic) :
    code.Returns fun _ => True := by
  cases code with
  | ok value => trivial
  | err error => trivial
  | panic => exact h rfl

theorem Returns.bind {mid : β → Prop} {first : Outcome ε β} {next : β → Outcome ε α}
    (hfirst : first.Returns mid) (hnext : ∀ value, mid value → (next value).Returns post) :
    (first >>= next).Returns post := by
  cases first with
  | ok value => exact hnext value hfirst
  | err error => trivial
  | panic => exact hfirst

theorem Returns.ite {p : Prop} [Decidable p] {first second : Outcome ε α}
    (hfirst : p → first.Returns post) (hsecond : ¬p → second.Returns post) :
    (if p then first else second).Returns post := by
  split
  · next h => exact hfirst h
  · next h => exact hsecond h

end Stdx.Foundation.Outcome
