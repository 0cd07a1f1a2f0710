import Mathlib.Tactic
import Stdx.Foundation.Slices

/-!
# Vectors of the standard library and of fixed capacity

The documented behaviour of `alloc::vec::Vec` and of `heapless::Vec`, first on their
contents alone.  How much memory an allocator gives beyond what is asked for is left
open; a closure is a function on its state.
-/

namespace Stdx.SmallCollections

open Stdx.Foundation

inductive Panic where
  | outOfBounds
  | unreachable
  | overCapacity
deriving DecidableEq, Repr

inductive Bound where
  | included (n : Nat)
  | excluded (n : Nat)
  | unbounded
deriving DecidableEq, Repr

/-- A `RangeBounds<usize>`. -/
structure Range where
  startBound : Bound
  endBound : Bound
deriving DecidableEq, Repr

def Range.start (range : Range) : Nat :=
  match range.startBound with
  | .included n => n
  | .excluded n => n + 1
  | .unbounded => 0

def Range.stop (range : Range) (len : Nat) : Nat :=
  match range.endBound with
  | .included n => n + 1
  | .excluded n => n
  | .unbounded => len

def boundedRange (range : Range) (len : Nat) : Except Panic (Nat × Nat) :=
  if range.start ≤ range.stop len ∧ range.stop len ≤ len then .ok (range.start, range.stop len)
  else .error .outOfBounds

theorem boundedRange_ok {range : Range} {len start stop : Nat}
    (h : boundedRange range len = .ok (start, stop)) : start ≤ stop ∧ stop ≤ len := by
  rw [boundedRange] at h
  split at h
  · next hbounds =>
    obtain ⟨rfl, rfl⟩ := Prod.mk.inj (Except.ok.inj h)
    exact hbounds
  · cases h

/-! ## Contents -/

section Contents

variable {α σ : Type}

def insertAt (items : List α) (index : Nat) (value : α) : Except Panic (List α) :=
  if index ≤ items.length then .ok (items.insertIdx index value) else .error .outOfBounds

def removeAt (items : List α) (index : Nat) : Except Panic (α × List α) :=
  match items[index]? with
  | some a => .ok (a, items.eraseIdx index)
  | none => .error .outOfBounds

def swapRemoveAt (items : List α) (index : Nat) : Except Panic (α × List α) :=
  match items[index]?, items.getLast? with
  | some a, some last => .ok (a, (items.set index last).dropLast)
  | _, _ => .error .outOfBounds

def drainRange (items : List α) (range : Range) : Except Panic (List α × List α) := do
  let (start, stop) ← boundedRange range items.length
  .ok (slice items start stop, items.take start ++ items.drop stop)

def retainItems (f : σ → α → Bool × σ) : σ → List α → List α × σ
  | s, [] => ([], s)
  | s, a :: items =>
    let (keep, s) := f s a
    let (rest, s) := retainItems f s items
    (if keep then a :: rest else rest, s)

def dedupFrom (sameBucket : σ → α → α → Bool × σ × α × α) : σ → α → List α → List α × σ
  | s, previous, [] => ([previous], s)
  | s, previous, current :: items =>
    let (same, s, current, previous) := sameBucket s current previous
    if same then dedupFrom sameBucket s previous items
    else
      let (rest, s) := dedupFrom sameBucket s current items
      (previous :: rest, s)

def dedupItems (sameBucket : σ → α → α → Bool × σ × α × α) (s : σ) : List α → List α × σ
  | [] => ([], s)
  | first :: items => dedupFrom sameBucket s first items

def repeatN (clone : α → α) (value : α) : Nat → List α
  | 0 => []
  | count + 1 => List.replicate count (clone value) ++ [value]

theorem removeAt_length {items rest : List α} {index : Nat} {a : α}
    (h : removeAt items index = .ok (a, rest)) : rest.length ≤ items.length := by
  unfold removeAt at h
  split at h
  · rw [← (Prod.mk.inj (Except.ok.inj h)).2]
    exact List.length_eraseIdx_le items index
  · cases h

theorem swapRemoveAt_length {items rest : List α} {index : Nat} {a : α}
    (h : swapRemoveAt items index = .ok (a, rest)) : rest.length ≤ items.length := by
  unfold swapRemoveAt at h
  split at h
  · rw [← (Prod.mk.inj (Except.ok.inj h)).2]
    simp
  · cases h

theorem drainRange_length {items removed rest : List α} {range : Range}
    (h : drainRange items range = .ok (removed, rest)) : rest.length ≤ items.length := by
  unfold drainRange at h
  cases hbounds : boundedRange range items.length with
  | error panic =>
    rw [hbounds] at h
    cases h
  | ok bounds =>
    obtain ⟨start, stop⟩ := bounds
    rw [hbounds] at h
    obtain ⟨hle, hstop⟩ := boundedRange_ok hbounds
    rw [← (Prod.mk.inj (Except.ok.inj h)).2, List.length_append, List.length_take,
      List.length_drop]
    omega

theorem retainItems_length (f : σ → α → Bool × σ) (s : σ) (items : List α) :
    (retainItems f s items).1.length ≤ items.length := by
  induction items generalizing s with
  | nil => exact le_rfl
  | cons a items ih =>
    rw [retainItems]
    have := ih (f s a).2
    simp only
    split
    · simpa using this
    · exact this.trans (Nat.le_succ _)

end Contents

/-! ## `alloc::vec::Vec` -/

/-- What a target and its allocator decide: capacities are at least what is asked for. -/
structure Allocator where
  usizeMax : Nat
  granted : Nat → Nat
  le_granted : ∀ capacity, capacity ≤ granted capacity
  grown : Nat → Nat → Nat
  le_grown : ∀ capacity needed, needed ≤ grown capacity needed
  shrunk : Nat → Nat → Nat
  le_shrunk : ∀ capacity target, target ≤ capacity → target ≤ shrunk capacity target

structure StdVec (α : Type) where
  items : List α
  capacity : Nat
  length_le : items.length ≤ capacity

namespace StdVec

variable {α : Type} (A : Allocator)

def withCapacity (capacity : Nat) : StdVec α := ⟨[], A.granted capacity, Nat.zero_le _⟩

def replace (v : StdVec α) (items : List α) (h : items.length ≤ v.items.length) : StdVec α :=
  ⟨items, v.capacity, h.trans v.length_le⟩

def reserve (v : StdVec α) (additional : Nat) : StdVec α :=
  if v.items.length + additional ≤ v.capacity then v
  else
    ⟨v.items, A.grown v.capacity (v.items.length + additional),
      (Nat.le_add_right _ _).trans (A.le_grown _ _)⟩

theorem reserve_fits (v : StdVec α) (additional : Nat) :
    (v.reserve A additional).items.length + additional ≤ (v.reserve A additional).capacity := by
  unfold reserve
  split
  · next h => exact h
  · exact A.le_grown _ _

def extend (v : StdVec α) (items : List α) : StdVec α where
  items := (v.reserve A items.length).items ++ items
  capacity := (v.reserve A items.length).capacity
  length_le := by
    rw [List.length_append]
    exact v.reserve_fits A items.length

def push (v : StdVec α) (value : α) : StdVec α := v.extend A [value]

def insert (v : StdVec α) (index : Nat) (value : α) : Except Panic (StdVec α) :=
  if index ≤ v.items.length then
    .ok
      { items := (v.reserve A 1).items.insertIdx index value
        capacity := (v.reserve A 1).capacity
        length_le := List.length_insertIdx_le_succ.trans (v.reserve_fits A 1) }
  else .error .outOfBounds

def shrinkTo (v : StdVec α) (minCapacity : Nat) : StdVec α :=
  if h : max v.items.length minCapacity ≤ v.capacity then
    ⟨v.items, A.shrunk v.capacity (max v.items.length minCapacity),
      (Nat.le_max_left _ _).trans (A.le_shrunk _ _ h)⟩
  else v

def shrinkToFit (v : StdVec α) : StdVec α := v.shrinkTo A 0

@[simp] theorem reserve_items (v : StdVec α) (additional : Nat) :
    (v.reserve A additional).items = v.items := by
  unfold reserve
  split <;> rfl

@[simp] theorem extend_items (v : StdVec α) (items : List α) :
    (v.extend A items).items = v.items ++ items :=
  congrArg (· ++ items) (reserve_items A v items.length)

@[simp] theorem push_items (v : StdVec α) (value : α) :
    (v.push A value).items = v.items ++ [value] := extend_items A v [value]

@[simp] theorem shrinkTo_items (v : StdVec α) (minCapacity : Nat) :
    (v.shrinkTo A minCapacity).items = v.items := by
  unfold shrinkTo
  split <;> rfl

@[simp] theorem shrinkToFit_items (v : StdVec α) : (v.shrinkToFit A).items = v.items :=
  shrinkTo_items A v 0

end StdVec

/-! ## `heapless::Vec` -/

/-- A vector that never holds more than `N` elements. -/
structure HeaplessVec (α : Type) (N : Nat) where
  items : List α
  length_le : items.length ≤ N

namespace HeaplessVec

variable {α : Type} {N : Nat}

def new : HeaplessVec α N := ⟨[], Nat.zero_le _⟩

def replace (v : HeaplessVec α N) (items : List α) (h : items.length ≤ v.items.length) :
    HeaplessVec α N :=
  ⟨items, h.trans v.length_le⟩

def extendFromSlice (v : HeaplessVec α N) (items : List α) : Option (HeaplessVec α N) :=
  if h : (v.items ++ items).length ≤ N then some ⟨v.items ++ items, h⟩ else none

def push (v : HeaplessVec α N) (value : α) : Option (HeaplessVec α N) :=
  v.extendFromSlice [value]

def insert (v : HeaplessVec α N) (index : Nat) (value : α) : Option (HeaplessVec α N) :=
  if h : (v.items.insertIdx index value).length ≤ N then some ⟨_, h⟩ else none

def fromIter (items : List α) : Except Panic (HeaplessVec α N) :=
  if h : items.length ≤ N then .ok ⟨items, h⟩ else .error .overCapacity

end HeaplessVec

end Stdx.SmallCollections
