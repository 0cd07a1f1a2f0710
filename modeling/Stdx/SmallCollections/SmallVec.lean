import Stdx.SmallCollections.Storage

/-!
# Small vectors

`SmallVec` of `small_collections/small_vec.rs`: up to `N` elements inline, more of them on
the heap.  `A` is the allocator and `clone` is `T::clone`.
-/

namespace Stdx.SmallCollections

open Stdx.Foundation

inductive SmallVec (α : Type) (N : Nat) where
  | inline (v : HeaplessVec α N)
  | heap (v : StdVec α)

namespace SmallVec

variable {α σ : Type} {N M : Nat} (A : Allocator)

def new : SmallVec α N := .inline HeaplessVec.new

def withCapacity (capacity : Nat) : SmallVec α N :=
  if capacity ≤ N then new else .heap (StdVec.withCapacity A capacity)

def items : SmallVec α N → List α
  | .inline v => v.items
  | .heap v => v.items

def len (v : SmallVec α N) : Nat := v.items.length

def isInline : SmallVec α N → Bool
  | .inline _ => true
  | .heap _ => false

def writeSlice (v : SmallVec α N) (items : List α) (h : items.length ≤ v.len) : SmallVec α N :=
  match v with
  | .inline v => .inline (v.replace items h)
  | .heap v => .heap (v.replace items h)

def spill (v : HeaplessVec α N) (capacity : Nat) : SmallVec α N :=
  .heap ((StdVec.withCapacity A capacity).extend A v.items)

def saturatingMul (m n : Nat) : Nat := min (m * n) A.usizeMax

def saturatingAdd (m n : Nat) : Nat := min (m + n) A.usizeMax

def push (v : SmallVec α N) (value : α) : Except Panic (SmallVec α N) :=
  let v := match v with
    | .inline h =>
      if h.items.length ≥ N then spill A h (max (saturatingMul A N 2) 1) else .inline h
    | .heap v => .heap v
  match v with
  | .inline h =>
    match h.push value with
    | some h => .ok (.inline h)
    | none => .error .unreachable
  | .heap v => .ok (.heap (v.push A value))

def pop (v : SmallVec α N) : Option α × SmallVec α N :=
  (v.items.getLast?, v.writeSlice v.items.dropLast (by simp [len]))

def reserve (v : SmallVec α N) (additional : Nat) : SmallVec α N :=
  match v with
  | .heap v => .heap (v.reserve A additional)
  | .inline h =>
    if additional > N - h.items.length then
      spill A h (max (saturatingMul A N 2) (saturatingAdd A h.items.length additional))
    else .inline h

def insert (v : SmallVec α N) (index : Nat) (value : α) : Except Panic (SmallVec α N) :=
  if index ≤ v.len then
    match v.reserve A 1 with
    | .inline h =>
      match h.insert index value with
      | some h => .ok (.inline h)
      | none => .error .unreachable
    | .heap v => do
        let v ← v.insert A index value
        .ok (.heap v)
  else .error .outOfBounds

def takeOut {β : Type} (v : SmallVec α N) (f : List α → Except Panic (β × List α))
    (hf : ∀ items b rest, f items = .ok (b, rest) → rest.length ≤ items.length) :
    Except Panic (β × SmallVec α N) :=
  match h : f v.items with
  | .ok (b, rest) => .ok (b, v.writeSlice rest (hf _ _ _ h))
  | .error panic => .error panic

def remove (v : SmallVec α N) (index : Nat) : Except Panic (α × SmallVec α N) :=
  if index < v.len then
    v.takeOut (removeAt · index) fun _ _ _ => removeAt_length
  else .error .outOfBounds

def swapRemove (v : SmallVec α N) (index : Nat) : Except Panic (α × SmallVec α N) :=
  if index < v.len then
    v.takeOut (swapRemoveAt · index) fun _ _ _ => swapRemoveAt_length
  else .error .outOfBounds

def truncate (v : SmallVec α N) (newLen : Nat) : SmallVec α N :=
  v.writeSlice (v.items.take newLen) (List.length_take_le' ..)

def retain (v : SmallVec α N) (f : σ → α → Bool × σ) (s : σ) : σ × SmallVec α N :=
  ((retainItems f s v.items).2,
    v.writeSlice (retainItems f s v.items).1 (retainItems_length f s v.items))

/-- `slice.swap(r, w)` -/
def swap (slice : List α) (r w : Nat) : Except Panic (List α) :=
  match slice[r]?, slice[w]? with
  | some a, some b => .ok ((slice.set r b).set w a)
  | _, _ => .error .outOfBounds

/-- `if r != w { slice.swap(r, w); }` -/
def swapIfMoved (slice : List α) (r w : Nat) : Except Panic (List α) :=
  if r ≠ w then swap slice r w else .ok slice

def dedupLoop (sameBucket : σ → α → α → Bool × σ × α × α) :
    Nat → σ → Nat → Nat → List α → Except Panic (List α × Nat × σ)
  | 0, s, _, w, slice => .ok (slice, w, s)
  | rounds + 1, s, r, w, slice =>
    match slice[r]?, slice[w - 1]? with
    | some current, some previous => do
        let (same, s, current, previous) := sameBucket s current previous
        let slice := (slice.set r current).set (w - 1) previous
        if same then dedupLoop sameBucket rounds s (r + 1) w slice
        else
          let slice ← swapIfMoved slice r w
          dedupLoop sameBucket rounds s (r + 1) (w + 1) slice
    | _, _ => .error .outOfBounds

theorem swap_length {slice slice' : List α} {r w : Nat} (h : swap slice r w = .ok slice') :
    slice'.length = slice.length := by
  unfold swap at h
  split at h
  · rw [← Except.ok.inj h]
    simp
  · cases h

theorem swapIfMoved_length {slice slice' : List α} {r w : Nat}
    (h : swapIfMoved slice r w = .ok slice') : slice'.length = slice.length := by
  unfold swapIfMoved at h
  split at h
  · exact swap_length h
  · rw [← Except.ok.inj h]

theorem dedupLoop_length {sameBucket : σ → α → α → Bool × σ × α × α} {rounds : Nat} {s s' : σ}
    {r w w' : Nat} {slice slice' : List α}
    (h : dedupLoop sameBucket rounds s r w slice = .ok (slice', w', s')) :
    slice'.length = slice.length := by
  induction rounds generalizing s r w slice with
  | zero => rw [← (Prod.mk.inj (Except.ok.inj h)).1]
  | succ rounds ih =>
    unfold dedupLoop at h
    split at h
    · simp only at h
      split at h
      · simpa using ih h
      · cases hswap : swapIfMoved _ r w with
        | error panic =>
          rw [hswap] at h
          cases h
        | ok swapped =>
          rw [hswap] at h
          simpa [swapIfMoved_length hswap] using ih h
    · cases h

def dedupBy (v : SmallVec α N) (sameBucket : σ → α → α → Bool × σ × α × α) (s : σ) :
    Except Panic (σ × SmallVec α N) :=
  if v.len ≤ 1 then .ok (s, v)
  else
    match h : dedupLoop sameBucket (v.len - 1) s 1 1 v.items with
    | .ok (slice, w, s) => .ok (s, (v.writeSlice slice (dedupLoop_length h).le).truncate w)
    | .error panic => .error panic

/-- `for item in iter { self.push(item) }` -/
def pushAll (v : SmallVec α N) : List α → Except Panic (SmallVec α N)
  | [] => .ok v
  | item :: items => do
      let v ← v.push A item
      pushAll v items

def extend (v : SmallVec α N) (items : List α) (lower : Nat) : Except Panic (SmallVec α N) :=
  (v.reserve A lower).pushAll A items

def fromIter (items : List α) (lower : Nat) : Except Panic (SmallVec α N) :=
  (withCapacity A lower).extend A items lower

def resize (clone : α → α) (v : SmallVec α N) (newLen : Nat) (value : α) :
    Except Panic (SmallVec α N) :=
  if newLen > v.len then
    v.extend A (repeatN clone value (newLen - v.len)) (newLen - v.len)
  else .ok (v.truncate newLen)

def extendFromSlice (clone : α → α) (v : SmallVec α N) (other : List α) :
    Except Panic (SmallVec α N) :=
  match v.reserve A other.length with
  | .inline h =>
    match h.extendFromSlice (other.map clone) with
    | some h => .ok (.inline h)
    | none => .error .unreachable
  | .heap v => .ok (.heap (v.extend A (other.map clone)))

def cloneLoop (clone : α → α) (start : Nat) :
    Nat → Nat → HeaplessVec α N → Except Panic (HeaplessVec α N)
  | 0, _, h => .ok h
  | rounds + 1, i, h =>
    match h.items[start + i]? with
    | none => .error .outOfBounds
    | some a =>
      match h.push (clone a) with
      | some h => cloneLoop clone start rounds (i + 1) h
      | none => .error .unreachable

def extendFromWithin (clone : α → α) (v : SmallVec α N) (source : Range) :
    Except Panic (SmallVec α N) := do
  let (start, stop) ← boundedRange source v.len
  let count := stop - start
  if count = 0 then .ok v
  else
    match v.reserve A count with
    | .heap v => .ok (.heap (v.extend A ((slice v.items start stop).map clone)))
    | .inline h => do
        let h ← cloneLoop clone start count 0 h
        .ok (.inline h)

def shrinkToFit (v : SmallVec α N) : Except Panic (SmallVec α N) :=
  match v with
  | .heap w =>
    if w.items.length ≤ N then do
      let h ← HeaplessVec.fromIter w.items
      .ok (.inline h)
    else .ok (.heap (w.shrinkToFit A))
  | .inline h => .ok (.inline h)

def shrinkTo (v : SmallVec α N) (minCapacity : Nat) : Except Panic (SmallVec α N) :=
  match v with
  | .heap w =>
    if w.capacity > minCapacity then
      let target := max w.items.length minCapacity
      if target ≤ N then do
        let h ← HeaplessVec.fromIter w.items
        .ok (.inline h)
      else .ok (.heap (w.shrinkTo A target))
    else .ok (.heap w)
  | .inline h => .ok (.inline h)

def drain (v : SmallVec α N) (range : Range) : Except Panic (List α × SmallVec α N) :=
  v.takeOut (drainRange · range) fun _ _ _ => drainRange_length

def append (v : SmallVec α N) (other : SmallVec α M) :
    Except Panic (SmallVec α N × SmallVec α M) := do
  let v := v.reserve A other.len
  let (drained, other) ← other.drain ⟨.unbounded, .unbounded⟩
  let v ← v.extend A drained drained.length
  .ok (v, other)

def splitOff (v : SmallVec α N) (at_ : Nat) : Except Panic (SmallVec α N × SmallVec α N) :=
  if at_ ≤ v.len then do
    let (drained, v) ← v.drain ⟨.included at_, .unbounded⟩
    let tail ← fromIter A drained drained.length
    .ok (tail, v)
  else .error .outOfBounds

end SmallVec

/-! ## Calls -/

inductive Op (α σ : Type) where
  | push (value : α)
  | pop
  | insert (index : Nat) (value : α)
  | remove (index : Nat)
  | swapRemove (index : Nat)
  | truncate (newLen : Nat)
  | retain (f : σ → α → Bool × σ) (s : σ)
  | dedupBy (sameBucket : σ → α → α → Bool × σ × α × α) (s : σ)
  | resize (newLen : Nat) (value : α)
  | extend (items : List α) (lower : Nat)
  | extendFromSlice (other : List α)
  | extendFromWithin (source : Range)
  | reserve (additional : Nat)
  | shrinkTo (minCapacity : Nat)
  | shrinkToFit
  | append (M : Nat) (other : SmallVec α M)
  | splitOff (at_ : Nat)
  | drain (range : Range)

/-- What a call gives back, over the vectors `V`: the state of a closure, a vector split
off, what is left in a vector that was appended. -/
inductive Reply (α σ V : Type) where
  | unit
  | popped (value : Option α)
  | element (value : α)
  | closure (s : σ)
  | drained (items : List α)
  | split (tail : V)
  | emptied (items : List α)
deriving DecidableEq

def Reply.map {α σ V W : Type} (f : V → W) : Reply α σ V → Reply α σ W
  | .unit => .unit
  | .popped value => .popped value
  | .element value => .element value
  | .closure s => .closure s
  | .drained items => .drained items
  | .split tail => .split (f tail)
  | .emptied items => .emptied items

variable {α σ : Type} {N : Nat}

def SmallVec.call (A : Allocator) (clone : α → α) (v : SmallVec α N) :
    Op α σ → Except Panic (Reply α σ (SmallVec α N) × SmallVec α N)
  | .push value => do .ok (.unit, ← v.push A value)
  | .pop => .ok (.popped v.pop.1, v.pop.2)
  | .insert index value => do .ok (.unit, ← v.insert A index value)
  | .remove index => do
      let (value, v) ← v.remove index
      .ok (.element value, v)
  | .swapRemove index => do
      let (value, v) ← v.swapRemove index
      .ok (.element value, v)
  | .truncate newLen => .ok (.unit, v.truncate newLen)
  | .retain f s => .ok (.closure (v.retain f s).1, (v.retain f s).2)
  | .dedupBy sameBucket s => do
      let (s, v) ← v.dedupBy sameBucket s
      .ok (.closure s, v)
  | .resize newLen value => do .ok (.unit, ← v.resize A clone newLen value)
  | .extend items lower => do .ok (.unit, ← v.extend A items lower)
  | .extendFromSlice other => do .ok (.unit, ← v.extendFromSlice A clone other)
  | .extendFromWithin source => do .ok (.unit, ← v.extendFromWithin A clone source)
  | .reserve additional => .ok (.unit, v.reserve A additional)
  | .shrinkTo minCapacity => do .ok (.unit, ← v.shrinkTo A minCapacity)
  | .shrinkToFit => do .ok (.unit, ← v.shrinkToFit A)
  | .append _ other => do
      let (v, other) ← v.append A other
      .ok (.emptied other.items, v)
  | .splitOff at_ => do
      let (tail, v) ← v.splitOff A at_
      .ok (.split tail, v)
  | .drain range => do
      let (drained, v) ← v.drain range
      .ok (.drained drained, v)

def vecCall (clone : α → α) (items : List α) :
    Op α σ → Except Panic (Reply α σ (List α) × List α)
  | .push value => .ok (.unit, items ++ [value])
  | .pop => .ok (.popped items.getLast?, items.dropLast)
  | .insert index value => do .ok (.unit, ← insertAt items index value)
  | .remove index => do
      let (value, items) ← removeAt items index
      .ok (.element value, items)
  | .swapRemove index => do
      let (value, items) ← swapRemoveAt items index
      .ok (.element value, items)
  | .truncate newLen => .ok (.unit, items.take newLen)
  | .retain f s => .ok (.closure (retainItems f s items).2, (retainItems f s items).1)
  | .dedupBy sameBucket s =>
    .ok (.closure (dedupItems sameBucket s items).2, (dedupItems sameBucket s items).1)
  | .resize newLen value =>
    .ok (.unit,
      if newLen > items.length then items ++ repeatN clone value (newLen - items.length)
      else items.take newLen)
  | .extend more _ => .ok (.unit, items ++ more)
  | .extendFromSlice other => .ok (.unit, items ++ other.map clone)
  | .extendFromWithin source => do
      let (start, stop) ← boundedRange source items.length
      .ok (.unit, items ++ (slice items start stop).map clone)
  | .reserve _ => .ok (.unit, items)
  | .shrinkTo _ => .ok (.unit, items)
  | .shrinkToFit => .ok (.unit, items)
  | .append _ other => .ok (.emptied [], items ++ other.items)
  | .splitOff at_ =>
    if at_ ≤ items.length then .ok (.split (items.drop at_), items.take at_)
    else .error .outOfBounds
  | .drain range => do
      let (drained, items) ← drainRange items range
      .ok (.drained drained, items)

end Stdx.SmallCollections
