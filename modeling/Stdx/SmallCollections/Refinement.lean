import Stdx.Foundation.Outcome
import Stdx.SmallCollections.SmallVec

/-!
# Small vectors refine vectors

Each call on a `SmallVec` gives what the call on a `Vec` with the same contents gives, and
leaves the contents that it leaves.
-/

namespace Stdx.SmallCollections

open Stdx.Foundation

variable {α σ : Type} {N M : Nat} (A : Allocator)

namespace SmallVec

/-- `w` holds `items`, and is on the heap if `v` was. -/
structure Becomes (v : SmallVec α N) (items : List α) (w : SmallVec α N) : Prop where
  items_eq : w.items = items
  stays : v.isInline = false → w.isInline = false

/-- A call that takes elements out, beside the same call on the contents. -/
def Refines {β : Type} (v : SmallVec α N) (expected : Except Panic (β × List α))
    (result : Except Panic (β × SmallVec α N)) : Prop :=
  match expected with
  | .ok (b, rest) => ∃ w, result = .ok (b, w) ∧ v.Becomes rest w
  | .error panic => result = .error panic

@[simp] theorem items_writeSlice (v : SmallVec α N) (items : List α) (h : items.length ≤ v.len) :
    (v.writeSlice items h).items = items := by
  cases v <;> rfl

@[simp] theorem isInline_writeSlice (v : SmallVec α N) (items : List α)
    (h : items.length ≤ v.len) : (v.writeSlice items h).isInline = v.isInline := by
  cases v <;> rfl

theorem becomes_writeSlice (v : SmallVec α N) (items : List α) (h : items.length ≤ v.len) :
    v.Becomes items (v.writeSlice items h) :=
  ⟨items_writeSlice v items h, fun hheap => (isInline_writeSlice v items h).trans hheap⟩

theorem becomes_truncate (v : SmallVec α N) (newLen : Nat) :
    v.Becomes (v.items.take newLen) (v.truncate newLen) :=
  becomes_writeSlice v _ _

theorem Becomes.trans {v₁ v₂ v₃ : SmallVec α N} {items items' : List α}
    (h : v₁.Becomes items v₂) (h' : v₂.Becomes items' v₃) : v₁.Becomes items' v₃ :=
  ⟨h'.items_eq, fun hheap => h'.stays (h.stays hheap)⟩

@[simp] theorem spill_items (v : HeaplessVec α N) (capacity : Nat) :
    (spill A v capacity).items = v.items :=
  StdVec.extend_items A (StdVec.withCapacity A capacity) v.items

/-! ## Growing -/

theorem becomes_reserve (v : SmallVec α N) (additional : Nat) :
    v.Becomes v.items (v.reserve A additional) := by
  cases v with
  | heap w => exact ⟨StdVec.reserve_items A w additional, id⟩
  | inline h =>
    rw [reserve]
    split
    · exact ⟨spill_items A h _, nofun⟩
    · exact ⟨rfl, nofun⟩

theorem reserve_inline {v : SmallVec α N} {additional : Nat} {h : HeaplessVec α N}
    (hreserve : v.reserve A additional = .inline h) :
    h.items = v.items ∧ h.items.length + additional ≤ N := by
  cases v with
  | heap w => cases hreserve
  | inline h' =>
    rw [reserve] at hreserve
    split at hreserve
    · cases hreserve
    · obtain rfl := SmallVec.inline.inj hreserve
      have := h'.length_le
      exact ⟨rfl, by omega⟩

theorem reserve_heap {v : SmallVec α N} {additional : Nat} {w : StdVec α}
    (hreserve : v.reserve A additional = .heap w) : w.items = v.items := by
  have := (becomes_reserve A v additional).items_eq
  rwa [hreserve] at this

theorem heapless_extend (h : HeaplessVec α N) (items : List α)
    (hroom : h.items.length + items.length ≤ N) :
    ∃ h', h.extendFromSlice items = some h' ∧ h'.items = h.items ++ items := by
  have hlen : (h.items ++ items).length ≤ N := by rwa [List.length_append]
  exact ⟨⟨h.items ++ items, hlen⟩, dif_pos hlen, rfl⟩

theorem push_spec (v : SmallVec α N) (value : α) :
    ∃ w, v.push A value = .ok w ∧ v.Becomes (v.items ++ [value]) w := by
  cases v with
  | heap w => exact ⟨.heap (w.push A value), rfl, StdVec.push_items A w value, id⟩
  | inline h =>
    by_cases hfull : h.items.length ≥ N
    · refine ⟨.heap (((StdVec.withCapacity A (max (saturatingMul A N 2) 1)).extend A
        h.items).push A value), ?_, ?_, nofun⟩
      · rw [push]
        simp only [if_pos hfull]
        rfl
      · exact (StdVec.push_items A _ value).trans
          (congrArg (· ++ [value]) (spill_items A h _))
    · obtain ⟨h', hpush, hitems⟩ := heapless_extend h ([value])
        (by rw [List.length_singleton]; omega)
      refine ⟨.inline h', ?_, hitems, nofun⟩
      rw [push]
      simp only [if_neg hfull, HeaplessVec.push, hpush]

theorem pushAll_spec (v : SmallVec α N) (items : List α) :
    ∃ w, v.pushAll A items = .ok w ∧ v.Becomes (v.items ++ items) w := by
  induction items generalizing v with
  | nil => exact ⟨v, rfl, (List.append_nil _).symm, id⟩
  | cons item items ih =>
    obtain ⟨w, hpush, hw⟩ := push_spec A v item
    obtain ⟨w', hpushAll, hw'⟩ := ih w
    refine ⟨w', except_bind_eq_ok.mpr ⟨w, hpush, hpushAll⟩, ?_⟩
    rw [hw.items_eq, List.append_assoc] at hw'
    exact hw.trans hw'

theorem extend_spec (v : SmallVec α N) (items : List α) (lower : Nat) :
    ∃ w, v.extend A items lower = .ok w ∧ v.Becomes (v.items ++ items) w := by
  have hreserve := becomes_reserve A v lower
  obtain ⟨w, hpushAll, hw⟩ := pushAll_spec A (v.reserve A lower) items
  rw [hreserve.items_eq] at hw
  exact ⟨w, hpushAll, hreserve.trans hw⟩

theorem insert_spec (v : SmallVec α N) (index : Nat) (value : α) :
    match insertAt v.items index value with
    | .ok items => ∃ w, v.insert A index value = .ok w ∧ v.Becomes items w
    | .error panic => v.insert A index value = .error panic := by
  rw [insertAt, insert]
  by_cases hindex : index ≤ v.items.length
  · rw [if_pos hindex, if_pos (show index ≤ v.len from hindex)]
    have hreserve := becomes_reserve A v 1
    cases h : v.reserve A 1 with
    | inline h' =>
      obtain ⟨hitems, hroom⟩ := reserve_inline A h
      have hlen : (h'.items.insertIdx index value).length ≤ N :=
        List.length_insertIdx_le_succ.trans hroom
      refine ⟨.inline ⟨_, hlen⟩, ?_, by simp only [items, hitems], fun hheap => ?_⟩
      · simp only [HeaplessVec.insert, dif_pos hlen]
      · have := hreserve.stays hheap
        rw [h] at this
        cases this
    | heap w =>
      have hitems := reserve_heap A h
      refine ⟨.heap
        { items := (w.reserve A 1).items.insertIdx index value
          capacity := (w.reserve A 1).capacity
          length_le := List.length_insertIdx_le_succ.trans (w.reserve_fits A 1) }, ?_, ?_,
        fun _ => rfl⟩
      · simp only [StdVec.insert, hitems, if_pos hindex]
        rfl
      · simp only [items, StdVec.reserve_items, hitems]
  · rw [if_neg hindex, if_neg (show ¬ index ≤ v.len from hindex)]

theorem extendFromSlice_spec (clone : α → α) (v : SmallVec α N) (other : List α) :
    ∃ w, v.extendFromSlice A clone other = .ok w ∧
      v.Becomes (v.items ++ other.map clone) w := by
  have hreserve := becomes_reserve A v other.length
  rw [extendFromSlice]
  cases h : v.reserve A other.length with
  | inline h' =>
    obtain ⟨hitems, hroom⟩ := reserve_inline A h
    obtain ⟨h'', hextend, hitems'⟩ := heapless_extend h' (other.map clone)
      (by rwa [List.length_map])
    refine ⟨.inline h'', by simp only [hextend], hitems'.trans (by rw [hitems]), fun hheap => ?_⟩
    have := hreserve.stays hheap
    rw [h] at this
    cases this
  | heap w =>
    refine ⟨_, rfl, ?_, fun _ => rfl⟩
    exact (StdVec.extend_items A w _).trans (by rw [reserve_heap A h])

theorem resize_spec (clone : α → α) (v : SmallVec α N) (newLen : Nat) (value : α) :
    ∃ w, v.resize A clone newLen value = .ok w ∧ v.Becomes
      (if newLen > v.items.length then
        v.items ++ repeatN clone value (newLen - v.items.length)
      else v.items.take newLen) w := by
  rw [resize]
  by_cases hgrow : newLen > v.items.length
  · rw [if_pos hgrow, if_pos (show newLen > v.len from hgrow)]
    exact extend_spec A v _ _
  · rw [if_neg hgrow, if_neg (show ¬ newLen > v.len from hgrow)]
    exact ⟨_, rfl, becomes_truncate v newLen⟩

theorem cloneLoop_spec (clone : α → α) (start : Nat) (rounds i : Nat) (h : HeaplessVec α N)
    (hroom : h.items.length + rounds ≤ N) (hbound : start + i + rounds ≤ h.items.length) :
    ∃ h', cloneLoop clone start rounds i h = .ok h' ∧
      h'.items = h.items ++ ((h.items.drop (start + i)).take rounds).map clone := by
  induction rounds generalizing i h with
  | zero => exact ⟨h, rfl, by simp⟩
  | succ rounds ih =>
    have hlt : start + i < h.items.length := by omega
    obtain ⟨h', hpush, hitems⟩ := heapless_extend h ([clone h.items[start + i]])
      (by rw [List.length_singleton]; omega)
    have hlen : h'.items.length = h.items.length + 1 := by
      rw [hitems, List.length_append, List.length_singleton]
    obtain ⟨h'', hloop, hitems'⟩ := ih (i + 1) h' (by omega) (by omega)
    refine ⟨h'', ?_, ?_⟩
    · rw [cloneLoop, List.getElem?_eq_getElem hlt]
      simp only [HeaplessVec.push, hpush]
      exact hloop
    · have hdrop : (h'.items.drop (start + (i + 1))).take rounds =
          (h.items.drop (start + i + 1)).take rounds := by
        rw [hitems, ← Nat.add_assoc, List.drop_append_of_le_length (by omega),
          List.take_append_of_le_length (by rw [List.length_drop]; omega)]
      rw [hitems', hdrop, hitems, List.drop_eq_getElem_cons hlt, List.take_succ_cons,
        List.map_cons, List.append_assoc, List.singleton_append]

theorem extendFromWithin_spec (clone : α → α) (v : SmallVec α N) (source : Range) :
    match boundedRange source v.items.length with
    | .ok (start, stop) => ∃ w, v.extendFromWithin A clone source = .ok w ∧
        v.Becomes (v.items ++ (slice v.items start stop).map clone) w
    | .error panic => v.extendFromWithin A clone source = .error panic := by
  rw [extendFromWithin, show v.len = v.items.length from rfl]
  cases hbounds : boundedRange source v.items.length with
  | error panic => rfl
  | ok bounds =>
    obtain ⟨start, stop⟩ := bounds
    obtain ⟨hle, hstop⟩ := boundedRange_ok hbounds
    simp only [except_bind_eq_ok]
    by_cases hcount : stop - start = 0
    · refine ⟨v, ⟨_, rfl, if_pos hcount⟩, ?_, id⟩
      rw [slice, hcount, List.take_zero, List.map_nil, List.append_nil]
    · have hreserve := becomes_reserve A v (stop - start)
      cases h : v.reserve A (stop - start) with
      | heap w =>
        have hitems := reserve_heap A h
        refine ⟨_, ⟨_, rfl, by simp only [if_neg hcount, h]; rfl⟩, ?_, fun _ => rfl⟩
        exact (StdVec.extend_items A w _).trans (by rw [hitems])
      | inline h' =>
        obtain ⟨hitems, hroom⟩ := reserve_inline A h
        obtain ⟨h'', hloop, hitems'⟩ := cloneLoop_spec clone start (stop - start) 0 h' hroom
          (by rw [hitems]; omega)
        refine ⟨.inline h'', ⟨_, rfl, ?_⟩, ?_, fun hheap => ?_⟩
        · simp only [if_neg hcount, h, hloop]
          rfl
        · rw [show (SmallVec.inline h'').items = h''.items from rfl, hitems', hitems]
          rfl
        · have := hreserve.stays hheap
          rw [h] at this
          cases this

/-! ## Taking elements out -/

section TakeOut

variable {β : Type} (v : SmallVec α N) (f : List α → Except Panic (β × List α))
  (hf : ∀ items b rest, f items = .ok (b, rest) → rest.length ≤ items.length)

theorem takeOut_ok {b : β} {rest : List α} (h : f v.items = .ok (b, rest)) :
    v.takeOut f hf = .ok (b, v.writeSlice rest (hf _ _ _ h)) := by
  unfold takeOut
  split
  · next h' =>
    rw [h] at h'
    obtain ⟨rfl, rfl⟩ := Prod.mk.inj (Except.ok.inj h')
    rfl
  · next h' =>
    rw [h] at h'
    cases h'

theorem takeOut_error {panic : Panic} (h : f v.items = .error panic) :
    v.takeOut f hf = .error panic := by
  unfold takeOut
  split
  · next h' =>
    rw [h] at h'
    cases h'
  · next h' =>
    rw [h] at h'
    rw [Except.error.inj h']

theorem takeOut_spec : v.Refines (f v.items) (v.takeOut f hf) := by
  cases h : f v.items with
  | error panic => exact takeOut_error v f hf h
  | ok out => exact ⟨_, takeOut_ok v f hf h, becomes_writeSlice v out.2 _⟩

end TakeOut

theorem removeAt_outOfBounds {items : List α} {index : Nat} (h : ¬ index < items.length) :
    removeAt items index = .error .outOfBounds := by
  rw [removeAt, List.getElem?_eq_none (by omega)]

theorem swapRemoveAt_outOfBounds {items : List α} {index : Nat} (h : ¬ index < items.length) :
    swapRemoveAt items index = .error .outOfBounds := by
  rw [swapRemoveAt, List.getElem?_eq_none (by omega)]

theorem remove_spec (v : SmallVec α N) (index : Nat) :
    v.Refines (removeAt v.items index) (v.remove index) := by
  rw [remove]
  by_cases hindex : index < v.items.length
  · rw [if_pos (show index < v.len from hindex)]
    exact takeOut_spec v (removeAt · index) fun _ _ _ => removeAt_length
  · rw [if_neg (show ¬ index < v.len from hindex), removeAt_outOfBounds hindex]
    exact rfl

theorem swapRemove_spec (v : SmallVec α N) (index : Nat) :
    v.Refines (swapRemoveAt v.items index) (v.swapRemove index) := by
  rw [swapRemove]
  by_cases hindex : index < v.items.length
  · rw [if_pos (show index < v.len from hindex)]
    exact takeOut_spec v (swapRemoveAt · index) fun _ _ _ => swapRemoveAt_length
  · rw [if_neg (show ¬ index < v.len from hindex), swapRemoveAt_outOfBounds hindex]
    exact rfl

theorem drain_spec (v : SmallVec α N) (range : Range) :
    v.Refines (drainRange v.items range) (v.drain range) :=
  takeOut_spec v (drainRange · range) fun _ _ _ => drainRange_length

/-! ## Duplicates -/

theorem getElem?_middle (front rest : List α) (a : α) {i : Nat} (h : i = front.length) :
    (front ++ a :: rest)[i]? = some a := by
  rw [h, List.getElem?_append_right le_rfl]
  simp

theorem set_middle (front rest : List α) (a b : α) {i : Nat} (h : i = front.length) :
    (front ++ a :: rest).set i b = front ++ b :: rest := by
  rw [h, List.set_append_right _ _ le_rfl]
  simp

theorem swap_kept (kept garbage rest : List α) (current : α) :
    ∃ garbage', garbage'.length = garbage.length ∧
      swapIfMoved (kept ++ garbage ++ current :: rest) (kept.length + garbage.length)
        kept.length = .ok (kept ++ [current] ++ garbage' ++ rest) := by
  rw [swapIfMoved]
  cases garbage with
  | nil => exact ⟨[], rfl, by simp⟩
  | cons g garbage =>
    refine ⟨garbage ++ [g], by simp, ?_⟩
    have hr : kept.length + (g :: garbage).length = (kept ++ g :: garbage).length := by simp
    have hfirst : (kept ++ g :: garbage ++ current :: rest)[kept.length]? = some g := by
      rw [List.append_assoc, List.cons_append]
      exact getElem?_middle kept _ g rfl
    rw [if_pos (by simp), swap, getElem?_middle _ rest current hr, hfirst]
    simp only
    rw [set_middle _ rest current g hr, List.append_assoc, List.cons_append,
      set_middle kept _ g current rfl]
    simp

/-- The loop with swaps keeps what `Vec::dedup_by` keeps: by induction on what is still to
be read.  Behind the kept elements stand those already dropped. -/
theorem dedupLoop_spec (sameBucket : σ → α → α → Bool × σ × α × α) (rest : List α) (s : σ)
    (front garbage : List α) (previous : α) :
    ∃ slice' w', dedupLoop sameBucket rest.length s
        ((front ++ [previous]).length + garbage.length) (front ++ [previous]).length
        (front ++ [previous] ++ garbage ++ rest) =
          .ok (slice', w', (dedupFrom sameBucket s previous rest).2) ∧
      slice'.take w' = front ++ (dedupFrom sameBucket s previous rest).1 := by
  induction rest generalizing s front garbage previous with
  | nil =>
    refine ⟨_, _, rfl, ?_⟩
    rw [List.append_nil, List.take_left]
    rfl
  | cons current rest ih =>
    have hr : (front ++ [previous]).length + garbage.length =
        (front ++ [previous] ++ garbage).length := List.length_append.symm
    have hw : (front ++ [previous]).length - 1 = front.length := by simp
    have hprevious : (front ++ [previous] ++ garbage ++ current :: rest)[front.length]? =
        some previous := by
      rw [List.append_assoc, List.append_assoc, List.singleton_append]
      exact getElem?_middle front _ previous rfl
    rw [List.length_cons, dedupLoop, getElem?_middle _ rest current hr, hw, hprevious,
      dedupFrom]
    rcases hcall : sameBucket s current previous with ⟨same, s', current', previous'⟩
    have hslice : ((front ++ [previous] ++ garbage ++ current :: rest).set
        ((front ++ [previous]).length + garbage.length) current').set front.length previous' =
          front ++ [previous'] ++ garbage ++ current' :: rest := by
      rw [set_middle _ rest current current' hr, List.append_assoc, List.append_assoc,
        List.singleton_append, set_middle front _ previous previous' rfl]
      simp
    have hlen : (front ++ [previous]).length = (front ++ [previous']).length := by simp
    simp only [hcall, hslice]
    cases same with
    | true =>
      obtain ⟨slice', w', hloop, htake⟩ := ih s' front (garbage ++ [current']) previous'
      refine ⟨slice', w', ?_, htake⟩
      have hround : (front ++ [previous']).length + garbage.length + 1 =
          (front ++ [previous']).length + (garbage ++ [current']).length := by
        rw [Nat.add_assoc, List.length_append, List.length_append]
        rfl
      rw [if_pos rfl, hlen, hround, List.append_cons _ current' rest,
        List.append_assoc _ garbage]
      exact hloop
    | false =>
      obtain ⟨garbage', hgarbage, hswap⟩ :=
        swap_kept (front ++ [previous']) garbage rest current'
      obtain ⟨slice', w', hloop, htake⟩ :=
        ih s' (front ++ [previous']) garbage' current'
      refine ⟨slice', w', ?_, ?_⟩
      · rw [if_neg (by simp), hlen, hswap]
        have hround : (front ++ [previous']).length + garbage.length + 1 =
            (front ++ [previous'] ++ [current']).length + garbage'.length := by
          simp only [hgarbage, List.length_append, List.length_singleton]
          omega
        have hkept : (front ++ [previous']).length + 1 =
            (front ++ [previous'] ++ [current']).length := by simp
        rw [hround, hkept]
        exact hloop
      · rw [htake]
        simp

theorem dedupBy_spec (v : SmallVec α N) (sameBucket : σ → α → α → Bool × σ × α × α) (s : σ) :
    ∃ w, v.dedupBy sameBucket s = .ok ((dedupItems sameBucket s v.items).2, w) ∧
      v.Becomes (dedupItems sameBucket s v.items).1 w := by
  by_cases hshort : v.len ≤ 1
  · refine ⟨v, ?_, ?_, id⟩
    · rw [dedupBy, if_pos hshort]
      match h : v.items, (show v.items.length ≤ 1 from hshort) with
      | [], _ => rfl
      | [a], _ => rfl
    · match h : v.items, (show v.items.length ≤ 1 from hshort) with
      | [], _ => rfl
      | [a], _ => rfl
  · obtain ⟨first, rest, hitems⟩ : ∃ first rest, v.items = first :: rest := by
      cases h : v.items with
      | nil =>
        rw [len, h] at hshort
        exact absurd (Nat.zero_le 1) hshort
      | cons first rest => exact ⟨first, rest, rfl⟩
    obtain ⟨slice', w', hloop, htake⟩ := dedupLoop_spec sameBucket rest s [] [] first
    have hrounds : v.len - 1 = rest.length := by rw [len, hitems, List.length_cons]; omega
    have hrun : dedupLoop sameBucket (v.len - 1) s 1 1 v.items =
        .ok (slice', w', (dedupItems sameBucket s v.items).2) := by
      rw [hrounds, hitems]
      exact hloop
    refine ⟨(v.writeSlice slice' (dedupLoop_length hrun).le).truncate w', ?_, ?_⟩
    · unfold dedupBy
      rw [if_neg hshort]
      split
      · next h =>
        rw [hrun] at h
        obtain ⟨rfl, hrest⟩ := Prod.mk.inj (Except.ok.inj h)
        obtain ⟨rfl, rfl⟩ := Prod.mk.inj hrest
        rfl
      · next h =>
        rw [hrun] at h
        cases h
    · have hslice := becomes_writeSlice v slice' (dedupLoop_length hrun).le
      have hkept : slice'.take w' = (dedupItems sameBucket s v.items).1 := by
        rw [hitems]
        exact htake
      have htruncate := becomes_truncate (v.writeSlice slice' (dedupLoop_length hrun).le) w'
      rw [hslice.items_eq, hkept] at htruncate
      exact hslice.trans htruncate

/-! ## Shrinking, appending, splitting -/

theorem fromIter_heapless {items : List α} (h : items.length ≤ N) :
    HeaplessVec.fromIter items = .ok (⟨items, h⟩ : HeaplessVec α N) := dif_pos h

theorem shrinkToFit_spec (v : SmallVec α N) :
    ∃ w, v.shrinkToFit A = .ok w ∧ w.items = v.items := by
  cases v with
  | inline h => exact ⟨.inline h, rfl, rfl⟩
  | heap w =>
    rw [shrinkToFit]
    by_cases hfits : w.items.length ≤ N
    · rw [if_pos hfits, fromIter_heapless hfits]
      exact ⟨_, rfl, rfl⟩
    · rw [if_neg hfits]
      exact ⟨_, rfl, StdVec.shrinkToFit_items A w⟩

theorem shrinkTo_spec (v : SmallVec α N) (minCapacity : Nat) :
    ∃ w, v.shrinkTo A minCapacity = .ok w ∧ w.items = v.items := by
  cases v with
  | inline h => exact ⟨.inline h, rfl, rfl⟩
  | heap w =>
    rw [shrinkTo]
    by_cases hroom : w.capacity > minCapacity
    · rw [if_pos hroom]
      simp only
      by_cases hfits : max w.items.length minCapacity ≤ N
      · rw [if_pos hfits, fromIter_heapless ((Nat.le_max_left _ _).trans hfits)]
        exact ⟨_, rfl, rfl⟩
      · rw [if_neg hfits]
        exact ⟨_, rfl, StdVec.shrinkTo_items A w _⟩
    · rw [if_neg hroom]
      exact ⟨_, rfl, rfl⟩

theorem drainRange_all (items : List α) :
    drainRange items ⟨.unbounded, .unbounded⟩ = .ok (items, []) := by
  have hbounds : boundedRange ⟨.unbounded, .unbounded⟩ items.length = .ok (0, items.length) :=
    if_pos ⟨Nat.zero_le _, le_rfl⟩
  rw [drainRange, hbounds]
  change Except.ok (slice items 0 items.length, _) = _
  rw [slice_length, List.drop_zero, List.take_zero, List.drop_length, List.append_nil]

theorem drainRange_tail {items : List α} {start : Nat} (h : start ≤ items.length) :
    drainRange items ⟨.included start, .unbounded⟩ = .ok (items.drop start, items.take start) := by
  have hbounds : boundedRange ⟨.included start, .unbounded⟩ items.length =
      .ok (start, items.length) := if_pos ⟨h, le_rfl⟩
  rw [drainRange, hbounds]
  change Except.ok (slice items start items.length, _) = _
  rw [slice_length, List.drop_length, List.append_nil]

theorem append_spec (v : SmallVec α N) (other : SmallVec α M) :
    ∃ w other', v.append A other = .ok (w, other') ∧ v.Becomes (v.items ++ other.items) w ∧
      other.Becomes [] other' := by
  have hreserve := becomes_reserve A v other.len
  have hdrain := drain_spec other ⟨.unbounded, .unbounded⟩
  rw [drainRange_all] at hdrain
  obtain ⟨other', hdrained, hother⟩ := hdrain
  obtain ⟨w, hextend, hw⟩ := extend_spec A (v.reserve A other.len) other.items other.items.length
  rw [hreserve.items_eq] at hw
  refine ⟨w, other', ?_, hreserve.trans hw, hother⟩
  rw [append]
  exact except_bind_eq_ok.mpr ⟨_, hdrained, except_bind_eq_ok.mpr ⟨w, hextend, rfl⟩⟩

theorem fromIter_spec (items : List α) (lower : Nat) :
    ∃ w : SmallVec α N, fromIter A items lower = .ok w ∧ w.items = items := by
  obtain ⟨w, hextend, hw⟩ := extend_spec A (withCapacity A lower : SmallVec α N) items lower
  have hempty : (withCapacity A lower : SmallVec α N).items = [] := by
    rw [withCapacity]
    split <;> rfl
  refine ⟨w, hextend, ?_⟩
  rw [hw.items_eq, hempty, List.nil_append]

theorem splitOff_spec (v : SmallVec α N) (at_ : Nat) :
    if at_ ≤ v.items.length then
      ∃ tail w, v.splitOff A at_ = .ok (tail, w) ∧ tail.items = v.items.drop at_ ∧
        v.Becomes (v.items.take at_) w
    else v.splitOff A at_ = .error .outOfBounds := by
  rw [splitOff]
  by_cases hat : at_ ≤ v.items.length
  · rw [if_pos hat, if_pos (show at_ ≤ v.len from hat)]
    have hdrain := drain_spec v ⟨.included at_, .unbounded⟩
    rw [drainRange_tail hat] at hdrain
    obtain ⟨w, hdrained, hw⟩ := hdrain
    obtain ⟨tail, htail, hitems⟩ := fromIter_spec (N := N) A (v.items.drop at_)
      (v.items.drop at_).length
    refine ⟨tail, w, ?_, hitems, hw⟩
    exact except_bind_eq_ok.mpr ⟨_, hdrained, except_bind_eq_ok.mpr ⟨tail, htail, rfl⟩⟩
  · rw [if_neg hat, if_neg (show ¬ at_ ≤ v.len from hat)]

/-! ## Calls -/

def view (out : Reply α σ (SmallVec α N) × SmallVec α N) : Reply α σ (List α) × List α :=
  (out.1.map items, out.2.items)

def Op.shrinks : Op α σ → Bool
  | .shrinkTo _ => true
  | .shrinkToFit => true
  | _ => false

/-- A call beside the same call on the contents. -/
def CallRefines (v : SmallVec α N) (op : Op α σ)
    (expected : Except Panic (Reply α σ (List α) × List α))
    (result : Except Panic (Reply α σ (SmallVec α N) × SmallVec α N)) : Prop :=
  match expected with
  | .ok reply => ∃ out, result = .ok out ∧ view out = reply ∧
      (Op.shrinks op = false → v.isInline = false → out.2.isInline = false)
  | .error panic => result = .error panic

theorem callRefines_becomes {v w : SmallVec α N} {op : Op α σ} {items : List α}
    {reply : Reply α σ (SmallVec α N)} (h : v.Becomes items w) :
    v.CallRefines op (.ok (reply.map SmallVec.items, items)) (.ok (reply, w)) :=
  ⟨_, rfl, Prod.ext rfl h.items_eq, fun _ => h.stays⟩

theorem callRefines_takeOut {β : Type} {v : SmallVec α N} {op : Op α σ}
    {expected : Except Panic (β × List α)} {result : Except Panic (β × SmallVec α N)}
    (reply : β → Reply α σ (SmallVec α N)) (h : v.Refines expected result) :
    v.CallRefines op
      (do
        let (b, items) ← expected
        .ok ((reply b).map SmallVec.items, items))
      (do
        let (b, v) ← result
        .ok (reply b, v)) := by
  cases expected with
  | error panic =>
    obtain rfl : result = .error panic := h
    exact rfl
  | ok out =>
    obtain ⟨w, rfl, hw⟩ := h
    exact callRefines_becomes hw

theorem call_refines (clone : α → α) (v : SmallVec α N) (op : Op α σ) :
    v.CallRefines op (vecCall clone v.items op) (v.call A clone op) := by
  cases op with
  | push value =>
    obtain ⟨w, hcall, hw⟩ := push_spec A v value
    rw [call, hcall]
    exact callRefines_becomes hw
  | pop => exact callRefines_becomes (becomes_writeSlice v _ _)
  | insert index value =>
    have hinsert := insert_spec A v index value
    rw [call, vecCall]
    cases hexpected : insertAt v.items index value with
    | error panic =>
      rw [hexpected] at hinsert
      rw [show v.insert A index value = .error panic from hinsert]
      exact rfl
    | ok items =>
      rw [hexpected] at hinsert
      obtain ⟨w, hcall, hw⟩ := hinsert
      rw [hcall]
      exact callRefines_becomes hw
  | remove index => exact callRefines_takeOut .element (remove_spec v index)
  | swapRemove index => exact callRefines_takeOut .element (swapRemove_spec v index)
  | truncate newLen => exact callRefines_becomes (becomes_truncate v newLen)
  | retain f s => exact callRefines_becomes (becomes_writeSlice v _ _)
  | dedupBy sameBucket s =>
    obtain ⟨w, hcall, hw⟩ := dedupBy_spec v sameBucket s
    rw [call, hcall]
    exact callRefines_becomes hw
  | resize newLen value =>
    obtain ⟨w, hcall, hw⟩ := resize_spec A clone v newLen value
    rw [call, hcall]
    exact callRefines_becomes hw
  | extend items lower =>
    obtain ⟨w, hcall, hw⟩ := extend_spec A v items lower
    rw [call, hcall]
    exact callRefines_becomes hw
  | extendFromSlice other =>
    obtain ⟨w, hcall, hw⟩ := extendFromSlice_spec A clone v other
    rw [call, hcall]
    exact callRefines_becomes hw
  | extendFromWithin source =>
    have hextend := extendFromWithin_spec A clone v source
    rw [call, vecCall]
    cases hbounds : boundedRange source v.items.length with
    | error panic =>
      rw [hbounds] at hextend
      rw [show v.extendFromWithin A clone source = .error panic from hextend]
      exact rfl
    | ok bounds =>
      rw [hbounds] at hextend
      obtain ⟨w, hcall, hw⟩ := hextend
      rw [hcall]
      exact callRefines_becomes hw
  | reserve additional => exact callRefines_becomes (becomes_reserve A v additional)
  | shrinkTo minCapacity =>
    obtain ⟨w, hcall, hw⟩ := shrinkTo_spec A v minCapacity
    rw [call, hcall]
    exact ⟨_, rfl, Prod.ext rfl hw, nofun⟩
  | shrinkToFit =>
    obtain ⟨w, hcall, hw⟩ := shrinkToFit_spec A v
    rw [call, hcall]
    exact ⟨_, rfl, Prod.ext rfl hw, nofun⟩
  | append M other =>
    obtain ⟨w, other', hcall, hw, hother⟩ := append_spec A v other
    rw [call, vecCall, hcall, ← hother.items_eq]
    exact callRefines_becomes hw
  | splitOff at_ =>
    have hsplit := splitOff_spec A v at_
    rw [call, vecCall]
    by_cases hat : at_ ≤ v.items.length
    · rw [if_pos hat] at hsplit ⊢
      obtain ⟨tail, w, hcall, htail, hw⟩ := hsplit
      rw [hcall, ← htail]
      exact callRefines_becomes hw
    · rw [if_neg hat] at hsplit ⊢
      rw [hsplit]
      exact rfl
  | drain range => exact callRefines_takeOut .drained (drain_spec v range)

/-! ## Runs -/

def run (A : Allocator) (clone : α → α) (v : SmallVec α N) :
    List (Op α σ) → List (Except Panic (Reply α σ (SmallVec α N))) × SmallVec α N
  | [] => ([], v)
  | op :: ops =>
    match v.call A clone op with
    | .ok (reply, w) => (.ok reply :: (run A clone w ops).1, (run A clone w ops).2)
    | .error panic => (.error panic :: (run A clone v ops).1, (run A clone v ops).2)

end SmallVec

def vecRun (clone : α → α) (items : List α) :
    List (Op α σ) → List (Except Panic (Reply α σ (List α))) × List α
  | [] => ([], items)
  | op :: ops =>
    match vecCall clone items op with
    | .ok (reply, rest) => (.ok reply :: (vecRun clone rest ops).1, (vecRun clone rest ops).2)
    | .error panic => (.error panic :: (vecRun clone items ops).1, (vecRun clone items ops).2)

namespace SmallVec

theorem run_refines (clone : α → α) (v : SmallVec α N) (ops : List (Op α σ)) :
    (v.run A clone ops).1.map (Except.map (Reply.map SmallVec.items)) =
        (vecRun clone v.items ops).1 ∧
      (v.run A clone ops).2.items = (vecRun clone v.items ops).2 := by
  induction ops generalizing v with
  | nil => exact ⟨rfl, rfl⟩
  | cons op ops ih =>
    have hcall := call_refines A clone v op
    rw [run, vecRun]
    cases hexpected : vecCall clone v.items op with
    | error panic =>
      rw [hexpected] at hcall
      rw [show v.call A clone op = .error panic from hcall]
      obtain ⟨hreplies, hitems⟩ := ih v
      exact ⟨congrArg (_ :: ·) hreplies, hitems⟩
    | ok expected =>
      rw [hexpected] at hcall
      obtain ⟨⟨reply, w⟩, hresult, hview, -⟩ := hcall
      obtain rfl := hview
      rw [hresult]
      obtain ⟨hreplies, hitems⟩ := ih w
      exact ⟨congrArg (_ :: ·) hreplies, hitems⟩

end SmallVec

theorem vecCall_ne_unreachable (clone : α → α) (items : List α) (op : Op α σ) (panic : Panic)
    (h : vecCall clone items op = .error panic) : panic = .outOfBounds := by
  cases op with
  | insert index value =>
    rw [vecCall, insertAt] at h
    split at h
    · cases h
    · exact (Except.error.inj h).symm
  | remove index =>
    rw [vecCall] at h
    unfold removeAt at h
    split at h
    · cases h
    · exact (Except.error.inj h).symm
  | swapRemove index =>
    rw [vecCall] at h
    unfold swapRemoveAt at h
    split at h
    · cases h
    · exact (Except.error.inj h).symm
  | extendFromWithin source =>
    rw [vecCall, boundedRange] at h
    split at h
    · cases h
    · exact (Except.error.inj h).symm
  | splitOff at_ =>
    rw [vecCall] at h
    split at h
    · cases h
    · exact (Except.error.inj h).symm
  | drain range =>
    rw [vecCall, drainRange, boundedRange] at h
    split at h
    · cases h
    · exact (Except.error.inj h).symm
  | _ => cases h

/-- For every inline capacity, a small vector gives the replies of a vector with the same
contents and keeps its contents, over any calls, and no call runs into `unreachable!`.
Inline it never holds more than `N` elements; and from wherever the calls have led, only
`shrink_to` and `shrink_to_fit` bring it back from the heap. -/
theorem smallVec_refines_vec (clone : α → α) (v : SmallVec α N) (ops : List (Op α σ)) :
    let out := v.run A clone ops
    (out.1.map (Except.map (Reply.map SmallVec.items)) = (vecRun clone v.items ops).1 ∧
      out.2.items = (vecRun clone v.items ops).2) ∧
    (∀ op : Op α σ, out.2.call A clone op ≠ .error .unreachable ∧
      out.2.call A clone op ≠ .error .overCapacity) ∧
    (out.2.isInline = true → out.2.items.length ≤ N) ∧
    ∀ (op : Op α σ) reply w, out.2.call A clone op = .ok (reply, w) →
      out.2.isInline = false → w.isInline = true →
        op = .shrinkToFit ∨ ∃ minCapacity, op = .shrinkTo minCapacity := by
  intro out
  refine ⟨SmallVec.run_refines A clone v ops, fun op => ?_, fun hinline => ?_,
    fun op reply w hcall hheap hinline => ?_⟩
  · have hcall := SmallVec.call_refines A clone out.2 op
    cases hexpected : vecCall clone out.2.items op with
    | ok expected =>
      rw [hexpected] at hcall
      obtain ⟨result, hresult, -⟩ := hcall
      rw [hresult]
      exact ⟨nofun, nofun⟩
    | error panic =>
      obtain rfl := vecCall_ne_unreachable clone _ op panic hexpected
      rw [hexpected] at hcall
      rw [show out.2.call A clone op = .error .outOfBounds from hcall]
      exact ⟨nofun, nofun⟩
  · cases h : out.2 with
    | inline w => exact w.length_le
    | heap w =>
      rw [h] at hinline
      cases hinline
  · have hrefines := SmallVec.call_refines A clone out.2 op
    rw [hcall] at hrefines
    cases hexpected : vecCall clone out.2.items op with
    | error panic =>
      rw [hexpected] at hrefines
      cases hrefines
    | ok expected =>
      rw [hexpected] at hrefines
      obtain ⟨result, hresult, -, hstays⟩ := hrefines
      obtain rfl := Except.ok.inj hresult
      cases hshrinks : SmallVec.Op.shrinks op with
      | false =>
        have := hstays hshrinks hheap
        rw [hinline] at this
        cases this
      | true =>
        cases op with
        | shrinkToFit => exact .inl rfl
        | shrinkTo minCapacity => exact .inr ⟨minCapacity, rfl⟩
        | _ => cases hshrinks

/-- Without inline capacity, a predicate that counts its calls drops every other element. -/
theorem smallVec_refines_vec_zero :
    let A : Allocator := ⟨2 ^ 64 - 1, id, fun _ => le_rfl, fun _ needed => needed,
      fun _ _ => le_rfl, fun _ target => target, fun _ _ _ => le_rfl⟩
    let ops : List (Op Nat Nat) := [.extend [1, 2, 3, 4] 2, .remove 9,
      .dedupBy (fun calls a b => (calls % 2 == 0, calls + 1, a, b)) 0, .insert 0 7, .shrinkToFit]
    ((SmallVec.new : SmallVec Nat 0).run A id ops).2.items = [7, 1, 3] := by
  intro A ops
  exact (smallVec_refines_vec A id (SmallVec.new : SmallVec Nat 0) ops).1.2

end Stdx.SmallCollections
