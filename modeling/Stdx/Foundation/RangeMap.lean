import Stdx.Foundation.ByteRange

/-!
# Character tables made of ranges

A table that moves a few disjoint ranges of octets to disjoint ranges, its inverse, and the
value of both as it is computed without branches, from a mask for each range.
-/

namespace Stdx.Foundation

/-- The octets from `lo` to `hi`, which go to the ones from `base` on. -/
structure Segment where
  lo : UInt8
  hi : UInt8
  base : UInt8
  deriving DecidableEq

namespace Segment

def Holds (s : Segment) (v : UInt8) : Prop := s.lo ≤ v ∧ v ≤ s.hi

instance (s : Segment) (v : UInt8) : Decidable (s.Holds v) :=
  inferInstanceAs (Decidable (_ ∧ _))

def move (s : Segment) (v : UInt8) : UInt8 := v - s.lo + s.base

def inverse (s : Segment) : Segment := ⟨s.base, s.base + (s.hi - s.lo), s.lo⟩

/-- Both ranges lie below the top bit. -/
def Bounded (s : Segment) : Prop :=
  s.lo ≤ s.hi ∧ s.hi < 128 ∧ s.base.toNat + (s.hi.toNat - s.lo.toNat) < 128

instance (s : Segment) : Decidable s.Bounded := inferInstanceAs (Decidable (_ ∧ _ ∧ _))

def Apart (s t : Segment) : Prop := s.hi < t.lo ∨ t.hi < s.lo

instance (s t : Segment) : Decidable (s.Apart t) := inferInstanceAs (Decidable (_ ∨ _))

variable {s t : Segment}

theorem Bounded.inverse_hi (h : s.Bounded) :
    s.inverse.hi.toNat = s.base.toNat + (s.hi.toNat - s.lo.toNat) := by
  have hle := UInt8.le_iff_toNat_le.mp h.1
  have hsmall := h.2.2
  rw [inverse, UInt8.toNat_add, UInt8.toNat_sub_of_le _ _ h.1]
  omega

theorem inverse_inverse (s : Segment) : s.inverse.inverse = s := by
  have hspan : s.base + (s.hi - s.lo) - s.base = s.hi - s.lo := by
    rw [UInt8.add_comm, UInt8.add_sub_cancel]
  have hhi : s.lo + (s.hi - s.lo) = s.hi := by rw [UInt8.add_comm, UInt8.sub_add_cancel]
  cases s
  simp only [inverse] at hspan hhi ⊢
  rw [hspan, hhi]

theorem Bounded.inverse (h : s.Bounded) : s.inverse.Bounded := by
  have hhi := h.inverse_hi
  have hlo : s.inverse.lo = s.base := rfl
  have hbase : s.inverse.base = s.lo := rfl
  obtain ⟨hle, hlt, hsmall⟩ := h
  rw [UInt8.le_iff_toNat_le] at hle
  rw [UInt8.lt_iff_toNat_lt] at hlt
  have h128 : (128 : UInt8).toNat = 128 := rfl
  refine ⟨?_, ?_, ?_⟩
  · rw [UInt8.le_iff_toNat_le, hhi, hlo]
    omega
  · rw [UInt8.lt_iff_toNat_lt, hhi]
    omega
  · rw [hhi, hlo, hbase]
    omega

theorem Apart.not_holds (h : s.Apart t) {v : UInt8} (hv : s.Holds v) : ¬ t.Holds v := by
  rintro ⟨hlo, hhi⟩
  rcases h with h | h
  · exact UInt8.lt_irrefl _ (UInt8.lt_of_lt_of_le h (UInt8.le_trans hlo hv.2))
  · exact UInt8.lt_irrefl _ (UInt8.lt_of_lt_of_le h (UInt8.le_trans hv.1 hhi))

theorem Bounded.move_toNat (h : s.Bounded) {v : UInt8} (hv : s.Holds v) :
    (s.move v).toNat = v.toNat - s.lo.toNat + s.base.toNat := by
  have hlo := UInt8.le_iff_toNat_le.mp hv.1
  have hhi := UInt8.le_iff_toNat_le.mp hv.2
  have hsmall := h.2.2
  rw [move, UInt8.toNat_add, UInt8.toNat_sub_of_le _ _ hv.1]
  omega

theorem Bounded.inverse_holds (h : s.Bounded) {v : UInt8} (hv : s.Holds v) :
    s.inverse.Holds (s.move v) ∧ s.inverse.move (s.move v) = v := by
  have hmove := h.move_toNat hv
  have hlo := UInt8.le_iff_toNat_le.mp hv.1
  have hhi := UInt8.le_iff_toNat_le.mp hv.2
  refine ⟨⟨?_, ?_⟩, ?_⟩
  · change s.base ≤ s.move v
    rw [UInt8.le_iff_toNat_le, hmove]
    omega
  · rw [UInt8.le_iff_toNat_le, h.inverse_hi, hmove]
    omega
  · change v - s.lo + s.base - s.base + s.lo = v
    rw [UInt8.add_sub_cancel, UInt8.sub_add_cancel]

end Segment

structure RangeMap where
  segments : List Segment
  bounded : ∀ s ∈ segments, s.Bounded
  apart : segments.Pairwise fun s t => s.Apart t ∧ s.inverse.Apart t.inverse

namespace RangeMap

variable {m : RangeMap} {v w : UInt8}

def lookup (segments : List Segment) (v : UInt8) : Option UInt8 :=
  match segments with
  | [] => none
  | s :: rest => if s.Holds v then some (s.move v) else lookup rest v

def apply (m : RangeMap) (v : UInt8) : Option UInt8 := lookup m.segments v

def inverse (m : RangeMap) : RangeMap where
  segments := m.segments.map Segment.inverse
  bounded := by
    intro s hs
    obtain ⟨t, ht, rfl⟩ := List.mem_map.mp hs
    exact (m.bounded t ht).inverse
  apart := by
    rw [List.pairwise_map]
    apply m.apart.imp
    intro s t h
    rw [Segment.inverse_inverse, Segment.inverse_inverse]
    exact h.symm

theorem inverse_inverse (m : RangeMap) : m.inverse.inverse = m := by
  have htwice : Segment.inverse ∘ Segment.inverse = id := funext Segment.inverse_inverse
  cases m with
  | mk segments bounded apart =>
    simp only [inverse, List.map_map, htwice, List.map_id]

theorem lookup_mem {segments : List Segment} (h : lookup segments v = some w) :
    ∃ s ∈ segments, s.Holds v ∧ s.move v = w := by
  induction segments with
  | nil => cases h
  | cons s rest ih =>
    rw [lookup] at h
    split at h
    · next hholds => exact ⟨s, List.mem_cons_self .., hholds, Option.some.inj h⟩
    · obtain ⟨t, ht, hholds, hmove⟩ := ih h
      exact ⟨t, List.mem_cons_of_mem _ ht, hholds, hmove⟩

theorem lookup_of_mem {segments : List Segment}
    (hapart : segments.Pairwise Segment.Apart) {s : Segment} (hs : s ∈ segments)
    (hv : s.Holds v) : lookup segments v = some (s.move v) := by
  induction segments with
  | nil => cases hs
  | cons t rest ih =>
    obtain ⟨hfirst, hrest⟩ := List.pairwise_cons.mp hapart
    rw [lookup]
    split
    · next ht =>
      rcases List.mem_cons.mp hs with rfl | hs
      · rfl
      · exact absurd hv ((hfirst s hs).not_holds ht)
    · next ht =>
      rcases List.mem_cons.mp hs with rfl | hs
      · exact absurd hv ht
      · exact ih hrest hs

theorem inverse_apply (h : m.apply v = some w) : m.inverse.apply w = some v := by
  obtain ⟨s, hs, hholds, rfl⟩ := lookup_mem h
  obtain ⟨hback, hmove⟩ := (m.bounded s hs).inverse_holds hholds
  have hmem : s.inverse ∈ m.inverse.segments := List.mem_map_of_mem hs
  rw [apply, lookup_of_mem (m.inverse.apart.imp And.left) hmem hback, hmove]

theorem apply_iff : m.apply v = some w ↔ m.inverse.apply w = some v := by
  refine ⟨inverse_apply, fun h => ?_⟩
  have hback := inverse_apply h
  rwa [inverse_inverse] at hback

/-! ## Without branches -/

def rangeMask (s : Segment) (v : UInt8) : UInt8 :=
  (((v - s.lo).toInt8 ||| (s.hi - v).toInt8) >>> 7).toUInt8

@[grind =]
def maskedValue : List Segment → UInt8 → UInt8
  | [], _ => 0
  | [s], v => s.move v &&& ~~~rangeMask s v
  | s :: rest, v => (s.move v &&& ~~~rangeMask s v) ||| maskedValue rest v

def maskedMiss : List Segment → UInt8 → UInt8
  | [], _ => 0xff
  | [s], v => rangeMask s v
  | s :: rest, v => rangeMask s v &&& maskedMiss rest v

theorem masked_congr {s : Segment} (hs : s.Bounded) {v x : UInt8}
    (h : s.Holds v → x = s.move v) :
    x &&& ~~~rangeMask s v = s.move v &&& ~~~rangeMask s v := by
  rw [rangeMask, rangeMask_eq hs.1 hs.2.1]
  by_cases hv : s.Holds v
  · rw [h hv]
  · rw [if_neg (by exact hv)]
    exact UInt8.and_zero.trans UInt8.and_zero.symm

theorem masked_cases {segments : List Segment} (hbounded : ∀ s ∈ segments, s.Bounded)
    (hapart : segments.Pairwise Segment.Apart) (v : UInt8) :
    (∃ w, lookup segments v = some w ∧ maskedValue segments v = w ∧
        maskedMiss segments v = 0) ∨
      (∀ s ∈ segments, ¬ s.Holds v) ∧ lookup segments v = none ∧ maskedValue segments v = 0 ∧
        maskedMiss segments v = 0xff := by
  have hmask : ∀ s ∈ segments, rangeMask s v = if s.Holds v then 0 else 0xff :=
    fun s hs => rangeMask_eq (hbounded s hs).1 (hbounded s hs).2.1 v
  induction segments with
  | nil => exact .inr ⟨by simp, rfl, rfl, rfl⟩
  | cons s rest ih =>
    obtain ⟨hfirst, hpairs⟩ := List.pairwise_cons.mp hapart
    have hs := hmask s (List.mem_cons_self ..)
    have hvalue : maskedValue (s :: rest) v =
        (s.move v &&& ~~~rangeMask s v) ||| maskedValue rest v := by
      cases rest with
      | nil => exact UInt8.or_zero.symm
      | cons t rest => rfl
    have hmiss : maskedMiss (s :: rest) v = rangeMask s v &&& maskedMiss rest v := by
      cases rest with
      | nil => exact UInt8.and_neg_one.symm
      | cons t rest => rfl
    have hrest := ih (fun t ht => hbounded t (List.mem_cons_of_mem _ ht)) hpairs
      fun t ht => hmask t (List.mem_cons_of_mem _ ht)
    rw [lookup, hvalue, hmiss, hs]
    by_cases hholds : s.Holds v
    · have hnone : maskedValue rest v = 0 := by
        rcases hrest with ⟨w, hw, -, -⟩ | ⟨-, -, hzero, -⟩
        · obtain ⟨t, ht, hholds', -⟩ := lookup_mem hw
          exact absurd hholds' ((hfirst t ht).not_holds hholds)
        · exact hzero
      rw [if_pos hholds, if_pos hholds, hnone, UInt8.or_zero, UInt8.zero_and]
      exact .inl ⟨s.move v, rfl, UInt8.and_neg_one, rfl⟩
    · rw [if_neg hholds, if_neg hholds]
      have hgone : (s.move v &&& ~~~(0xff : UInt8)) = 0 := UInt8.and_zero
      rw [hgone, UInt8.zero_or]
      rcases hrest with ⟨w, hw, hv, hm⟩ | ⟨hnone, hlookup, hv, hm⟩
      · exact .inl ⟨w, hw, hv, by rw [hm, UInt8.and_zero]⟩
      · refine .inr ⟨?_, hlookup, hv, by rw [hm]; rfl⟩
        intro t ht
        rcases List.mem_cons.mp ht with rfl | ht
        · exact hholds
        · exact hnone t ht

theorem masked_eq (m : RangeMap) (v miss : UInt8) :
    maskedValue m.segments v ||| (maskedMiss m.segments v &&& miss) =
      (m.apply v).getD miss := by
  rcases masked_cases m.bounded (m.apart.imp And.left) v with
    ⟨w, hw, hv, hm⟩ | ⟨-, hnone, hv, hm⟩
  · rw [apply, hw, hv, hm, UInt8.zero_and, UInt8.or_zero]
    rfl
  · rw [apply, hnone, hv, hm, UInt8.zero_or]
    exact UInt8.neg_one_and

theorem maskedValue_eq (m : RangeMap) (v : UInt8) :
    maskedValue m.segments v = (m.apply v).getD 0 := by
  have h := masked_eq m v 0
  rwa [UInt8.and_zero, UInt8.or_zero] at h

end RangeMap

end Stdx.Foundation
