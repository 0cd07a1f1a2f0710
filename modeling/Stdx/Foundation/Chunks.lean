import Stdx.Foundation.Loop
import Mathlib.Data.List.GetD

/-!
# Arrays written in chunks

A loop that fills an array `m` cells at a time writes the concatenation of its
chunks; cell `m * i + j` is cell `j` of chunk `i`.
-/

namespace Stdx.Foundation

variable {α : Type*}

/-- `for i in 0..count { out[m * i..m * (i + 1)] = chunk i }` -/
def ofChunks (count : Nat) (chunk : Nat → List α) : List α :=
  (List.range count).flatMap chunk

theorem ofChunks_succ (count : Nat) (chunk : Nat → List α) :
    ofChunks (count + 1) chunk = ofChunks count chunk ++ chunk count := by
  simp [ofChunks, List.range_succ]

theorem ofChunks_congr {count : Nat} {chunk chunk' : Nat → List α}
    (h : ∀ i, i < count → chunk i = chunk' i) : ofChunks count chunk = ofChunks count chunk' := by
  induction count with
  | zero => rfl
  | succ count ih =>
    rw [ofChunks_succ, ofChunks_succ, ih fun i hi => h i (by omega), h count (by omega)]

theorem length_ofChunks {m count : Nat} {chunk : Nat → List α}
    (h : ∀ i, i < count → (chunk i).length = m) :
    (ofChunks count chunk).length = m * count := by
  induction count with
  | zero => simp [ofChunks]
  | succ count ih =>
    rw [ofChunks_succ, List.length_append, ih fun i hi => h i (by omega),
      h count (by omega)]
    ring

theorem getD_ofChunks {m count : Nat} {chunk : Nat → List α}
    (h : ∀ i, i < count → (chunk i).length = m) {i j : Nat} (hi : i < count)
    (hj : j < m) (d : α) :
    (ofChunks count chunk).getD (m * i + j) d = (chunk i).getD j d := by
  induction count with
  | zero => omega
  | succ count ih =>
    have hlength := length_ofChunks fun i hi => h i (Nat.lt_succ_of_lt hi)
    rw [ofChunks_succ]
    rcases Nat.lt_or_ge i count with hlt | hge
    · have hin : m * i + j < m * count := by
        have : m * (i + 1) ≤ m * count := Nat.mul_le_mul_left m hlt
        rw [Nat.mul_add] at this
        omega
      rw [List.getD_append _ _ _ _ (by rw [hlength]; exact hin)]
      exact ih (fun i hi => h i (by omega)) hlt
    · have hic : i = count := by omega
      rw [List.getD_append_right _ _ _ _ (by rw [hlength, hic]; omega), hlength,
        hic, Nat.add_sub_cancel_left]

theorem getD_map_range (f : Nat → α) {n i : Nat} (hi : i < n) (d : α) :
    ((List.range n).map f).getD i d = f i := by
  simp [List.getD_eq_getElem?_getD, hi]

theorem getD_zipWith {β γ : Type*} (f : α → β → γ) {a : List α} {b : List β} {i : Nat}
    (ha : i < a.length) (hb : i < b.length) (da : α) (db : β) (dc : γ) :
    (List.zipWith f a b).getD i dc = f (a.getD i da) (b.getD i db) := by
  simp [List.getD_eq_getElem?_getD, ha, hb]

theorem getD_map_of_lt {β : Type*} (f : α → β) {a : List α} {i : Nat}
    (ha : i < a.length) (da : α) (db : β) :
    (a.map f).getD i db = f (a.getD i da) := by
  simp [List.getD_eq_getElem?_getD, ha]

theorem ext_getD {a b : List α} (hlength : a.length = b.length) (d : α)
    (h : ∀ i, i < a.length → a.getD i d = b.getD i d) : a = b := by
  refine List.ext_getElem hlength fun i ha hb => ?_
  have := h i ha
  rwa [List.getD_eq_getElem _ _ ha, List.getD_eq_getElem _ _ hb] at this

theorem forall_chunk {m n : Nat} {P : Nat → Prop} (hm : 0 < m)
    (h : ∀ i j, i < n → j < m → P (m * i + j)) {k : Nat} (hk : k < m * n) :
    P k := by
  have hdecomp := Nat.div_add_mod k m
  have := h (k / m) (k % m) (Nat.div_lt_of_lt_mul hk) (Nat.mod_lt k hm)
  rwa [hdecomp] at this

theorem ofChunks_getD {m n : Nat} {l : List α} (h : l.length = m * n) (d : α) :
    (ofChunks n fun i => (List.range m).map fun j => l.getD (m * i + j) d) = l := by
  have hchunk : ∀ i, i < n → ((List.range m).map fun j => l.getD (m * i + j) d).length = m := by
    simp
  refine ext_getD ((length_ofChunks hchunk).trans h.symm) d fun k hk => ?_
  rw [length_ofChunks hchunk] at hk
  refine forall_chunk (P := fun k => (ofChunks n fun i =>
    (List.range m).map fun j => l.getD (m * i + j) d).getD k d = l.getD k d)
    (Nat.pos_of_ne_zero fun hm => by simp [hm] at hk) (fun i j hi hj => ?_) hk
  rw [getD_ofChunks hchunk hi hj, getD_map_range _ hj]

end Stdx.Foundation
