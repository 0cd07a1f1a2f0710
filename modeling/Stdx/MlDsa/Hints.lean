import Stdx.MlDsa.Codec
import Mathlib.Data.List.Sort

/-!
# The hint of a signature

The hint is written as the positions of its ones, row after row, the unused positions being
zero, and behind them the number of positions up to the end of each row.  An octet string is
accepted only when it is written this way.
-/

namespace Stdx.MlDsa

open Stdx.Foundation

/-! ## Rows and their positions -/

def Binary (row : List Nat) : Prop := row.length = N ∧ ∀ x ∈ row, x = 0 ∨ x = 1

def weight (h : List (List Nat)) : Nat := (h.map (List.count 1)).sum

def positions (row : List Nat) : List Nat := (List.range N).filter fun j => row.getD j 0 ≠ 0

def rowOf (ps : List Nat) : List Nat := ps.foldl (fun row j => row.set j 1) (List.replicate N 0)

def total (h : List (List Nat)) : Nat := (h.map fun row => (positions row).length).sum

theorem total_cons (row : List Nat) (rows : List (List Nat)) :
    total (row :: rows) = (positions row).length + total rows := by
  rw [total, List.map_cons, List.sum_cons, total]

theorem mem_positions {row : List Nat} {j : Nat} :
    j ∈ positions row ↔ j < N ∧ row.getD j 0 ≠ 0 := by
  rw [positions, List.mem_filter, List.mem_range, decide_eq_true_eq]

theorem positions_sorted (row : List Nat) : (positions row).SortedLT :=
  (List.pairwise_lt_range.filter _).sortedLT

theorem getD_foldl_set (ps row : List Nat) {j : Nat} (hj : j < row.length) :
    (ps.foldl (fun row j => row.set j 1) row).getD j 0 = if j ∈ ps then 1 else row.getD j 0 := by
  induction ps generalizing row with
  | nil => simp
  | cons p ps ih =>
    rw [List.foldl_cons, ih (row.set p 1) (by simpa using hj)]
    by_cases hmem : j ∈ ps
    · simp [hmem]
    · by_cases hp : p = j
      · subst hp
        simp [hmem, hj]
      · have hp' : ¬ j = p := fun h => hp h.symm
        simp [hmem, hp, hp', List.getElem?_set_ne]

theorem length_foldl_set (ps row : List Nat) :
    (ps.foldl (fun row j => row.set j 1) row).length = row.length := by
  induction ps generalizing row with
  | nil => rfl
  | cons p ps ih => rw [List.foldl_cons, ih, List.length_set]

theorem length_rowOf (ps : List Nat) : (rowOf ps).length = N := by
  rw [rowOf, length_foldl_set, List.length_replicate]

theorem getD_rowOf (ps : List Nat) {j : Nat} (hj : j < N) :
    (rowOf ps).getD j 0 = if j ∈ ps then 1 else 0 := by
  rw [rowOf, getD_foldl_set ps _ (by simpa using hj)]
  simp [hj]

theorem binary_rowOf (ps : List Nat) : Binary (rowOf ps) := by
  refine ⟨length_rowOf ps, fun x hx => ?_⟩
  obtain ⟨j, hj, rfl⟩ := List.getElem_of_mem hx
  have hN : j < N := length_rowOf ps ▸ hj
  rw [← List.getD_eq_getElem _ 0 hj, getD_rowOf ps hN]
  split
  · exact .inr rfl
  · exact .inl rfl

theorem positions_rowOf {ps : List Nat} (hsorted : ps.SortedLT) (hlt : ∀ j ∈ ps, j < N) :
    positions (rowOf ps) = ps := by
  refine (positions_sorted _).eq_of_mem_iff hsorted fun j => ?_
  rw [mem_positions]
  constructor
  · rintro ⟨hj, hne⟩
    rw [getD_rowOf ps hj] at hne
    by_contra hmem
    exact hne (if_neg hmem)
  · intro hmem
    refine ⟨hlt j hmem, ?_⟩
    rw [getD_rowOf ps (hlt j hmem), if_pos hmem]
    exact one_ne_zero

theorem Binary.getD {row : List Nat} (h : Binary row) (j : Nat) :
    row.getD j 0 = 0 ∨ row.getD j 0 = 1 := by
  rcases Nat.lt_or_ge j row.length with hj | hj
  · rw [List.getD_eq_getElem _ _ hj]
    exact h.2 _ (List.getElem_mem hj)
  · exact .inl (List.getD_eq_default _ _ hj)

theorem rowOf_positions {row : List Nat} (h : Binary row) : rowOf (positions row) = row := by
  refine ext_getD ((length_rowOf _).trans h.1.symm) 0 fun j hj => ?_
  rw [length_rowOf] at hj
  rw [getD_rowOf _ hj]
  obtain hzero | hone := h.getD j
  · rw [if_neg (fun hmem => (mem_positions.mp hmem).2 hzero), hzero]
  · rw [if_pos (mem_positions.mpr ⟨hj, by rw [hone]; exact one_ne_zero⟩), hone]

theorem length_positions {row : List Nat} (h : Binary row) :
    (positions row).length = row.count 1 := by
  have hrow : row = (List.range N).map fun j => row.getD j 0 :=
    ext_getD (by simp [h.1]) 0 fun j hj =>
      (getD_map_range (fun j => row.getD j 0) (h.1 ▸ hj) 0).symm
  conv_rhs => rw [hrow]
  rw [positions, ← List.countP_eq_length_filter, List.count, List.countP_map]
  refine List.countP_congr fun j _ => ?_
  change decide (row.getD j 0 ≠ 0) = true ↔ (row.getD j 0 == 1) = true
  obtain hzero | hone := h.getD j
  · rw [hzero]
    decide
  · rw [hone]
    decide

theorem total_eq_weight {h : List (List Nat)} (hbinary : ∀ row ∈ h, Binary row) :
    total h = weight h :=
  congrArg List.sum (List.map_congr_left fun row hrow => length_positions (hbinary row hrow))

/-! ## What is accepted -/

/-- The octets hold the rows from `i` on, whose positions start at `idx`. -/
def Codes (sig : Nat → UInt8) (omega : Nat) : Nat → Nat → List (List Nat) → Prop
  | _, _, [] => True
  | i, idx, row :: rows =>
    Binary row ∧ (sig (omega + i)).toNat = idx + (positions row).length ∧
    idx + (positions row).length ≤ omega ∧
    (∀ k, k < (positions row).length → (sig (idx + k)).toNat = (positions row).getD k 0) ∧
    Codes sig omega (i + 1) (idx + (positions row).length) rows

section Decode

variable {sig : Nat → UInt8} {omega : Nat}

theorem sorted_iff (f : Nat → Nat) (n : Nat) :
    ((List.range n).map f).SortedLT ↔ ∀ k, k < n → 0 < k → f (k - 1) < f k := by
  rw [List.sortedLT_iff_pairwise, List.pairwise_iff_getElem]
  constructor
  · intro h k hk hpos
    have hlt := h (k - 1) k (by simp; omega) (by simpa using hk) (by omega)
    simpa using hlt
  · intro h i j hi hj hij
    simp only [List.length_map, List.length_range] at hi hj
    simp only [List.getElem_map, List.getElem_range]
    suffices hmono : ∀ j, j < n → i < j → f i < f j from hmono j hj hij
    intro j
    induction j with
    | zero => omega
    | succ j ih =>
      intro hj hij
      have hstep := h (j + 1) hj (Nat.succ_pos j)
      rcases Nat.lt_or_ge i j with hlt | hge
      · exact (ih (by omega) hlt).trans hstep
      · obtain rfl : i = j := by omega
        exact hstep

theorem hintDecodeRow_eq_ok_iff {start idx n : Nat} {row row' : List Nat} :
    hintDecodeRow sig start n idx row = .ok row' ↔
      (∀ k, k < n → start < idx + k → (sig (idx + k - 1)).toNat < (sig (idx + k)).toNat) ∧
      row' = ((List.range n).map fun k => (sig (idx + k)).toNat).foldl
        (fun row j => row.set j 1) row := by
  induction n generalizing idx row with
  | zero => simp [hintDecodeRow, eq_comm]
  | succ n ih =>
    have hlt : ¬ (sig idx).toNat ≥ N := not_le.mpr (sig idx).toNat_lt
    have hrange : (List.range (n + 1)).map (fun k => (sig (idx + k)).toNat) =
        (sig idx).toNat :: (List.range n).map fun k => (sig (idx + 1 + k)).toNat := by
      rw [List.range_succ_eq_map, List.map_cons, List.map_map, Nat.add_zero]
      refine congrArg _ (List.map_congr_left fun k _ => ?_)
      rw [Function.comp_apply, Nat.succ_eq_add_one, Nat.add_right_comm, Nat.add_assoc]
    simp only [hintDecodeRow, hrange, List.foldl_cons]
    split
    · next hbad =>
      constructor
      · intro h
        cases h
      · rintro ⟨h, -⟩
        have hgood := h 0 (Nat.succ_pos n) hbad.1
        simp only [Nat.add_zero] at hgood
        omega
    · next hgood =>
      rw [ih]
      refine and_congr_left fun _ => ⟨fun h k hk hstart => ?_, fun h k hk hstart => ?_⟩
      · cases k with
        | zero =>
          simp only [Nat.add_zero] at hstart ⊢
          exact Nat.lt_of_not_le fun hle => hgood ⟨hstart, hle⟩
        | succ k =>
          have hnext := h k (by omega) (by omega)
          rwa [Nat.add_right_comm, Nat.add_assoc] at hnext
      · have hnext := h (k + 1) (by omega) (by omega)
        rwa [← Nat.add_assoc, Nat.add_right_comm] at hnext

theorem hintDecodeRow_eq_ok {idx n : Nat} {row : List Nat} :
    hintDecodeRow sig idx n idx (List.replicate N 0) = .ok row ↔
      Binary row ∧ (positions row).length = n ∧
        ∀ k, k < n → (sig (idx + k)).toNat = (positions row).getD k 0 := by
  have hlt : ∀ j ∈ (List.range n).map (fun k => (sig (idx + k)).toNat), j < N := by
    intro j hj
    obtain ⟨k, -, rfl⟩ := List.mem_map.mp hj
    exact (sig (idx + k)).toNat_lt
  have hsorted : (∀ k, k < n → idx < idx + k →
      (sig (idx + k - 1)).toNat < (sig (idx + k)).toNat) ↔
        ((List.range n).map fun k => (sig (idx + k)).toNat).SortedLT := by
    rw [sorted_iff]
    refine forall_congr' fun k => imp_congr_right fun hk => ?_
    constructor
    · intro h hpos
      have hprev := h (by omega)
      rwa [Nat.add_sub_assoc hpos] at hprev
    · intro h hstart
      have hpos : 0 < k := by omega
      rw [Nat.add_sub_assoc hpos]
      exact h hpos
  rw [hintDecodeRow_eq_ok_iff, hsorted]
  constructor
  · rintro ⟨hsort, rfl⟩
    have hpositions := positions_rowOf hsort hlt
    refine ⟨binary_rowOf _, ?_, fun k hk => ?_⟩
    · exact (congrArg List.length hpositions).trans (by simp)
    · change (sig (idx + k)).toNat = (positions (rowOf _)).getD k 0
      rw [hpositions, getD_map_range _ hk]
  · rintro ⟨hbinary, hlength, hsig⟩
    have hpositions : (List.range n).map (fun k => (sig (idx + k)).toNat) = positions row := by
      refine ext_getD (by simp [hlength]) 0 fun k hk => ?_
      rw [List.length_map, List.length_range] at hk
      rw [getD_map_range _ hk, hsig k hk]
    rw [hpositions]
    exact ⟨positions_sorted row, (rowOf_positions hbinary).symm⟩

theorem hintDecodeRows_eq_ok {n i idx last : Nat} {rows : List (List Nat)} :
    hintDecodeRows sig omega n i idx = .ok (rows, last) ↔
      rows.length = n ∧ Codes sig omega i idx rows ∧ last = idx + total rows := by
  induction n generalizing i idx rows last with
  | zero =>
    rw [List.length_eq_zero_iff]
    constructor
    · intro h
      obtain ⟨rfl, rfl⟩ := Prod.mk.inj (Except.ok.inj h)
      exact ⟨rfl, trivial, rfl⟩
    · rintro ⟨rfl, -, rfl⟩
      rfl
  | succ n ih =>
    simp only [hintDecodeRows]
    split
    · next hbad =>
      constructor
      · intro h
        cases h
      · rintro ⟨hlength, hcodes, -⟩
        cases rows with
        | nil => cases hlength
        | cons row rows =>
          obtain ⟨-, hlimit, hle, -⟩ := hcodes
          omega
    · next hgood =>
      constructor
      · intro h
        cases hrow : hintDecodeRow sig idx ((sig (omega + i)).toNat - idx) idx
            (List.replicate N 0) with
        | error e =>
          rw [hrow] at h
          cases h
        | ok row =>
          rw [hrow] at h
          cases hrest : hintDecodeRows sig omega n (i + 1) (sig (omega + i)).toNat with
          | error e =>
            simp only [Bind.bind, Except.bind, hrest] at h
            cases h
          | ok rest =>
            obtain ⟨rows', last'⟩ := rest
            simp only [Bind.bind, Except.bind, hrest] at h
            obtain ⟨rfl, rfl⟩ := Prod.mk.inj (Except.ok.inj h)
            obtain ⟨hlength, hcodes, hlast⟩ := ih.mp hrest
            obtain ⟨hbinary, hcount, hsig⟩ := hintDecodeRow_eq_ok.mp hrow
            have hlimit : (sig (omega + i)).toNat = idx + (positions row).length := by
              omega
            refine ⟨congrArg (· + 1) hlength, ⟨hbinary, hlimit, by omega, ?_, ?_⟩, ?_⟩
            · rwa [hcount]
            · rwa [← hlimit]
            · rw [hlast, hlimit, total_cons, Nat.add_assoc]
      · rintro ⟨hlength, hcodes, hlast⟩
        cases rows with
        | nil => cases hlength
        | cons row rows =>
          obtain ⟨hbinary, hlimit, hle, hsig, hcodes⟩ := hcodes
          have hcount : (sig (omega + i)).toNat - idx = (positions row).length := by omega
          have hrow := hintDecodeRow_eq_ok.mpr ⟨hbinary, rfl, hsig⟩
          have hrest := ih.mpr ⟨Nat.succ.inj hlength, hcodes, rfl⟩
          rw [total_cons, ← Nat.add_assoc] at hlast
          rw [hcount, hrow, hlimit]
          simp only [Bind.bind, Except.bind, hrest, hlast]

theorem hintDecode_eq_ok {K L : Nat} (params : MlDsaParams K L) {h : List (List Nat)} :
    hintDecode params sig = .ok h ↔
      h.length = K ∧ Codes sig params.omega 0 0 h ∧
        ∀ k, total h ≤ k → k < params.omega → sig k = 0 := by
  have hclean : ∀ idx, ((List.range params.omega).any fun k => idx ≤ k && sig k != 0) = false ↔
      ∀ k, idx ≤ k → k < params.omega → sig k = 0 := by
    intro idx
    rw [List.any_eq_false]
    simp only [List.mem_range, Bool.and_eq_true, decide_eq_true_eq, bne_iff_ne, not_and, not_not]
    exact ⟨fun h k hle hlt => h k hlt hle, fun h k hlt hle => h k hle hlt⟩
  rw [hintDecode]
  constructor
  · intro hdecode
    cases hrows : hintDecodeRows sig params.omega K 0 0 with
    | error e =>
      rw [hrows] at hdecode
      cases hdecode
    | ok rest =>
      obtain ⟨rows, last⟩ := rest
      rw [hrows] at hdecode
      simp only [Bind.bind, Except.bind] at hdecode
      split at hdecode
      · cases hdecode
      · next hzero =>
        obtain rfl := Except.ok.inj hdecode
        obtain ⟨hlength, hcodes, hlast⟩ := hintDecodeRows_eq_ok.mp hrows
        rw [Nat.zero_add] at hlast
        rw [hlast, Bool.not_eq_true, hclean] at hzero
        exact ⟨hlength, hcodes, hzero⟩
  · rintro ⟨hlength, hcodes, hzero⟩
    have hrows := hintDecodeRows_eq_ok.mpr ⟨hlength, hcodes, rfl⟩
    rw [Nat.zero_add] at hrows
    rw [hrows]
    simp only [Bind.bind, Except.bind]
    rw [(hclean _).mpr hzero]
    rfl

end Decode

/-! ## What is written -/

section Encode

variable {sig : Nat → UInt8} {omega K : Nat}

def written (sig : Nat → UInt8) (omega K c i : Nat) : Bytes :=
  (List.range (omega + K)).map fun k => if k < c ∨ omega ≤ k ∧ k < omega + i then sig k else 0

theorem written_set_position {c i : Nat} (hc : c < omega) :
    (written sig omega K c i).set c (sig c) = written sig omega K (c + 1) i := by
  refine List.ext_getElem (by simp [written]) fun k hk hk' => ?_
  simp only [written, List.getElem_set, List.getElem_map, List.getElem_range]
  grind

theorem written_set_count {c i : Nat} :
    (written sig omega K c i).set (omega + i) (sig (omega + i)) =
      written sig omega K c (i + 1) := by
  refine List.ext_getElem (by simp [written]) fun k hk hk' => ?_
  simp only [written, List.getElem_set, List.getElem_map, List.getElem_range]
  grind

def positionsBelow (row : List Nat) (j : Nat) : List Nat :=
  (List.range j).filter fun j => row.getD j 0 ≠ 0

theorem positionsBelow_succ (row : List Nat) (j : Nat) :
    positionsBelow row (j + 1) =
      positionsBelow row j ++ if row.getD j 0 ≠ 0 then [j] else [] := by
  rw [positionsBelow, List.range_succ, List.filter_append, positionsBelow]
  refine congrArg _ ?_
  rw [List.filter_singleton]
  by_cases h : row.getD j 0 ≠ 0
  · rw [if_pos h, decide_eq_true h]
    rfl
  · rw [if_neg h, decide_eq_false h]
    rfl

theorem getD_positions {row : List Nat} {j : Nat} (hj : j < N) (hone : row.getD j 0 ≠ 0) :
    (positionsBelow row j).length < (positions row).length ∧
      (positions row).getD (positionsBelow row j).length 0 = j := by
  have hsplit : ∃ rest, positions row = positionsBelow row j ++ j :: rest := by
    have hrange : List.range N = List.range (j + 1) ++
        (List.range (N - (j + 1))).map (j + 1 + ·) := by
      rw [← List.range_add]
      congr 1
      omega
    have hsucc := positionsBelow_succ row j
    rw [if_pos hone] at hsucc
    refine ⟨((List.range (N - (j + 1))).map (j + 1 + ·)).filter fun j => row.getD j 0 ≠ 0, ?_⟩
    rw [positions, hrange, List.filter_append]
    change positionsBelow row (j + 1) ++ _ = _
    rw [hsucc, List.append_assoc]
    rfl
  obtain ⟨rest, hrest⟩ := hsplit
  rw [hrest]
  refine ⟨by simp, ?_⟩
  rw [List.getD_append_right _ _ _ _ le_rfl, Nat.sub_self]
  rfl

theorem hintEncodeRow_eq {row : List Nat} {c i : Nat} (hle : c + (positions row).length ≤ omega)
    (hsig : ∀ k, k < (positions row).length → (sig (c + k)).toNat = (positions row).getD k 0) :
    hintEncodeRow row ⟨written sig omega K c i, c⟩ =
      ⟨written sig omega K (c + (positions row).length) i, c + (positions row).length⟩ := by
  have hloop := forRange_rule (l := 0) (n := N)
    (f := fun j (s : HintState) =>
      if row.getD j 0 ≠ 0 then ⟨s.out.set s.idx (UInt8.ofNat j), s.idx + 1⟩ else s)
    (I := fun j s => s = ⟨written sig omega K (c + (positionsBelow row j).length) i,
      c + (positionsBelow row j).length⟩) ?_
    (s := ⟨written sig omega K c i, c⟩) rfl
  · exact hloop.trans (by rw [Nat.zero_add]; rfl)
  · rintro j s - hj rfl
    rw [positionsBelow_succ]
    split
    · next hone =>
      obtain ⟨hlt, hposition⟩ := getD_positions (by omega) hone
      have hj : UInt8.ofNat j = sig (c + (positionsBelow row j).length) :=
        (congrArg UInt8.ofNat ((hsig _ hlt).trans hposition)).symm.trans UInt8.ofNat_toNat
      simp only [hj, written_set_position (show c + (positionsBelow row j).length < omega by
        omega), List.length_append, List.length_singleton, Nat.add_assoc]
    · rw [List.append_nil]

theorem hintEncode_eq {L : Nat} (params : MlDsaParams K L) {h : List (List Nat)}
    (hlength : h.length = K) (hcodes : Codes sig params.omega 0 0 h)
    (hzero : ∀ k, total h ≤ k → k < params.omega → sig k = 0) :
    hintEncode params h = (List.range (params.omega + K)).map sig := by
  have hloop := forRange_rule (l := 0) (n := K)
    (f := fun i (s : HintState) =>
      let s := hintEncodeRow (h.getD i []) s
      ⟨s.out.set (params.omega + i) (UInt8.ofNat s.idx), s.idx⟩)
    (I := fun i s => s = ⟨written sig params.omega K (total (h.take i)) i, total (h.take i)⟩ ∧
      Codes sig params.omega i (total (h.take i)) (h.drop i)) ?_
    (s := ⟨List.replicate (params.omega + K) 0, 0⟩) ?_
  · rw [hintEncode, hloop.1]
    refine List.map_congr_left fun k hk => ?_
    rw [List.mem_range] at hk
    have htake : h.take (0 + K) = h := List.take_of_length_le (by omega)
    rw [htake]
    split
    · rfl
    · next hout => exact (hzero k (by omega) (by omega)).symm
  · rintro i s - hi ⟨rfl, hcodes⟩
    have hin : i < h.length := by omega
    rw [List.drop_eq_getElem_cons hin] at hcodes
    obtain ⟨-, hcount, hle, hsig, hrest⟩ := hcodes
    have htake : total (h.take (i + 1)) = total (h.take i) + (positions h[i]).length := by
      rw [List.take_succ_eq_append_getElem hin, total, List.map_append, List.sum_append]
      simp [total]
    rw [htake]
    refine ⟨?_, hrest⟩
    have hlast : UInt8.ofNat (total (h.take i) + (positions h[i]).length) =
        sig (params.omega + i) := by
      rw [← hcount, UInt8.ofNat_toNat]
    simp only [List.getD_eq_getElem _ _ hin, hintEncodeRow_eq hle hsig, hlast, written_set_count]
  · refine ⟨?_, by simpa [total] using hcodes⟩
    have hnone : ∀ k ∈ List.range (params.omega + K),
        (if k < total (h.take 0) ∨ params.omega ≤ k ∧ k < params.omega + 0 then sig k else 0) =
          (0 : UInt8) := by
      intro k _
      refine if_neg ?_
      simp only [List.take_zero, total, List.map_nil, List.sum_nil]
      omega
    rw [written, List.map_congr_left hnone, List.map_const', List.length_range]
    rfl

def canonical (omega : Nat) (h : List (List Nat)) (k : Nat) : UInt8 :=
  if k < omega then UInt8.ofNat ((h.flatMap positions).getD k 0)
  else UInt8.ofNat (total (h.take (k - omega + 1)))

theorem length_flatMap_positions (h : List (List Nat)) : (h.flatMap positions).length = total h :=
  List.length_flatMap

theorem total_append (h h' : List (List Nat)) : total (h ++ h') = total h + total h' := by
  rw [total, List.map_append, List.sum_append, total, total]

theorem canonical_codes {front rows : List (List Nat)} (hbinary : ∀ row ∈ rows, Binary row)
    (hle : total (front ++ rows) ≤ omega) (homega : omega < 256) :
    Codes (canonical omega (front ++ rows)) omega front.length (total front) rows := by
  induction rows generalizing front with
  | nil => trivial
  | cons row rows ih =>
    have hfront : front ++ row :: rows = (front ++ [row]) ++ rows := by simp
    have htotal : total (front ++ [row]) = total front + (positions row).length := by
      rw [total_append, total_cons]
      rfl
    have hrest := @ih (front ++ [row])
      (fun row hrow => hbinary row (List.mem_cons_of_mem _ hrow)) (hfront ▸ hle)
    rw [← hfront, htotal, List.length_append] at hrest
    have hfit : total front + (positions row).length ≤ omega := by
      rw [total_append, total_cons] at hle
      omega
    refine ⟨hbinary row List.mem_cons_self, ?_, hfit, fun k hk => ?_, hrest⟩
    · rw [canonical, if_neg (by omega), Nat.add_sub_cancel_left, hfront,
        List.take_append_of_le_length (by simp), List.take_of_length_le (by simp), htotal,
        octet_toNat_ofNat]
      exact Nat.mod_eq_of_lt (by omega)
    · rw [canonical, if_pos (by omega), List.flatMap_append, List.flatMap_cons,
        ← length_flatMap_positions, List.getD_append_right _ _ _ _ (by omega),
        Nat.add_sub_cancel_left, List.getD_append _ _ _ _ hk, octet_toNat_ofNat]
      refine Nat.mod_eq_of_lt ?_
      rw [List.getD_eq_getElem _ _ hk]
      exact (mem_positions.mp (List.getElem_mem hk)).1

end Encode

/-! ## Indexing -/

/-- `hint_decode` of one row, without an answer where it would index out of range. -/
def hintDecodeRowChecked (sig : Bytes) (polyStart : Nat) :
    Nat → Nat → List Nat → Option (Except MlDsaError (List Nat))
  | 0, _, row => some (.ok row)
  | remaining + 1, idx, row => do
      let j := (← sig[idx]?).toNat
      let unsorted ← if idx > polyStart then (sig[idx - 1]?).map fun prev => decide (prev.toNat ≥ j)
        else some false
      if unsorted then some (.error .InvalidSignature)
      else if j ≥ N then some (.error .InvalidSignature)
      else if j < row.length then
        hintDecodeRowChecked sig polyStart remaining (idx + 1) (row.set j 1)
      else none

def hintDecodeRowsChecked (sig : Bytes) (omega : Nat) :
    Nat → Nat → Nat → Option (Except MlDsaError (List (List Nat) × Nat))
  | 0, _, idx => some (.ok ([], idx))
  | remaining + 1, i, idx => do
      let limit := (← sig[omega + i]?).toNat
      if limit < idx ∨ limit > omega then some (.error .InvalidSignature)
      else
        match ← hintDecodeRowChecked sig idx (limit - idx) idx (List.replicate N 0) with
        | .error e => some (.error e)
        | .ok row =>
          match ← hintDecodeRowsChecked sig omega remaining (i + 1) limit with
          | .error e => some (.error e)
          | .ok (rows, last) => some (.ok (row :: rows, last))

def hintDecodeChecked {K L : Nat} (params : MlDsaParams K L) (sig : Bytes) :
    Option (Except MlDsaError (List (List Nat))) := do
  match ← hintDecodeRowsChecked sig params.omega K 0 0 with
  | .error e => some (.error e)
  | .ok (rows, idx) => do
      let rest ← (List.range' idx (params.omega - idx)).mapM fun k => sig[k]?
      if rest.any (· != 0) then some (.error .InvalidSignature) else some (.ok rows)

section Checked

variable {sig : Bytes}

theorem getElem?_eq_getD {i : Nat} (h : i < sig.length) : sig[i]? = some (sig.getD i 0) := by
  rw [List.getElem?_eq_getElem h, List.getD_eq_getElem _ _ h]

theorem hintDecodeRowChecked_eq {start n idx : Nat} {row : List Nat} (hidx : idx + n ≤ sig.length)
    (hrow : row.length = N) :
    hintDecodeRowChecked sig start n idx row =
      some (hintDecodeRow (fun k => sig.getD k 0) start n idx row) := by
  induction n generalizing idx row with
  | zero => rfl
  | succ n ih =>
    have hj : (sig.getD idx 0).toNat < N := (sig.getD idx 0).toNat_lt
    have hrest := @ih (idx + 1) (row.set (sig.getD idx 0).toNat 1) (by omega)
      (by rw [List.length_set, hrow])
    simp only [hintDecodeRowChecked, hintDecodeRow, getElem?_eq_getD (show idx < sig.length by
      omega), getElem?_eq_getD (show idx - 1 < sig.length by omega), Option.bind_eq_bind,
      Option.bind_some, Option.map_some, hrow, if_pos hj, if_neg (not_le.mpr hj), hrest]
    by_cases hstart : idx > start
    · by_cases hsorted : (sig.getD (idx - 1) 0).toNat ≥ (sig.getD idx 0).toNat
      · simp only [hstart, hsorted, if_true, and_self, decide_true]
      · simp only [hstart, hsorted, if_true, if_false, and_false, decide_false,
          Bool.false_eq_true]
    · simp only [hstart, if_false, false_and, Bool.false_eq_true]

theorem hintDecodeRowsChecked_eq {omega n i idx : Nat} (hlength : omega + i + n ≤ sig.length) :
    hintDecodeRowsChecked sig omega n i idx =
      some (hintDecodeRows (fun k => sig.getD k 0) omega n i idx) := by
  induction n generalizing i idx with
  | zero => rfl
  | succ n ih =>
    simp only [hintDecodeRowsChecked, hintDecodeRows,
      getElem?_eq_getD (show omega + i < sig.length by omega), Option.bind_eq_bind,
      Option.bind_some]
    split
    · rfl
    · next hgood =>
      rw [hintDecodeRowChecked_eq (by omega) List.length_replicate, Option.bind_some]
      cases hrow : hintDecodeRow (fun k => sig.getD k 0) idx
          ((sig.getD (omega + i) 0).toNat - idx) idx (List.replicate N 0) with
      | error e => rfl
      | ok row =>
        simp only [@ih (i + 1) (sig.getD (omega + i) 0).toNat (by omega),
          Option.bind_some]
        cases hrest : hintDecodeRows (fun k => sig.getD k 0) omega n (i + 1)
            (sig.getD (omega + i) 0).toNat with
        | error e => rfl
        | ok rest => rfl

theorem hintDecodeChecked_eq {K L : Nat} (params : MlDsaParams K L)
    (hlength : sig.length = params.omega + K) :
    hintDecodeChecked params sig = some (hintDecode params fun k => sig.getD k 0) := by
  rw [hintDecodeChecked, hintDecode, hintDecodeRowsChecked_eq (by omega)]
  cases hintDecodeRows (fun k => sig.getD k 0) params.omega K 0 0 with
  | error e => rfl
  | ok rest =>
    obtain ⟨rows, idx⟩ := rest
    have hread : (List.range' idx (params.omega - idx)).mapM (fun k => sig[k]?) =
        some ((List.range' idx (params.omega - idx)).map fun k => sig.getD k 0) := by
      refine mapM_of_forall fun k hk => getElem?_eq_getD ?_
      rw [List.mem_range'_1] at hk
      omega
    have hany : ((List.range' idx (params.omega - idx)).map fun k => sig.getD k 0).any (· != 0) =
        (List.range params.omega).any fun k => idx ≤ k && sig.getD k 0 != 0 := by
      rw [List.any_map, Bool.eq_iff_iff, List.any_eq_true, List.any_eq_true]
      simp only [List.mem_range'_1, List.mem_range, Bool.and_eq_true, decide_eq_true_eq,
        Function.comp_apply]
      refine exists_congr fun k => ⟨?_, ?_⟩
      · rintro ⟨hk, hne⟩
        exact ⟨by omega, hk.1, hne⟩
      · rintro ⟨hk, hle, hne⟩
        exact ⟨by omega, hne⟩
    simp only [Option.bind_some, hread, hany, Bind.bind, Except.bind]
    split <;> rfl

end Checked

/-! ## The hint codec -/

section Codec

variable {K L : Nat} (params : MlDsaParams K L)

theorem hintEncode_canonical {h : List (List Nat)} (hlength : h.length = K)
    (hbinary : ∀ row ∈ h, Binary row) (hweight : weight h ≤ params.omega) :
    hintEncode params h = (List.range (params.omega + K)).map (canonical params.omega h) ∧
      Codes (canonical params.omega h) params.omega 0 0 h ∧
      ∀ k, total h ≤ k → k < params.omega → canonical params.omega h k = 0 := by
  rw [← total_eq_weight hbinary] at hweight
  have hcodes : Codes (canonical params.omega h) params.omega 0 0 h :=
    @canonical_codes _ [] _ hbinary hweight params.omega_lt
  have hzero : ∀ k, total h ≤ k → k < params.omega → canonical params.omega h k = 0 := by
    intro k hk hlt
    rw [canonical, if_pos hlt, List.getD_eq_default _ _ (by rwa [length_flatMap_positions])]
    rfl
  exact ⟨hintEncode_eq params hlength hcodes hzero, hcodes, hzero⟩

/-- What the octets code depends on the octets below the positions and on the counts. -/
theorem Codes.congr {sig sig' : Nat → UInt8} {omega i idx : Nat} {rows : List (List Nat)}
    (h : ∀ k, k < omega + (i + rows.length) → sig k = sig' k)
    (hcodes : Codes sig omega i idx rows) :
    Codes sig' omega i idx rows := by
  induction rows generalizing i idx with
  | nil => trivial
  | cons row rows ih =>
    obtain ⟨hbinary, hcount, hle, hsig, hrest⟩ := hcodes
    rw [List.length_cons] at h
    refine ⟨hbinary, ?_, hle, fun k hk => ?_, ih (fun k hk => h k (by omega)) hrest⟩
    · rw [← h _ (by omega), hcount]
    · rw [← h _ (by omega), hsig k hk]

theorem Codes.binary {sig : Nat → UInt8} {omega i idx : Nat} {rows : List (List Nat)}
    (hcodes : Codes sig omega i idx rows) (hidx : idx ≤ omega) :
    (∀ row ∈ rows, Binary row) ∧ idx + total rows ≤ omega := by
  induction rows generalizing i idx with
  | nil => exact ⟨by simp, hidx⟩
  | cons row rows ih =>
    obtain ⟨hbinary, -, hle, -, hrest⟩ := hcodes
    obtain ⟨hall, htotal⟩ := ih hrest hle
    refine ⟨fun r hr => ?_, by rw [total_cons]; omega⟩
    obtain rfl | hr := List.mem_cons.mp hr
    · exact hbinary
    · exact hall r hr

/-- The hint codec is a bijection between the hints with at most `omega` ones and the octet
strings that are accepted, and reads inside the octets only. -/
theorem hint_codec :
    (∀ h : List (List Nat), h.length = K → (∀ row ∈ h, Binary row) → weight h ≤ params.omega →
      (hintEncode params h).length = params.omega + K ∧
        hintDecode params (fun k => (hintEncode params h).getD k 0) = .ok h) ∧
    (∀ y : Bytes, y.length = params.omega + K → ∀ h,
      hintDecode params (fun k => y.getD k 0) = .ok h →
        h.length = K ∧ (∀ row ∈ h, Binary row) ∧ weight h ≤ params.omega ∧
          hintEncode params h = y) ∧
    ∀ y : Bytes, y.length = params.omega + K →
      hintDecodeChecked params y = some (hintDecode params fun k => y.getD k 0) := by
  refine ⟨fun h hlength hbinary hweight => ?_, fun y hy h hdecode => ?_,
    fun y hy => hintDecodeChecked_eq params hy⟩
  · obtain ⟨hencode, hcodes, hzero⟩ := hintEncode_canonical params hlength hbinary hweight
    have hsame : ∀ k, k < params.omega + K →
        canonical params.omega h k = (hintEncode params h).getD k 0 := by
      intro k hk
      rw [hencode, getD_map_range _ hk]
    refine ⟨by rw [hencode, List.length_map, List.length_range],
      (hintDecode_eq_ok params).mpr ⟨hlength, ?_, fun k hk hlt => ?_⟩⟩
    · exact hcodes.congr fun k hk => hsame k (by omega)
    · rw [← hsame k (by omega), hzero k hk hlt]
  · obtain ⟨hlength, hcodes, hzero⟩ := (hintDecode_eq_ok params).mp hdecode
    obtain ⟨hbinary, htotal⟩ := hcodes.binary (Nat.zero_le _)
    rw [Nat.zero_add, total_eq_weight hbinary] at htotal
    refine ⟨hlength, hbinary, htotal, ?_⟩
    rw [hintEncode_eq params hlength hcodes hzero]
    exact ext_getD (by simp [hy]) 0 fun k hk =>
      getD_map_range (fun k => y.getD k 0) (by simpa using hk) 0

end Codec

/-- Ones in two rows. -/
theorem hint_codec_two_rows :
    hintDecode PARAMS_44 (fun k => (hintEncode PARAMS_44
      [(List.replicate N 0).set 3 1, List.replicate N 0, (List.replicate N 0).set 200 1,
        List.replicate N 0]).getD k 0) =
      .ok [(List.replicate N 0).set 3 1, List.replicate N 0, (List.replicate N 0).set 200 1,
        List.replicate N 0] := by
  have hrow (k : Nat) : Binary ((List.replicate N 0).set k 1) := by
    refine ⟨by rw [List.length_set, List.length_replicate], fun x hx => ?_⟩
    rcases List.mem_or_eq_of_mem_set hx with hx | rfl
    · exact .inl (List.eq_of_mem_replicate hx)
    · exact .inr rfl
  have hzero : Binary (List.replicate N 0) :=
    ⟨List.length_replicate, fun x hx => .inl (List.eq_of_mem_replicate hx)⟩
  exact ((hint_codec PARAMS_44).1 _ rfl
    (by simp only [List.forall_mem_cons]; exact ⟨hrow 3, hzero, hrow 200, hzero, by simp⟩)
    (by decide +kernel)).2

end Stdx.MlDsa
