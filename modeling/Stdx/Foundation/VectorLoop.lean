import Stdx.Foundation.Octets

/-!
# Loops over vector blocks

A kernel loads one whole block after the other, treats the lanes of a block alike, and
leaves what is shorter than a block to scalar code.
-/

namespace Stdx.Foundation

/-- The vector instructions a build is compiled for. -/
inductive VectorUnit where
  | scalar
  | neon
  | avx2
  | simd128
  deriving DecidableEq, Repr

/-! ## Lanes -/

/-- The lane of a comparison: all ones where it holds. -/
def laneMask (holds : Bool) : UInt8 := if holds then 0xff else 0

/-- `vbsl_u8(mask, a, b)` and `v128_bitselect(a, b, mask)` -/
def bitSelect (mask a b : UInt8) : UInt8 := (a &&& mask) ||| (b &&& ~~~mask)

/-- `_mm256_blendv_epi8(a, b, mask)`, which looks at the top bit of the mask only. -/
def blendv (a b mask : UInt8) : UInt8 := if mask &&& 0x80 = 0 then a else b

/-- `_mm256_cmpgt_epi8`, a signed comparison. -/
def cmpgt (a b : UInt8) : UInt8 := laneMask (decide (b.toInt8 < a.toInt8))

def cmpeq (a b : UInt8) : UInt8 := laneMask (a == b)

theorem laneMask_and (p q : Bool) : laneMask p &&& laneMask q = laneMask (p && q) := by
  cases p <;> cases q <;> decide

theorem laneMask_eq_zero {p : Bool} : laneMask p = 0 ↔ p = false := by
  cases p <;> decide

theorem laneMask_not (p : Bool) : 0xff ^^^ laneMask p = laneMask (!p) := by
  cases p <;> decide

theorem bitSelect_laneMask (p : Bool) (a b : UInt8) :
    bitSelect (laneMask p) a b = if p then a else b := by
  cases p with
  | true =>
    change (a &&& 0xff) ||| (b &&& 0) = a
    rw [UInt8.and_zero, UInt8.or_zero]
    exact UInt8.and_neg_one
  | false =>
    change (a &&& 0) ||| (b &&& 0xff) = b
    rw [UInt8.and_zero, UInt8.zero_or]
    exact UInt8.and_neg_one

theorem blendv_laneMask (p : Bool) (a b : UInt8) :
    blendv a b (laneMask p) = if p then b else a := by
  cases p <;> rfl

theorem toInt8_lt {a b : UInt8} :
    a.toInt8 < b.toInt8 ↔ (a.toNat : Int).bmod 256 < (b.toNat : Int).bmod 256 := by
  rw [Int8.lt_iff_toInt_lt]
  change a.toBitVec.toInt < b.toBitVec.toInt ↔ _
  rw [BitVec.toInt_eq_toNat_bmod, BitVec.toInt_eq_toNat_bmod]
  exact Iff.rfl

/-- The two signed comparisons of a range that lies below the top bit. -/
theorem shiftLeft_or_toNat {a b k : UInt8} (hk : k.toNat < 8) (hb : b.toNat < 2 ^ k.toNat) :
    ((a <<< k) ||| b).toNat = a.toNat * 2 ^ k.toNat % 256 + b.toNat := by
  have hsplit : 256 = 2 ^ (8 - k.toNat) * 2 ^ k.toNat := by
    rw [← pow_add, Nat.sub_add_cancel hk.le]
    rfl
  rw [UInt8.toNat_or, UInt8.toNat_shiftLeft, Nat.mod_eq_of_lt hk, Nat.shiftLeft_eq]
  change a.toNat * 2 ^ k.toNat % 256 ||| b.toNat = _
  rw [hsplit, Nat.mul_mod_mul_right, ← Nat.shiftLeft_eq, Nat.shiftLeft_add_eq_or_of_lt hb]

theorem decide_between {below lo hi above : UInt8} (hlo : below.toNat + 1 = lo.toNat)
    (hhi : hi.toNat + 1 = above.toNat) (c : UInt8) :
    (decide (below < c) && decide (c < above)) = decide (lo ≤ c ∧ c ≤ hi) := by
  rw [Bool.eq_iff_iff]
  simp only [UInt8.lt_iff_toNat_lt, UInt8.le_iff_toNat_le, Bool.and_eq_true, decide_eq_true_eq]
  omega

theorem cmpgt_between {below lo hi above : UInt8} (hlo : below.toNat + 1 = lo.toNat)
    (hhi : hi.toNat + 1 = above.toNat) (hsmall : lo.toNat ≤ above.toNat ∧ above.toNat < 128)
    (c : UInt8) : cmpgt c below &&& cmpgt above c = laneMask (decide (lo ≤ c ∧ c ≤ hi)) := by
  have hc := c.toNat_lt
  rw [cmpgt, cmpgt, laneMask_and]
  congr 1
  rw [Bool.eq_iff_iff]
  simp only [toInt8_lt, UInt8.le_iff_toNat_le, Bool.and_eq_true, decide_eq_true_eq]
  simp only [Int.bmod]
  omega

theorem cmpgt_inRange {lo hi : UInt8} (hlo : 0 < lo) (hlo' : lo ≤ 128) (hhi : hi < 128)
    (c : UInt8) :
    cmpgt c (lo - 1) &&& (0xff ^^^ cmpgt c hi) = laneMask (decide (lo ≤ c ∧ c ≤ hi)) := by
  have hc := c.toNat_lt
  have hpred : (lo - 1).toNat = lo.toNat - 1 := UInt8.toNat_sub_of_le _ _ hlo
  rw [UInt8.lt_iff_toNat_lt] at hlo hhi
  rw [UInt8.le_iff_toNat_le] at hlo'
  change 0 < lo.toNat at hlo
  change lo.toNat ≤ 128 at hlo'
  change hi.toNat < 128 at hhi
  rw [cmpgt, cmpgt, laneMask_not, laneMask_and]
  congr 1
  rw [Bool.eq_iff_iff]
  simp only [toInt8_lt, hpred, UInt8.le_iff_toNat_le, Bool.and_eq_true, decide_eq_true_eq,
    Bool.not_eq_true', decide_eq_false_iff_not]
  simp only [Int.bmod]
  omega

/-! ## Groups -/

def group (n i : Nat) (xs : Bytes) : Bytes := (xs.drop (n * i)).take n

/-- The first `count` groups of `n` octets, each replaced. -/
def mapGroups (n : Nat) (lane : Bytes → Bytes) : Nat → Bytes → Bytes
  | 0, _ => []
  | count + 1, xs => lane (xs.take n) ++ mapGroups n lane count (xs.drop n)

/-- The same, where a group may be refused. -/
def inGroups (n : Nat) (lane : Bytes → Option Bytes) : Nat → Bytes → Option Bytes
  | 0, _ => some []
  | count + 1, xs => do
      let front ← lane (xs.take n)
      let back ← inGroups n lane count (xs.drop n)
      some (front ++ back)

/-- What `rounds` rounds of a loop store, and the input behind them; no input is left after
a block that the kernel refuses. -/
def vectorLoop (width : Nat) (block : Bytes → Option Bytes) : Nat → Bytes → Bytes × Option Bytes
  | 0, input => ([], some input)
  | rounds + 1, input =>
    match block (input.take width) with
    | none => ([], none)
    | some stored =>
      let (more, rest) := vectorLoop width block rounds (input.drop width)
      (stored ++ more, rest)

section Groups

variable {n m count rounds : Nat} {xs : Bytes}

theorem group_length {i : Nat} (h : n * (i + 1) ≤ xs.length) : (group n i xs).length = n := by
  rw [group, List.length_take, List.length_drop]
  rw [Nat.mul_succ] at h
  omega

theorem group_succ (n i : Nat) (xs : Bytes) : group n (i + 1) xs = group n i (xs.drop n) := by
  rw [group, group, List.drop_drop, Nat.mul_succ, Nat.add_comm]

theorem take_drop_of_le {k : Nat} (h : n ≤ k) : (xs.take k).take n = xs.take n := by
  rw [List.take_take, Nat.min_eq_left h]

/-! ### Total lanes -/

variable {f g : Bytes → Bytes}

theorem mapGroups_take {k : Nat} (h : n * count ≤ k) :
    mapGroups n f count (xs.take k) = mapGroups n f count xs := by
  induction count generalizing xs k with
  | zero => rfl
  | succ count ih =>
    rw [Nat.mul_succ] at h
    rw [mapGroups, mapGroups, take_drop_of_le (by omega), List.drop_take, ih (by omega)]

theorem mapGroups_add (a b : Nat) :
    mapGroups n f (a + b) xs = mapGroups n f a xs ++ mapGroups n f b (xs.drop (n * a)) := by
  induction a generalizing xs with
  | zero => simp [mapGroups]
  | succ a ih =>
    rw [Nat.succ_add, mapGroups, mapGroups, ih, List.append_assoc, List.drop_drop, Nat.mul_succ,
      Nat.add_comm n]

/-- A text whose groups are written one by one starts with what is written for its groups. -/
theorem eq_mapGroups_append {text : Bytes → Bytes}
    (happend : ∀ {front} rest, front.length = n → text (front ++ rest) = f front ++ text rest)
    (h : n * count ≤ xs.length) :
    text xs = mapGroups n f count xs ++ text (xs.drop (n * count)) := by
  induction count generalizing xs with
  | zero => simp [mapGroups]
  | succ count ih =>
    rw [Nat.mul_succ] at h
    have hfront : (xs.take n).length = n := List.length_take_of_le (by omega)
    have hrest := @ih (xs.drop n) (by rw [List.length_drop]; omega)
    conv_lhs => rw [← List.take_append_drop n xs, happend _ hfront, hrest, List.drop_drop]
    rw [mapGroups, List.append_assoc, Nat.mul_succ, Nat.add_comm n]

theorem mapGroups_mapGroups (n m : Nat) (f : Bytes → Bytes) (count : Nat) (xs : Bytes) :
    mapGroups (n * m) (mapGroups n f m) count xs = mapGroups n f (m * count) xs := by
  induction count generalizing xs with
  | zero => rfl
  | succ count ih =>
    rw [mapGroups, mapGroups_take le_rfl, ih, ← mapGroups_add, Nat.mul_succ, Nat.add_comm]

theorem mapGroups_length (hxs : n * count ≤ xs.length)
    (hf : ∀ block : Bytes, block.length = n → (f block).length = m) :
    (mapGroups n f count xs).length = m * count := by
  induction count generalizing xs with
  | zero => rfl
  | succ count ih =>
    rw [Nat.mul_succ] at hxs
    rw [mapGroups, List.length_append, hf _ (by rw [List.length_take]; omega),
      ih (by rw [List.length_drop]; omega), Nat.mul_succ, Nat.add_comm]

/-- Lanes of one length write the same exactly where they agree on every group. -/
theorem mapGroups_eq_iff (hxs : n * count ≤ xs.length)
    (hf : ∀ block : Bytes, block.length = n → (f block).length = m)
    (hg : ∀ block : Bytes, block.length = n → (g block).length = m) :
    mapGroups n f count xs = mapGroups n g count xs ↔
      ∀ i < count, f (group n i xs) = g (group n i xs) := by
  induction count generalizing xs with
  | zero => exact ⟨fun _ i hi => absurd hi i.not_lt_zero, fun _ => rfl⟩
  | succ count ih =>
    rw [Nat.mul_succ] at hxs
    have hlength : (xs.take n).length = n := by
      rw [List.length_take]
      omega
    have hsame := (hf _ hlength).trans (hg _ hlength).symm
    have hroom : n * count ≤ (xs.drop n).length := by
      rw [List.length_drop]
      omega
    have hrest := ih hroom
    rw [mapGroups, mapGroups]
    constructor
    · intro h i hi
      obtain ⟨hfirst, hrest'⟩ := List.append_inj h hsame
      cases i with
      | zero => simpa [group] using hfirst
      | succ i =>
        rw [group_succ]
        exact hrest.mp hrest' i (by omega)
    · intro h
      have hfirst : f (xs.take n) = g (xs.take n) := by simpa [group] using h 0 (by omega)
      rw [hfirst, hrest.mpr fun i hi => by rw [← group_succ]; exact h (i + 1) (by omega)]

theorem forall_mapGroups {p : UInt8 → Prop} (hxs : n * count ≤ xs.length)
    (hf : ∀ block : Bytes, block.length = n → ∀ b ∈ f block, p b) :
    ∀ b ∈ mapGroups n f count xs, p b := by
  induction count generalizing xs with
  | zero => exact fun b hb => absurd hb List.not_mem_nil
  | succ count ih =>
    rw [Nat.mul_succ] at hxs
    intro b hb
    rw [mapGroups, List.mem_append] at hb
    rcases hb with hb | hb
    · exact hf _ (by rw [List.length_take]; omega) b hb
    · exact ih (by rw [List.length_drop]; omega) b hb

/-! ### Lanes that refuse -/

variable {lane other : Bytes → Option Bytes}

theorem inGroups_take {k : Nat} (h : n * count ≤ k) :
    inGroups n lane count (xs.take k) = inGroups n lane count xs := by
  induction count generalizing xs k with
  | zero => rfl
  | succ count ih =>
    rw [Nat.mul_succ] at h
    rw [inGroups, inGroups, take_drop_of_le (by omega), List.drop_take, ih (by omega)]

theorem inGroups_add (a b : Nat) :
    inGroups n lane (a + b) xs = (do
      let front ← inGroups n lane a xs
      let back ← inGroups n lane b (xs.drop (n * a))
      some (front ++ back)) := by
  induction a generalizing xs with
  | zero => simp [inGroups]
  | succ a ih =>
    rw [Nat.succ_add, inGroups, inGroups, ih, List.drop_drop, Nat.mul_succ, Nat.add_comm n]
    simp only [Option.bind_eq_bind, Option.bind_assoc, Option.bind_some, List.append_assoc]

theorem eq_inGroups_bind {text lane : Bytes → Option Bytes}
    (happend : ∀ {front} rest, front.length = n → text (front ++ rest) = (do
      let octets ← lane front
      let others ← text rest
      some (octets ++ others)))
    (h : n * count ≤ xs.length) : text xs = (do
      let front ← inGroups n lane count xs
      let back ← text (xs.drop (n * count))
      some (front ++ back)) := by
  induction count generalizing xs with
  | zero => simp [inGroups]
  | succ count ih =>
    rw [Nat.mul_succ] at h
    have hfront : (xs.take n).length = n := List.length_take_of_le (by omega)
    have hrest := @ih (xs.drop n) (by rw [List.length_drop]; omega)
    conv_lhs => rw [← List.take_append_drop n xs, happend _ hfront, hrest, List.drop_drop]
    simp only [inGroups, Nat.mul_succ, Nat.add_comm n, Option.bind_eq_bind, Option.bind_assoc,
      Option.bind_some, List.append_assoc]

theorem inGroups_inGroups (n m : Nat) (lane : Bytes → Option Bytes) (count : Nat) (xs : Bytes) :
    inGroups (n * m) (inGroups n lane m) count xs = inGroups n lane (m * count) xs := by
  induction count generalizing xs with
  | zero => rfl
  | succ count ih =>
    rw [inGroups, inGroups_take le_rfl, Nat.mul_succ, Nat.add_comm, inGroups_add]
    simp only [ih]

theorem inGroups_congr (hxs : n * count ≤ xs.length)
    (h : ∀ i < count, lane (group n i xs) = other (group n i xs)) :
    inGroups n lane count xs = inGroups n other count xs := by
  induction count generalizing xs with
  | zero => rfl
  | succ count ih =>
    rw [Nat.mul_succ] at hxs
    have hfirst : lane (xs.take n) = other (xs.take n) := by simpa [group] using h 0 (by omega)
    have hroom : n * count ≤ (xs.drop n).length := by
      rw [List.length_drop]
      omega
    have hrest := ih hroom fun i hi => by
      rw [← group_succ]
      exact h (i + 1) (by omega)
    rw [inGroups, inGroups, hfirst, hrest]

theorem inGroups_length (hxs : n * count ≤ xs.length)
    (hlane : ∀ block out : Bytes, block.length = n → lane block = some out → out.length = m)
    {out : Bytes} (h : inGroups n lane count xs = some out) : out.length = m * count := by
  induction count generalizing xs out with
  | zero =>
    cases h
    rfl
  | succ count ih =>
    rw [Nat.mul_succ] at hxs
    simp only [inGroups, Option.bind_eq_bind, Option.bind_eq_some_iff] at h
    obtain ⟨front, hfront, back, hback, hout⟩ := h
    obtain rfl := Option.some.inj hout
    rw [List.length_append, hlane _ _ (by rw [List.length_take]; omega) hfront,
      ih (by rw [List.length_drop]; omega) hback, Nat.mul_succ, Nat.add_comm]

theorem inGroups_succ_isSome :
    (inGroups n lane (count + 1) xs).isSome ↔
      (lane (xs.take n)).isSome ∧ (inGroups n lane count (xs.drop n)).isSome := by
  rw [inGroups]
  cases lane (xs.take n) with
  | none => simp
  | some front => cases inGroups n lane count (xs.drop n) <;> simp

theorem inGroups_isSome_iff :
    (inGroups n lane count xs).isSome ↔ ∀ i < count, (lane (group n i xs)).isSome := by
  induction count generalizing xs with
  | zero => exact ⟨fun _ i hi => absurd hi i.not_lt_zero, fun _ => rfl⟩
  | succ count ih =>
    rw [inGroups_succ_isSome, ih]
    constructor
    · rintro ⟨hfirst, hrest⟩ i hi
      cases i with
      | zero => simpa [group] using hfirst
      | succ i =>
        rw [group_succ]
        exact hrest i (by omega)
    · intro h
      refine ⟨by simpa [group] using h 0 (by omega), fun i hi => ?_⟩
      rw [← group_succ]
      exact h (i + 1) (by omega)

theorem inGroups_isSome_forall {p : UInt8 → Prop} (hxs : n * count ≤ xs.length)
    (hlane : ∀ block : Bytes, block.length = n → ((lane block).isSome ↔ ∀ c ∈ block, p c)) :
    (inGroups n lane count xs).isSome ↔ ∀ c ∈ xs.take (n * count), p c := by
  induction count generalizing xs with
  | zero => simp [inGroups]
  | succ count ih =>
    rw [Nat.mul_succ] at hxs
    have hfirst := hlane (xs.take n) (by rw [List.length_take]; omega)
    have hroom : n * count ≤ (xs.drop n).length := by
      rw [List.length_drop]
      omega
    have hrest := ih hroom
    rw [inGroups_succ_isSome, hfirst, hrest, Nat.mul_succ, Nat.add_comm, List.take_add]
    simp only [List.mem_append]
    exact ⟨fun h c hc => hc.elim (h.1 c) (h.2 c),
      fun h => ⟨fun c hc => h c (.inl hc), fun c hc => h c (.inr hc)⟩⟩

/-- The loop stores the groups of its blocks, or refuses where one of them is refused. -/
theorem vectorLoop_eq (width : Nat) (block : Bytes → Option Bytes) (rounds : Nat) (input : Bytes) :
    match inGroups width block rounds input with
    | some stored => vectorLoop width block rounds input =
        (stored, some (input.drop (width * rounds)))
    | none => (vectorLoop width block rounds input).2 = none := by
  induction rounds generalizing input with
  | zero => rfl
  | succ rounds ih =>
    have hrest := ih (input.drop width)
    rw [inGroups, vectorLoop]
    cases block (input.take width) with
    | none => rfl
    | some front =>
      cases hback : inGroups width block rounds (input.drop width) with
      | none =>
        rw [hback] at hrest
        exact hrest
      | some back =>
        rw [hback] at hrest
        simp only [Option.bind_eq_bind, Option.bind_some]
        rw [hrest, List.drop_drop, Nat.mul_succ, Nat.add_comm width]

end Groups

end Stdx.Foundation
