import Stdx.Foundation.Octets
import Stdx.Foundation.Outcome

/-!
# The DER reader

`Reader` is the cursor of `crypto/src/encoding/der.rs`: the input and a
position in it.  Every method runs in `Checked`, so a slice out of range or an
overflowing position is a `panic` and not an error.
-/

namespace Stdx.Encoding.Der

open Stdx.Foundation

inductive DerError where
  | truncated
  | invalidLength
  | unexpectedTag
  | trailingData
  | unsupported
  deriving DecidableEq, Repr

def tagInteger : UInt8 := 0x02
def tagBitString : UInt8 := 0x03
def tagOctetString : UInt8 := 0x04
def tagOid : UInt8 := 0x06
def tagSequence : UInt8 := 0x30

structure Reader where
  data : Bytes
  pos : Nat
  deriving DecidableEq, Repr

abbrev Read (α : Type) := Checked Reader DerError α

namespace Reader

def new (data : Bytes) : Reader := ⟨data, 0⟩

def isEmpty (r : Reader) : Bool := decide (r.pos ≥ r.data.length)

def remaining (r : Reader) : Nat := r.data.length - r.pos

def unread (r : Reader) : Bytes := r.data.drop r.pos

def consumed (r r' : Reader) : Bytes := (r.data.drop r.pos).take (r'.pos - r.pos)

end Reader

/-- `self.data.get(self.pos).copied().ok_or(Truncated)` -/
def peekTag : Read UInt8 := fun r =>
  match r.data[r.pos]? with
  | some octet => (.ok octet, r)
  | none => (.err .truncated, r)

section Methods

variable (T : Target)

/-- `self.pos += 1`, which panics on overflow. -/
def advance : Read Unit := fun r =>
  if r.pos + 1 < 2 ^ T.usizeBits then (.ok (), { r with pos := r.pos + 1 })
  else (.panic, r)

def nextByte : Read UInt8 := do
  let octet ← peekTag
  advance T
  pure octet

/-- The identifier octet; high-tag-number forms are refused before advancing. -/
def readTag : Read UInt8 := do
  let tag ← peekTag
  if tag &&& 0x1f = 0x1f then
    Checked.fail .unsupported
  else
    advance T
    pure tag

/-- The loop `for _ in 0..n { len = (len << 8) | b }` over `usize`. -/
def readLengthOctets : Nat → Nat → Read Nat
  | 0, len => pure len
  | n + 1, len => do
      let octet ← nextByte T
      readLengthOctets n (((len <<< 8) % 2 ^ T.usizeBits) ||| octet.toNat)

def readLength (first : UInt8) : Read Nat :=
  if first ≤ 0x7f then
    pure first.toNat
  else if first = 0x80 then
    Checked.fail .invalidLength
  else if first ≤ 0x84 then do
    let len ← readLengthOctets T (first &&& 0x7f).toNat 0
    if len < 0x80 then Checked.fail .invalidLength else pure len
  else
    Checked.fail .invalidLength

/-- `checked_add`, the bound check, and the slice `&self.data[self.pos..end]`. -/
def readContent (len : Nat) : Read Bytes := fun r =>
  let stop := r.pos + len
  if stop ≥ 2 ^ T.usizeBits then (.err .invalidLength, r)
  else if stop > r.data.length then (.err .truncated, r)
  else if r.pos ≤ stop ∧ stop ≤ r.data.length then
    (.ok ((r.data.take stop).drop r.pos), { r with pos := stop })
  else (.panic, r)

def readTlv : Read (UInt8 × Bytes) := do
  let tag ← readTag T
  let first ← nextByte T
  let len ← readLength T first
  let content ← readContent T len
  pure (tag, content)

def readExpected (tag : UInt8) : Read Bytes := do
  let (actual, content) ← readTlv T
  if actual ≠ tag then Checked.fail .unexpectedTag else pure content

def readSequence : Read Reader := do
  let content ← readExpected T tagSequence
  pure (Reader.new content)

/-- A leading zero is refused when the next octet has its sign bit clear. -/
def readInteger : Read Bytes := do
  let content ← readExpected T tagInteger
  match content with
  | [] => Checked.fail .unexpectedTag
  | [_] => pure content
  | first :: second :: _ =>
    if first = 0 ∧ second &&& 0x80 = 0 then Checked.fail .invalidLength
    else pure content

def readOctetString : Read Bytes := readExpected T tagOctetString

def readBitString : Read Bytes := do
  let content ← readExpected T tagBitString
  match content with
  | [] => Checked.fail .unexpectedTag
  | unused :: rest =>
    if unused ≠ 0 then Checked.fail .unsupported else pure rest

def readOid : Read Bytes := do
  let content ← readExpected T tagOid
  if content = [] then Checked.fail .unexpectedTag else pure content

def readExplicit (tag : UInt8) : Read Reader := do
  let content ← readExpected T tag
  pure (Reader.new content)

end Methods

def finish (r : Reader) : Except DerError Unit :=
  if r.pos = r.data.length then .ok () else .error .trailingData

/-! ## Safety -/

/-- What holds of every reader: a slice fits in `isize` and the cursor in it. -/
structure Reader.WellFormed (T : Target) (r : Reader) : Prop where
  data_fits : r.data.length < 2 ^ (T.usizeBits - 1)
  pos_le : r.pos ≤ r.data.length

theorem Reader.new_wellFormed (T : Target) (data : Bytes)
    (h : data.length < 2 ^ (T.usizeBits - 1)) :
    (Reader.new data).WellFormed T :=
  ⟨h, Nat.zero_le _⟩

section Safety

variable (T : Target)

theorem peekTag_eq_ok {r r' : Reader} {octet : UInt8}
    (h : peekTag r = (.ok octet, r')) :
    r' = r ∧ r.data[r.pos]? = some octet := by
  unfold peekTag at h
  split at h
  · next heq =>
    simp only [Prod.mk.injEq, Outcome.ok.injEq] at h
    exact ⟨h.2.symm, by rw [heq, h.1]⟩
  · simp at h

theorem advance_run {r : Reader} {octet : UInt8} (hr : r.WellFormed T)
    (hnext : r.data[r.pos]? = some octet) :
    advance T r = (.ok (), { r with pos := r.pos + 1 }) ∧
      Reader.WellFormed T { r with pos := r.pos + 1 } := by
  have hlt : r.pos < r.data.length := (List.getElem?_eq_some_iff.mp hnext).1
  have hpow := two_pow_usizeBits T
  have hfits := hr.data_fits
  have hsmall : r.pos + 1 < 2 ^ T.usizeBits := by omega
  exact ⟨by simp [advance, hsmall], ⟨hr.data_fits, hlt⟩⟩

theorem nextByte_run {r : Reader} {octet : UInt8} (hr : r.WellFormed T)
    (hnext : r.data[r.pos]? = some octet) :
    nextByte T r = (.ok octet, { r with pos := r.pos + 1 }) := by
  simp [nextByte, Checked.run_bind, peekTag, hnext, (advance_run T hr hnext).1]

theorem nextByte_safe : Checked.Safe (Reader.WellFormed T) (nextByte T) := by
  intro r hr
  cases hnext : r.data[r.pos]? with
  | none =>
    simp [nextByte, Checked.run_bind, peekTag, hnext, hr]
  | some octet =>
    rw [nextByte_run T hr hnext]
    exact ⟨by simp, (advance_run T hr hnext).2⟩

theorem readTag_safe : Checked.Safe (Reader.WellFormed T) (readTag T) := by
  intro r hr
  cases hnext : r.data[r.pos]? with
  | none => simp [readTag, Checked.run_bind, peekTag, hnext, hr]
  | some octet =>
    obtain ⟨hrun, hwell⟩ := advance_run T hr hnext
    by_cases hhigh : octet &&& 0x1f = 0x1f
    · simp [readTag, Checked.run_bind, peekTag, hnext, hhigh, hr]
    · simp [readTag, Checked.run_bind, peekTag, hnext, hhigh, hrun, hwell]

theorem readLengthOctets_safe (n len : Nat) :
    Checked.Safe (Reader.WellFormed T) (readLengthOctets T n len) := by
  induction n generalizing len with
  | zero => exact Checked.Safe.pure _ _
  | succ n ih => exact (nextByte_safe T).bind fun octet => ih _

theorem readLength_safe (first : UInt8) :
    Checked.Safe (Reader.WellFormed T) (readLength T first) := by
  unfold readLength
  split
  · exact Checked.Safe.pure _ _
  split
  · exact Checked.Safe.fail _ _
  split
  · refine (readLengthOctets_safe T _ _).bind fun len => ?_
    split
    · exact Checked.Safe.fail _ _
    · exact Checked.Safe.pure _ _
  · exact Checked.Safe.fail _ _

theorem readContent_safe (len : Nat) :
    Checked.Safe (Reader.WellFormed T) (readContent T len) := by
  intro r hr
  unfold readContent
  simp only
  split
  · exact ⟨by simp, hr⟩
  split
  · exact ⟨by simp, hr⟩
  · next hfits =>
    have hstop : r.pos ≤ r.pos + len ∧ r.pos + len ≤ r.data.length := by omega
    rw [if_pos hstop]
    exact ⟨by simp, ⟨hr.data_fits, hstop.2⟩⟩

theorem readTlv_safe : Checked.Safe (Reader.WellFormed T) (readTlv T) :=
  (readTag_safe T).bind fun _ =>
    (nextByte_safe T).bind fun _ =>
      (readLength_safe T _).bind fun _ =>
        (readContent_safe T _).bind fun _ => Checked.Safe.pure _ _

theorem readExpected_safe (tag : UInt8) :
    Checked.Safe (Reader.WellFormed T) (readExpected T tag) := by
  refine (readTlv_safe T).bind fun ⟨actual, content⟩ => ?_
  simp only
  split
  · exact Checked.Safe.fail _ _
  · exact Checked.Safe.pure _ _

theorem readInteger_safe :
    Checked.Safe (Reader.WellFormed T) (readInteger T) := by
  refine (readExpected_safe T tagInteger).bind fun content => ?_
  split
  · exact Checked.Safe.fail _ _
  · exact Checked.Safe.pure _ _
  · split
    · exact Checked.Safe.fail _ _
    · exact Checked.Safe.pure _ _

theorem readBitString_safe :
    Checked.Safe (Reader.WellFormed T) (readBitString T) := by
  refine (readExpected_safe T tagBitString).bind fun content => ?_
  split
  · exact Checked.Safe.fail _ _
  · split
    · exact Checked.Safe.fail _ _
    · exact Checked.Safe.pure _ _

theorem readOid_safe : Checked.Safe (Reader.WellFormed T) (readOid T) := by
  refine (readExpected_safe T tagOid).bind fun content => ?_
  split
  · exact Checked.Safe.fail _ _
  · exact Checked.Safe.pure _ _

end Safety

end Stdx.Encoding.Der
