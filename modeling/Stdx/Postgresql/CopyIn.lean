import Stdx.Foundation.Octets
import Stdx.Time.TimeZone

/-!
# Binary `COPY ... FROM STDIN`

A value appends its octets to the buffer it is given and then succeeds or fails;
what it appended before an error stays.  Rows are encoded field by field into the
buffer all rows share, so a failed row leaves its fragment there and every later
row is shifted by it.
-/

namespace Stdx.Postgresql

open Stdx.Foundation

structure DbError where
  code : String
  message : String
  deriving DecidableEq

inductive Error where
  | server (db : DbError)
  | protocol (message : String)
  | io
  | closed
  | connectionFailed (message : String)
  | decode (message : String)
  | encode (message : String)
  | unexpectedNull (column : String)
  | time (err : Time.Error)
  | uuid
  | json (message : String)
  | ipNetwork
  | utf8
  deriving DecidableEq

inductive IsNull where
  | null
  | notNull
  deriving DecidableEq

/-- One call of `ToSql::encode`: the octets appended, also before an error, and
the result. -/
structure Encoding where
  octets : Bytes
  result : Except Error IsNull

def i32Octets (value : Int) : Bytes :=
  fixedOctets 4 (value % 2 ^ 32).toNat

def u16Octets (value : Nat) : Bytes :=
  fixedOctets 2 value

def framed (tooLarge : String) (value : Encoding) : Bytes × Except Error IsNull :=
  match value.result with
  | .error err => (i32Octets 0 ++ value.octets, .error err)
  | .ok .null => (i32Octets (-1), .ok .null)
  | .ok .notNull =>
    if value.octets.length < 2 ^ 31 then
      (i32Octets value.octets.length ++ value.octets, .ok .notNull)
    else (i32Octets 0 ++ value.octets, .error (.encode tooLarge))

/-! ## Arrays -/

/-- The loop of `encode_array`: the elements encoded, their count, whether one of
them is null, and the error that ended the loop. -/
def encodeElements : List Encoding → Nat → Bool → Bytes × Nat × Bool × Option Error
  | [], count, hasNulls => ([], count, hasNulls, none)
  | item :: items, count, hasNulls =>
    match framed "array element is larger than 2 GiB" item with
    | (octets, .error err) => (octets, count, hasNulls, some err)
    | (octets, .ok isNull) =>
      if count + 1 < 2 ^ 31 then
        let rest := encodeElements items (count + 1) (hasNulls || isNull = .null)
        (octets ++ rest.1, rest.2)
      else (octets, count, hasNulls, some (.encode "array has too many elements"))

/-- On an error the null flag and the count stay unpatched. -/
def encodeArray (items : List Encoding) (elementOid : Nat) : Encoding :=
  match encodeElements items 0 false with
  | (octets, _, _, some err) =>
    ⟨i32Octets 1 ++ i32Octets 0 ++ fixedOctets 4 elementOid ++ i32Octets 0 ++ i32Octets 1 ++
      octets, .error err⟩
  | (octets, count, hasNulls, none) =>
    ⟨i32Octets 1 ++ i32Octets (if hasNulls then 1 else 0) ++ fixedOctets 4 elementOid ++
      i32Octets count ++ i32Octets 1 ++ octets, .ok .notNull⟩

/-! ## Rows -/

def encodeFields : List Encoding → Bytes × Except Error Unit
  | [] => ([], .ok ())
  | value :: values =>
    match framed "COPY field is larger than 2 GiB" value with
    | (octets, .error err) => (octets, .error err)
    | (octets, .ok _) =>
      let rest := encodeFields values
      (octets ++ rest.1, rest.2)

def encodeCopyRow (values : List Encoding) : Bytes × Except Error Unit :=
  if values.length ≤ 65535 then
    let fields := encodeFields values
    (u16Octets values.length ++ fields.1, fields.2)
  else ([], .error (.encode
    s!"too many columns in COPY row: {values.length} (max 65535)"))

/-! ## The writer -/

def COPY_HEADER : Bytes :=
  [0x50, 0x47, 0x43, 0x4f, 0x50, 0x59, 0x0a, 0xff, 0x0d, 0x0a, 0x00,
    0x00, 0x00, 0x00, 0x00, 0x00, 0x00, 0x00, 0x00]

def COPY_FLUSH_THRESHOLD : Nat := 8 * 1024

/-- `sent` are the payloads of the `CopyData` chunks handed to the connection. -/
structure CopyInWriter where
  sent : List Bytes
  buf : Bytes

/-- `Connection::copy_in` -/
def copyIn : CopyInWriter := ⟨[COPY_HEADER], []⟩

def CopyInWriter.append (w : CopyInWriter) (encode : Bytes × Except Error Unit) :
    CopyInWriter × Except Error Unit :=
  let buf := w.buf ++ encode.1
  match encode.2 with
  | .error err => (⟨w.sent, buf⟩, .error err)
  | .ok () =>
    if buf.length < COPY_FLUSH_THRESHOLD then (⟨w.sent, buf⟩, .ok ())
    else (⟨w.sent ++ [buf], []⟩, .ok ())

def CopyInWriter.writeRow (w : CopyInWriter) (row : List Encoding) :
    CopyInWriter × Except Error Unit :=
  w.append (encodeCopyRow row)

@[grind =]
def CopyInWriter.writeRows (w : CopyInWriter) :
    List (List Encoding) → CopyInWriter × List (Except Error Unit)
  | [] => (w, [])
  | row :: rows =>
    let written := w.writeRow row
    let rest := written.1.writeRows rows
    (rest.1, written.2 :: rest.2)

def CopyInWriter.finish (w : CopyInWriter) : List Bytes :=
  let written := (w.append ([0xff, 0xff], .ok ())).1
  if written.buf = [] then written.sent else written.sent ++ [written.buf]

/-! ## Which values encode -/

/-- `encode` succeeds and the length of the value fits its four octets. -/
def Encoding.Fits (value : Encoding) : Prop :=
  value.result = .ok .null ∨ value.result = .ok .notNull ∧ value.octets.length < 2 ^ 31

theorem framed_cases (tooLarge : String) (value : Encoding) :
    (value.Fits ∧ ∃ octets isNull, framed tooLarge value = (octets, .ok isNull)) ∨
      (¬value.Fits ∧ ∃ octets err, framed tooLarge value = (octets, .error err)) := by
  obtain ⟨octets, result⟩ := value
  cases result with
  | error err => exact .inr ⟨by simp [Encoding.Fits], _, _, rfl⟩
  | ok isNull =>
    cases isNull with
    | null => exact .inl ⟨.inl rfl, _, _, rfl⟩
    | notNull =>
      by_cases hlength : octets.length < 2 ^ 31
      · exact .inl ⟨.inr ⟨rfl, hlength⟩, _, _, if_pos hlength⟩
      · refine .inr ⟨?_, _, _, if_neg hlength⟩
        simpa [Encoding.Fits] using hlength

theorem encodeElements_fits (items : List Encoding) (count : Nat) (hasNulls : Bool) :
    (encodeElements items count hasNulls).2.2.2 = none ↔
      (∀ item ∈ items, item.Fits) ∧ (items ≠ [] → count + items.length < 2 ^ 31) := by
  induction items generalizing count hasNulls with
  | nil => simp [encodeElements]
  | cons item items ih =>
    obtain ⟨hfits, octets, isNull, hframed⟩ | ⟨hfits, octets, err, hframed⟩ :=
      framed_cases "array element is larger than 2 GiB" item
    · by_cases hcount : count + 1 < 2 ^ 31
      · simp only [encodeElements, hframed, hcount, if_true, ih, List.forall_mem_cons, hfits,
          true_and, and_congr_right_iff]
        cases items with
        | nil => simpa using hcount
        | cons next items =>
          simp only [List.length_cons, ne_eq, reduceCtorEq, not_false_eq_true, forall_const]
          omega
      · simp only [encodeElements, hframed, hcount, if_false, reduceCtorEq, false_iff,
          List.length_cons]
        intro h
        have := h.2 (by simp)
        omega
    · simp [encodeElements, hframed, hfits]

theorem encodeFields_fits (values : List Encoding) :
    (encodeFields values).2 = .ok () ↔ ∀ value ∈ values, value.Fits := by
  induction values with
  | nil => simp [encodeFields]
  | cons value values ih =>
    obtain ⟨hfits, octets, isNull, hframed⟩ | ⟨hfits, octets, err, hframed⟩ :=
      framed_cases "COPY field is larger than 2 GiB" value
    · simp [encodeFields, hframed, hfits, ih]
    · simp [encodeFields, hframed, hfits]

/-- The values of the row encode, or there are too many of them to start with. -/
def RowFits (row : List Encoding) : Prop :=
  row.length ≤ 65535 → ∀ value ∈ row, value.Fits

/-- A row leaves a fragment exactly when it fails for one of its values: its column
count is then in the buffer. -/
theorem encodeCopyRow_cases (row : List Encoding) :
    (RowFits row ∧ ((encodeCopyRow row).2 = .ok () ∨ (encodeCopyRow row).1 = [])) ∨
      (¬RowFits row ∧ (encodeCopyRow row).2 ≠ .ok () ∧ 2 ≤ (encodeCopyRow row).1.length) := by
  by_cases hlength : row.length ≤ 65535
  · have hresult : (encodeCopyRow row).2 = (encodeFields row).2 := by
      simp [encodeCopyRow, hlength]
    have hoctets : 2 ≤ (encodeCopyRow row).1.length := by
      simp [encodeCopyRow, hlength, u16Octets]
    by_cases hfits : ∀ value ∈ row, value.Fits
    · exact .inl ⟨fun _ => hfits, .inl (hresult.trans ((encodeFields_fits row).mpr hfits))⟩
    · refine .inr ⟨fun h => hfits (h hlength), ?_, hoctets⟩
      rw [hresult]
      exact fun h => hfits ((encodeFields_fits row).mp h)
  · exact .inl ⟨fun h => absurd h hlength, .inr (by simp [encodeCopyRow, hlength])⟩

/-! ## What reaches the connection -/

def CopyInWriter.written (w : CopyInWriter) : Bytes :=
  w.sent.flatten ++ w.buf

theorem CopyInWriter.append_eq (w : CopyInWriter) (encode : Bytes × Except Error Unit) :
    (w.append encode).1.written = w.written ++ encode.1 ∧ (w.append encode).2 = encode.2 := by
  obtain ⟨octets, result⟩ := encode
  cases result with
  | error err => simp [append, written]
  | ok done =>
    by_cases hfull : (w.buf ++ octets).length < COPY_FLUSH_THRESHOLD
    · simp only [append, hfull, if_true]
      simp [written]
    · simp only [append, hfull, if_false]
      simp [written]

theorem CopyInWriter.finish_flatten (w : CopyInWriter) :
    w.finish.flatten = w.written ++ [0xff, 0xff] := by
  have hwritten := (w.append_eq ([0xff, 0xff], .ok ())).1
  rw [← hwritten]
  by_cases hbuf : (w.append ([0xff, 0xff], .ok ())).1.buf = []
  · simp only [finish, hbuf, if_true]
    simp [written, hbuf]
  · simp only [finish, hbuf, if_false]
    simp [written]

theorem CopyInWriter.writeRows_written (w : CopyInWriter) (rows : List (List Encoding)) :
    (w.writeRows rows).1.written =
      w.written ++ (rows.map fun row => (encodeCopyRow row).1).flatten := by
  induction rows generalizing w with
  | nil => simp [writeRows]
  | cons row rows ih =>
    simp only [writeRows, ih]
    simp [writeRow, append_eq]

/-! ## All or nothing -/

def accepted (result : Except Error Unit) : Bool :=
  match result with
  | .ok () => true
  | .error _ => false

def acceptedRows (rows : List (List Encoding)) : Bytes :=
  ((rows.filter fun row => accepted (encodeCopyRow row).2).map fun row =>
    (encodeCopyRow row).1).flatten

theorem accepted_iff (result : Except Error Unit) : accepted result = true ↔ result = .ok () := by
  cases result with
  | error err => simp [accepted]
  | ok done => simp [accepted]

theorem acceptedRows_cons (row : List Encoding) (rows : List (List Encoding)) :
    acceptedRows (row :: rows) =
      (if accepted (encodeCopyRow row).2 then (encodeCopyRow row).1 else []) ++
        acceptedRows rows := by
  by_cases hrow : accepted (encodeCopyRow row).2 = true
  · simp [acceptedRows, hrow]
  · simp [acceptedRows, hrow]

theorem acceptedRows_cons_fits (row : List Encoding) (rows : List (List Encoding))
    (h : RowFits row) :
    acceptedRows (row :: rows) = (encodeCopyRow row).1 ++ acceptedRows rows := by
  rw [acceptedRows_cons]
  obtain ⟨_, hok | hnil⟩ | ⟨hfits, _⟩ := encodeCopyRow_cases row
  · rw [if_pos ((accepted_iff _).mpr hok)]
  · rw [hnil, ite_self]
  · exact absurd h hfits

theorem acceptedRows_eq (rows : List (List Encoding)) (h : ∀ row ∈ rows, RowFits row) :
    (rows.map fun row => (encodeCopyRow row).1).flatten = acceptedRows rows := by
  induction rows with
  | nil => rfl
  | cons row rows ih =>
    have hrest := ih fun other hmem => h other (List.mem_cons_of_mem _ hmem)
    rw [acceptedRows_cons_fits row rows (h row List.mem_cons_self), ← hrest]
    rfl

theorem acceptedRows_length (rows : List (List Encoding)) :
    (acceptedRows rows).length ≤ (rows.map fun row => (encodeCopyRow row).1).flatten.length := by
  induction rows with
  | nil => simp [acceptedRows]
  | cons row rows ih =>
    rw [acceptedRows_cons, List.map_cons, List.flatten_cons, List.length_append,
      List.length_append]
    split
    · omega
    · simp only [List.length_nil]
      omega

theorem acceptedRows_length_lt (rows : List (List Encoding)) (h : ∃ row ∈ rows, ¬RowFits row) :
    (acceptedRows rows).length < (rows.map fun row => (encodeCopyRow row).1).flatten.length := by
  induction rows with
  | nil => simp at h
  | cons row rows ih =>
    obtain ⟨bad, hmem, hbad⟩ := h
    have hle := acceptedRows_length rows
    rw [List.map_cons, List.flatten_cons, List.length_append]
    by_cases hrow : RowFits row
    · rw [acceptedRows_cons_fits row rows hrow, List.length_append]
      obtain rfl | hmem := List.mem_cons.mp hmem
      · exact absurd hrow hbad
      · have := ih ⟨bad, hmem, hbad⟩
        omega
    · obtain ⟨hfits, _⟩ | ⟨_, hfailed, hoctets⟩ := encodeCopyRow_cases row
      · exact absurd hfits hrow
      · rw [acceptedRows_cons, if_neg fun h => hfailed ((accepted_iff _).mp h),
          List.nil_append]
        omega

/-- The stream of a whole `COPY`: header, accepted rows, trailer, and no failed row
adds an octet, exactly when the only rows that fail are those with too many
columns. -/
theorem copy_all_or_nothing_iff (rows : List (List Encoding)) :
    ((copyIn.writeRows rows).1.finish.flatten = COPY_HEADER ++ acceptedRows rows ++ [0xff, 0xff] ∧
        ∀ (w : CopyInWriter) (row : List Encoding), row ∈ rows →
          (w.writeRow row).2 ≠ .ok () → (w.writeRow row).1.written = w.written) ↔
      ∀ row ∈ rows, RowFits row := by
  have hstream : (copyIn.writeRows rows).1.finish.flatten =
      COPY_HEADER ++ (rows.map fun row => (encodeCopyRow row).1).flatten ++ [0xff, 0xff] := by
    rw [CopyInWriter.finish_flatten, CopyInWriter.writeRows_written]
    simp [CopyInWriter.written, copyIn]
  rw [hstream]
  constructor
  · rintro ⟨h, _⟩
    by_contra hrows
    push Not at hrows
    have hlength := congrArg List.length h
    have hlt := acceptedRows_length_lt rows hrows
    simp only [List.length_append] at hlength
    omega
  · intro h
    refine ⟨by rw [acceptedRows_eq rows h], ?_⟩
    intro w row hmem hfailed
    obtain ⟨hwritten, hresult⟩ := w.append_eq (encodeCopyRow row)
    simp only [CopyInWriter.writeRow, hwritten, hresult] at hfailed ⊢
    obtain ⟨_, hok | hnil⟩ | ⟨hfits, _⟩ := encodeCopyRow_cases row
    · exact absurd hok hfailed
    · simp [hnil]
    · exact absurd (h row hmem) hfits

/-- A row of the `i32` 5 and a lazy array of one `i32`, written twice: the second
time the iterator is spent. -/
theorem copy_leaves_fragment :
    (copyIn.writeRows [[⟨i32Octets 5, .ok .notNull⟩, encodeArray [⟨i32Octets 1, .ok .notNull⟩] 23],
      [⟨i32Octets 5, .ok .notNull⟩,
        ⟨[], .error (.encode "array iterator has already been consumed")⟩]]).1.finish.flatten ≠
    COPY_HEADER ++
      acceptedRows [[⟨i32Octets 5, .ok .notNull⟩, encodeArray [⟨i32Octets 1, .ok .notNull⟩] 23],
        [⟨i32Octets 5, .ok .notNull⟩,
          ⟨[], .error (.encode "array iterator has already been consumed")⟩]] ++
      [0xff, 0xff] := by
  decide

end Stdx.Postgresql
