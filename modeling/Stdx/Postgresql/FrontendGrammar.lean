import Stdx.Postgresql.Frontend

/-!
# The message grammar

What a server reads: a tag, a length that counts itself, and a body of NUL-terminated
strings, integers and counted fields, with nothing behind them.  The tag of a password message
says which kind it is only together with the authentication request before it.
-/

namespace Stdx.Postgresql.Frontend

open Stdx.Foundation

inductive Message where
  | query (sql : Bytes)
  | parse (name sql : Bytes) (paramOids : List Nat)
  | bind (portal statement : Bytes) (formats : List Nat) (values : List (Option Bytes))
      (resultFormats : List Nat)
  | describe (kind : UInt8) (name : Bytes)
  | execute (portal : Bytes) (maxRows : Int)
  | close (kind : UInt8) (name : Bytes)
  | password (text : Bytes)
  | saslInitialResponse (mechanism : Bytes) (data : Option Bytes)
  | copyData (data : Bytes)
  | copyFail (message : Bytes)
  | sync
  deriving DecidableEq

inductive Asked where
  | password
  | sasl

/-! ## Readers -/

abbrev Reader (α : Type) := StateT Bytes Option α

def readOctets (count : Nat) : Reader Bytes := fun buf =>
  if count ≤ buf.length then some (buf.take count, buf.drop count) else none

def readNat (count : Nat) : Reader Nat := fun buf =>
  (readOctets count buf).map fun read => (beValue read.1, read.2)

def readInt : Reader Int := fun buf =>
  (readOctets 4 buf).map fun read => (readI32 buf 0, read.2)

def readCstr : Reader Bytes
  | [] => none
  | octet :: rest =>
    if octet = 0x00 then some ([], rest)
    else (readCstr rest).map fun read => (octet :: read.1, read.2)

def readMany {α : Type} (read : Reader α) : Nat → Reader (List α)
  | 0 => pure []
  | count + 1 => do
      let first ← read
      let rest ← readMany read count
      pure (first :: rest)

def readValue : Reader (Option Bytes) := do
  let len ← readInt
  if len = -1 then pure none
  else if len < 0 then failure
  else do
    let value ← readOctets len.toNat
    pure (some value)

def readCounted {α : Type} (read : Reader α) : Reader (List α) := do
  let count ← readNat 2
  readMany read count

def readTag : Reader UInt8
  | [] => none
  | octet :: rest => some (octet, rest)

def readBody (asked : Asked) (tag : UInt8) : Reader Message :=
  if tag = 0x51 then do
    let sql ← readCstr
    pure (.query sql)
  else if tag = 0x50 then do
    let name ← readCstr
    let sql ← readCstr
    let paramOids ← readCounted (readNat 4)
    pure (.parse name sql paramOids)
  else if tag = 0x42 then do
    let portal ← readCstr
    let statement ← readCstr
    let formats ← readCounted (readNat 2)
    let values ← readCounted readValue
    let resultFormats ← readCounted (readNat 2)
    pure (.bind portal statement formats values resultFormats)
  else if tag = 0x44 then do
    let kind ← readTag
    let name ← readCstr
    pure (.describe kind name)
  else if tag = 0x45 then do
    let portal ← readCstr
    let maxRows ← readInt
    pure (.execute portal maxRows)
  else if tag = 0x43 then do
    let kind ← readTag
    let name ← readCstr
    pure (.close kind name)
  else if tag = 0x70 then
    match asked with
    | .password => do
        let text ← readCstr
        pure (.password text)
    | .sasl => do
        let mechanism ← readCstr
        let data ← readValue
        pure (.saslInitialResponse mechanism data)
  else if tag = 0x64 then fun buf => some (.copyData buf, [])
  else if tag = 0x66 then do
    let message ← readCstr
    pure (.copyFail message)
  else if tag = 0x53 then pure .sync
  else failure

def readFrame (asked : Asked) : Reader Message := do
  let tag ← readTag
  let len ← readInt
  if len < 4 then failure
  else do
    let body ← readOctets (len.toNat - 4)
    match readBody asked tag body with
    | some (message, []) => pure message
    | _ => failure

def readFrames : List Asked → Reader (List Message)
  | [] => pure []
  | asked :: rest => do
      let message ← readFrame asked
      let messages ← readFrames rest
      pure (message :: messages)

/-! ## What a call asks for -/

def Call.asked : Call → Asked
  | .saslInitialResponse _ _ => .sasl
  | _ => .password

def Call.message : Call → Message
  | .query sql => .query sql
  | .parse name sql paramOids => .parse name sql (paramOids.map UInt32.toNat)
  | .bind portal statement paramCount values resultFormat =>
    .bind portal statement (List.replicate paramCount Format.binary.code) values
      [resultFormat.code]
  | .describe kind name => .describe kind name
  | .execute portal maxRows => .execute portal maxRows.toInt
  | .close kind name => .close kind name
  | .password text => .password text
  | .saslInitialResponse mechanism data => .saslInitialResponse mechanism (some data)
  | .copyData data => .copyData data
  | .copyFail message => .copyFail message
  | .sync => .sync

/-- No string holds a NUL. -/
def Message.Plain : Message → Prop
  | .query sql => 0x00 ∉ sql
  | .parse name sql _ => 0x00 ∉ name ∧ 0x00 ∉ sql
  | .bind portal statement _ _ _ => 0x00 ∉ portal ∧ 0x00 ∉ statement
  | .describe _ name => 0x00 ∉ name
  | .execute portal _ => 0x00 ∉ portal
  | .close _ name => 0x00 ∉ name
  | .password text => 0x00 ∉ text
  | .saslInitialResponse mechanism _ => 0x00 ∉ mechanism
  | .copyData _ => True
  | .copyFail message => 0x00 ∉ message
  | .sync => True

/-- As many values follow as were announced. -/
def Call.Counted : Call → Prop
  | .bind _ _ paramCount values _ => values.length = paramCount
  | _ => True

def Call.Plain (call : Call) : Prop := call.message.Plain ∧ call.Counted

/-! ## What is written is read -/

theorem run_bind {α β : Type} (first : Reader α) (next : α → Reader β) (buf : Bytes) :
    (first >>= next) buf = (first buf).bind fun read => next read.1 read.2 := rfl

theorem run_map {α β : Type} (f : α → β) (reader : Reader α) (buf : Bytes) :
    (f <$> reader) buf = (reader buf).map fun read => (f read.1, read.2) := by
  change (reader buf).bind _ = _
  cases reader buf <;> rfl

theorem run_pure {α : Type} (value : α) (buf : Bytes) :
    (pure value : Reader α) buf = some (value, buf) := rfl

theorem readOctets_append (octets rest : Bytes) :
    readOctets octets.length (octets ++ rest) = some (octets, rest) := by
  rw [readOctets, if_pos (by rw [List.length_append]; omega), List.take_left, List.drop_left]

theorem readNat_append {count n : Nat} (h : n < 256 ^ count) (rest : Bytes) :
    readNat count (fixedOctets count n ++ rest) = some (n, rest) := by
  have hread := readOctets_append (fixedOctets count n) rest
  rw [fixedOctets_length] at hread
  rw [readNat, hread, Option.map_some, beValue_fixedOctets, Nat.mod_eq_of_lt h]

theorem readInt_append {value : Int} (hlow : -2 ^ 31 ≤ value) (hhigh : value < 2 ^ 31)
    (rest : Bytes) : readInt (i32Octets value ++ rest) = some (value, rest) := by
  have hread := readOctets_append (i32Octets value) rest
  rw [i32Octets_length] at hread
  rw [readInt, hread, Option.map_some, @readI32_octets _ rest _ _ rfl hlow hhigh]

theorem readCstr_append {s : Bytes} (h : 0x00 ∉ s) (rest : Bytes) :
    readCstr (cstr s ++ rest) = some (s, rest) := by
  induction s with
  | nil => rfl
  | cons octet s ih =>
    rw [List.mem_cons, not_or] at h
    have hrest := ih h.2
    rw [cstr] at hrest
    rw [cstr, List.cons_append, List.cons_append, readCstr, if_neg (fun heq => h.1 heq.symm),
      hrest, Option.map_some]

theorem readCstr_plain {buf s rest : Bytes} (h : readCstr buf = some (s, rest)) : 0x00 ∉ s := by
  induction buf generalizing s with
  | nil => simp [readCstr] at h
  | cons octet buf ih =>
    rw [readCstr] at h
    split at h
    · simp only [Option.some.injEq, Prod.mk.injEq] at h
      simp [← h.1]
    · next hne =>
      obtain ⟨⟨tail, left⟩, hread, heq⟩ := Option.map_eq_some_iff.mp h
      simp only [Prod.mk.injEq] at heq
      rw [← heq.1, List.mem_cons, not_or]
      exact ⟨fun hzero => hne hzero.symm, ih (by rw [hread, heq.2])⟩

theorem readMany_append {α : Type} {read : Reader α} {put : α → Bytes} {values : List α}
    (h : ∀ value ∈ values, ∀ rest, read (put value ++ rest) = some (value, rest)) (rest : Bytes) :
    readMany read values.length (values.flatMap put ++ rest) = some (values, rest) := by
  induction values with
  | nil => rfl
  | cons value values ih =>
    rw [List.length_cons, readMany, run_bind, List.flatMap_cons, List.append_assoc,
      h value List.mem_cons_self]
    simp only [Option.bind_some, run_bind]
    rw [ih fun other hmem => h other (List.mem_cons_of_mem _ hmem)]
    rfl

theorem readMany_length {α : Type} {read : Reader α} {count : Nat} {buf rest : Bytes}
    {values : List α} (h : readMany read count buf = some (values, rest)) :
    values.length = count := by
  induction count generalizing buf values with
  | zero =>
    cases h
    rfl
  | succ count ih =>
    rw [readMany, run_bind] at h
    obtain ⟨⟨first, left⟩, _, h⟩ := Option.bind_eq_some_iff.mp h
    rw [run_bind] at h
    obtain ⟨⟨others, last⟩, hread, h⟩ := Option.bind_eq_some_iff.mp h
    cases h
    rw [List.length_cons, ih hread]

theorem readCounted_append {α : Type} {read : Reader α} {put : α → Bytes} {values : List α}
    (h : ∀ value ∈ values, ∀ rest, read (put value ++ rest) = some (value, rest))
    (hcount : values.length < 2 ^ 16) (rest : Bytes) :
    readCounted read (u16Octets values.length ++ (values.flatMap put ++ rest)) =
      some (values, rest) := by
  rw [readCounted, run_bind, u16Octets, readNat_append (by omega)]
  exact readMany_append h rest

theorem readValue_append {value : Option Bytes} (h : ∀ v, value = some v → v.length < 2 ^ 31)
    (rest : Bytes) : readValue (fieldOctets value ++ rest) = some (value, rest) := by
  rw [readValue, run_bind]
  cases value with
  | none =>
    rw [fieldOctets, readInt_append (by omega) (by omega)]
    rfl
  | some v =>
    have hlength := h v rfl
    rw [fieldOctets, List.append_assoc, readInt_append (by omega) (by omega)]
    simp only [Option.bind_some]
    rw [if_neg (by omega), if_neg (by omega), Int.toNat_natCast, run_bind, readOctets_append]
    rfl

theorem fieldsOctets_fit {values : List (Option Bytes)} {limit : Nat}
    (h : (fieldsOctets values).length < limit) :
    ∀ value ∈ values, ∀ v, value = some v → v.length < limit := by
  induction values with
  | nil => simp
  | cons value values ih =>
    rw [fieldsOctets_cons, List.length_append] at h
    intro other hmem v hv
    rcases List.mem_cons.mp hmem with rfl | hmem
    · subst hv
      rw [fieldOctets, List.length_append] at h
      omega
    · exact ih (by omega) other hmem v hv

theorem readCodes_append (count : Nat) (hcount : count < 2 ^ 16) (format : Format) (rest : Bytes) :
    readCounted (readNat 2) (u16Octets count ++
      ((List.replicate count (u16Octets format.code)).flatten ++ rest)) =
        some (List.replicate count format.code, rest) := by
  have hcode : format.code < 256 ^ 2 := by cases format <;> decide
  have hread := @readCounted_append _ (readNat 2) u16Octets (List.replicate count format.code)
    (fun value hmem rest => by
      rw [List.eq_of_mem_replicate hmem]
      exact readNat_append hcode rest) (by rwa [List.length_replicate]) rest
  rwa [List.length_replicate, List.flatMap_def, List.map_replicate] at hread

theorem readOids_append {paramOids : List UInt32} (hcount : paramOids.length < 2 ^ 16)
    (rest : Bytes) :
    readCounted (readNat 4) (u16Octets paramOids.length ++
      ((paramOids.flatMap fun oid => fixedOctets 4 oid.toNat) ++ rest)) =
        some (paramOids.map UInt32.toNat, rest) := by
  have hread := @readCounted_append _ (readNat 4) (fixedOctets 4) (paramOids.map UInt32.toNat)
    (fun value hmem rest => by
      obtain ⟨oid, _, rfl⟩ := List.mem_map.mp hmem
      exact readNat_append (by have := oid.toNat_lt; omega) rest) (by rwa [List.length_map])
    rest
  rwa [List.length_map, List.flatMap_map] at hread

theorem bind_code (format : Format) (rest : Bytes) :
    readCounted (readNat 2) (u16Octets 1 ++ (u16Octets format.code ++ rest)) =
      some ([format.code], rest) := by
  have hread := readCodes_append 1 (by omega) format rest
  simpa using hread

theorem readBody_append {call : Call} (hplain : call.Plain) (hfits : call.Fits) :
    readBody call.asked call.tag call.body = some (call.message, []) := by
  obtain ⟨hlength, hcount⟩ := hfits
  obtain ⟨hplain, hcounted⟩ := hplain
  cases call with
  | query sql =>
    have hsql := readCstr_append hplain []
    rw [List.append_nil] at hsql
    simp [readBody, Call.tag, Call.body, Call.message, run_bind, run_pure, hsql]
  | parse name sql paramOids =>
    have hoids := readOids_append hcount []
    rw [List.append_nil] at hoids
    simp only [Call.body, List.append_assoc]
    simp [readBody, Call.tag, Call.message, run_bind, run_map, readCstr_append hplain.1,
      readCstr_append hplain.2, hoids]
  | bind portal statement paramCount values resultFormat =>
    obtain ⟨hportal, hstatement⟩ := hplain
    obtain rfl : values.length = paramCount := hcounted
    have hvalues := @readCounted_append _ readValue fieldOctets values
      (fun value hmem => readValue_append (fieldsOctets_fit (by
        simp only [Call.body, List.length_append] at hlength
        omega) value hmem)) hcount
    have hlast := bind_code resultFormat []
    rw [List.append_nil] at hlast
    simp only [Call.body, List.append_assoc, fieldsOctets]
    simp [readBody, Call.tag, Call.message, run_bind, run_map, readCstr_append hportal,
      readCstr_append hstatement, readCodes_append _ hcount, hvalues, hlast]
  | describe kind name =>
    have hname := readCstr_append hplain []
    rw [List.append_nil] at hname
    simp [readBody, Call.tag, Call.body, Call.message, run_bind, run_map, readTag, hname]
  | execute portal maxRows =>
    have hrows := readInt_append maxRows.le_toInt maxRows.toInt_lt []
    rw [List.append_nil] at hrows
    simp [readBody, Call.tag, Call.body, Call.message, run_bind, run_map,
      readCstr_append hplain, hrows]
  | close kind name =>
    have hname := readCstr_append hplain []
    rw [List.append_nil] at hname
    simp [readBody, Call.tag, Call.body, Call.message, run_bind, run_map, readTag, hname]
  | password text =>
    have htext := readCstr_append hplain []
    rw [List.append_nil] at htext
    simp [readBody, Call.tag, Call.body, Call.message, Call.asked, run_bind, run_pure, htext]
  | saslInitialResponse mechanism data =>
    simp only [Call.body, List.length_append] at hlength
    have hdata := @readValue_append (some data) (fun v hv => by cases hv; omega) []
    rw [List.append_nil, fieldOctets] at hdata
    simp [readBody, Call.tag, Call.body, Call.message, Call.asked, run_bind, run_map,
      readCstr_append hplain, hdata]
  | copyData data => simp [readBody, Call.tag, Call.body, Call.message]
  | copyFail message =>
    have hmessage := readCstr_append hplain []
    rw [List.append_nil] at hmessage
    simp [readBody, Call.tag, Call.body, Call.message, run_bind, run_pure, hmessage]
  | sync =>
    simp [readBody, Call.tag, Call.body, Call.message, run_pure]

theorem readFrame_append (asked : Asked) (tag : UInt8) {body : Bytes}
    (h : 4 + body.length < 2 ^ 31) (rest : Bytes) :
    readFrame asked (frame tag body ++ rest) =
      match readBody asked tag body with
      | some (message, []) => some (message, rest)
      | _ => none := by
  have hlength : (((4 + body.length : Nat) : Int).toNat - 4) = body.length := by omega
  rw [readFrame, run_bind, frame, List.append_assoc, List.cons_append, readTag]
  simp only [Option.bind_some]
  rw [run_bind, readInt_append (by omega) (by omega)]
  simp only [Option.bind_some]
  rw [if_neg (by omega), run_bind, hlength, readOctets_append]
  simp only [Option.bind_some]
  rcases readBody asked tag body with _ | ⟨message, _ | ⟨octet, left⟩⟩
  · rfl
  · rfl
  · rfl

/-! ## What is read was written -/

theorem readCstr_bind {β : Type} {next : Bytes → Reader β} {buf : Bytes} {value : β × Bytes}
    (h : (readCstr >>= next) buf = some value) :
    ∃ s rest, 0x00 ∉ s ∧ next s rest = some value := by
  rw [run_bind] at h
  obtain ⟨⟨s, rest⟩, hread, hnext⟩ := Option.bind_eq_some_iff.mp h
  exact ⟨s, rest, readCstr_plain hread, hnext⟩

theorem readBody_plain {call : Call} {body rest : Bytes}
    (h : readBody call.asked call.tag body = some (call.message, rest)) : call.message.Plain := by
  cases call with
  | query sql =>
    obtain ⟨_, _, hs, heq⟩ := readCstr_bind h
    cases heq
    exact hs
  | parse name sql paramOids =>
    obtain ⟨_, _, hname, h⟩ := readCstr_bind h
    obtain ⟨_, _, hsql, h⟩ := readCstr_bind h
    obtain ⟨⟨_, _⟩, _, heq⟩ := Option.bind_eq_some_iff.mp h
    cases heq
    exact ⟨hname, hsql⟩
  | bind portal statement paramCount values resultFormat =>
    obtain ⟨_, _, hportal, h⟩ := readCstr_bind h
    obtain ⟨_, _, hstatement, h⟩ := readCstr_bind h
    obtain ⟨⟨_, _⟩, _, h⟩ := Option.bind_eq_some_iff.mp h
    obtain ⟨⟨_, _⟩, _, h⟩ := Option.bind_eq_some_iff.mp h
    obtain ⟨⟨_, _⟩, _, heq⟩ := Option.bind_eq_some_iff.mp h
    cases heq
    exact ⟨hportal, hstatement⟩
  | describe kind name =>
    obtain ⟨⟨_, _⟩, _, h⟩ := Option.bind_eq_some_iff.mp h
    obtain ⟨_, _, hs, heq⟩ := readCstr_bind h
    cases heq
    exact hs
  | execute portal maxRows =>
    obtain ⟨_, _, hs, h⟩ := readCstr_bind h
    obtain ⟨⟨_, _⟩, _, heq⟩ := Option.bind_eq_some_iff.mp h
    cases heq
    exact hs
  | close kind name =>
    obtain ⟨⟨_, _⟩, _, h⟩ := Option.bind_eq_some_iff.mp h
    obtain ⟨_, _, hs, heq⟩ := readCstr_bind h
    cases heq
    exact hs
  | password text =>
    obtain ⟨_, _, hs, heq⟩ := readCstr_bind h
    cases heq
    exact hs
  | saslInitialResponse mechanism data =>
    obtain ⟨_, _, hs, h⟩ := readCstr_bind h
    obtain ⟨⟨_, _⟩, _, heq⟩ := Option.bind_eq_some_iff.mp h
    cases heq
    exact hs
  | copyData data => trivial
  | copyFail message =>
    obtain ⟨_, _, hs, heq⟩ := readCstr_bind h
    cases heq
    exact hs
  | sync => trivial

theorem readBody_count {portal statement : Bytes} {paramCount : Nat}
    {values : List (Option Bytes)} {resultFormat : Format} {rest : Bytes}
    (hcount : paramCount < 2 ^ 16) (hportal : 0x00 ∉ portal) (hstatement : 0x00 ∉ statement)
    (h : readBody .password 0x42 (Call.bind portal statement paramCount values resultFormat).body =
      some ((Call.bind portal statement paramCount values resultFormat).message, rest)) :
    values.length = paramCount := by
  simp only [Call.body, List.append_assoc] at h
  rw [readBody, if_neg (by decide), if_neg (by decide), if_pos rfl, run_bind,
    readCstr_append hportal] at h
  simp only [Option.bind_some] at h
  rw [run_bind, readCstr_append hstatement] at h
  simp only [Option.bind_some] at h
  rw [run_bind, readCodes_append _ hcount] at h
  simp only [Option.bind_some] at h
  obtain ⟨⟨others, left⟩, hread, h⟩ := Option.bind_eq_some_iff.mp h
  obtain ⟨⟨_, _⟩, _, heq⟩ := Option.bind_eq_some_iff.mp h
  cases heq
  rw [readCounted, run_bind, u16Octets, readNat_append (by omega)] at hread
  exact readMany_length hread

theorem plain_of_readBody {call : Call} (hfits : call.Fits) {rest : Bytes}
    (h : readBody call.asked call.tag call.body = some (call.message, rest)) : call.Plain := by
  have hplain := readBody_plain h
  refine ⟨hplain, ?_⟩
  cases call with
  | bind portal statement paramCount values resultFormat =>
    exact readBody_count hfits.2 hplain.1 hplain.2 h
  | _ => trivial

/-! ## Batches -/

/-- Every call fails or appends one frame that reads as the call, and a batch of calls that
all succeed reads as the calls in order. -/
def SaysWhatWasAsked (calls : List Call) : Prop :=
  ∀ buf : Bytes,
    (∀ front call back, calls = front ++ call :: back →
      (∃ err, (call.encode (encodeAll buf front)).2 = .error err) ∨
      ∃ octets, call.encode (encodeAll buf front) = (encodeAll buf front ++ octets, .ok ()) ∧
        ∀ rest, readFrame call.asked (octets ++ rest) = some (call.message, rest)) ∧
    ((∀ front call back, calls = front ++ call :: back →
        (call.encode (encodeAll buf front)).2 = .ok ()) →
      ∃ octets, encodeAll buf calls = buf ++ octets ∧
        readFrames (calls.map Call.asked) octets = some (calls.map Call.message, []))

theorem readFrame_call {call : Call} (hfits : call.Fits) (hplain : call.Plain) (rest : Bytes) :
    readFrame call.asked (frame call.tag call.body ++ rest) = some (call.message, rest) := by
  rw [readFrame_append _ _ hfits.1, readBody_append hplain hfits]

theorem encodeAll_reads {calls : List Call} {buf : Bytes}
    (hplain : ∀ call ∈ calls, call.Fits → call.Plain)
    (hok : ∀ front call back, calls = front ++ call :: back →
      (call.encode (encodeAll buf front)).2 = .ok ()) :
    ∃ octets, encodeAll buf calls = buf ++ octets ∧
      readFrames (calls.map Call.asked) octets = some (calls.map Call.message, []) := by
  induction calls generalizing buf with
  | nil => exact ⟨[], by simp [encodeAll], rfl⟩
  | cons call calls ih =>
    have hfirst := hok [] call calls rfl
    obtain ⟨hfits, hencode⟩ | ⟨_, err, herr⟩ := encode_cases buf call
    · obtain ⟨octets, hall, hread⟩ := @ih (call.encode buf).1
        (fun other hmem => hplain other (List.mem_cons_of_mem _ hmem))
        (fun front other back heq => hok (call :: front) other back (by rw [heq]; rfl))
      refine ⟨frame call.tag call.body ++ octets, ?_, ?_⟩
      · rw [encodeAll, hall, hencode, List.append_assoc]
      · rw [List.map_cons, readFrames, run_bind,
          readFrame_call hfits (hplain call List.mem_cons_self hfits)]
        simp only [Option.bind_some]
        rw [run_bind, hread]
        rfl
    · rw [encodeAll] at hfirst
      rw [hfirst] at herr
      simp at herr

/-- The frames say what was asked exactly when the strings of the calls that fit hold no NUL
and as many values are written as were announced. -/
theorem frames_say_iff (calls : List Call) :
    SaysWhatWasAsked calls ↔ ∀ call ∈ calls, call.Fits → call.Plain := by
  constructor
  · intro h call hmem hfits
    obtain ⟨front, back, hcalls⟩ := List.append_of_mem hmem
    have hcases := (h []).1 front call back hcalls
    obtain ⟨_, hencode⟩ | ⟨hlarge, _⟩ := encode_cases (encodeAll [] front) call
    · rw [hencode] at hcases
      obtain ⟨err, herr⟩ | ⟨octets, hoctets, hread⟩ := hcases
      · simp at herr
      · simp only [Prod.mk.injEq, List.append_cancel_left_eq, and_true] at hoctets
        have hframe := hread []
        rw [← hoctets, readFrame_append _ _ hfits.1] at hframe
        split at hframe
        · next message hbody =>
          simp only [Option.some.injEq, Prod.mk.injEq, and_true] at hframe
          rw [hframe] at hbody
          exact plain_of_readBody hfits hbody
        · simp at hframe
    · exact absurd hfits hlarge
  · intro hplain buf
    constructor
    · intro front call back hcalls
      obtain ⟨hfits, hencode⟩ | ⟨_, herr⟩ := encode_cases (encodeAll buf front) call
      · have hmem : call ∈ calls := by simp [hcalls]
        exact .inr ⟨_, hencode, readFrame_call hfits (hplain call hmem hfits)⟩
      · exact .inl herr
    · exact encodeAll_reads hplain

/-- The NUL ends the text early: the server is left with two octets too many. -/
theorem query_nul_cut : ¬SaysWhatWasAsked [.query [0x61, 0x00, 0x62]] := by
  intro h
  obtain ⟨err, herr⟩ | ⟨octets, hoctets, hread⟩ :=
    (h []).1 [] (.query [0x61, 0x00, 0x62]) [] rfl
  · exact absurd herr (by simp [encodeAll, Call.encode, query, tagged, finish, begin, cstr,
      length32])
  · have hencode : Call.encode [] (.query [0x61, 0x00, 0x62]) =
        ([0x51, 0, 0, 0, 8, 0x61, 0x00, 0x62, 0x00], .ok ()) := by decide
    rw [encodeAll, hencode] at hoctets
    simp only [List.nil_append, Prod.mk.injEq, and_true] at hoctets
    have hframe := hread []
    rw [← hoctets] at hframe
    exact absurd hframe (by decide)

end Stdx.Postgresql.Frontend
