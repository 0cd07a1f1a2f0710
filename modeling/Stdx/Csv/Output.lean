import Stdx.Csv.RoundTrip

/-!
# The output of a writer

The calls of a `Writer`, in any order.  `captured` and `recordOf` say what a serialized
value is as a record, without the scratch values; the sink and the buffer together are
always the records of the accepted calls.
-/

namespace Stdx.Csv

open Stdx.Foundation

/-! ## Serialized records -/

@[grind =]
def captured (value : Value) : Option Bytes :=
  match captureField [] value with
  | (.ok _, text) => some text
  | (.error _, _) => none

def columnText (headers : List String) (fields : List (String × Value)) (before : Bytes)
    (column : Nat) : Bytes :=
  (fields.filter fun field => headers.idxOf field.1 == column).getLast?.elim before
    fun field => (captured field.2).getD []

def firstColumn (columns : Nat) (text : Bytes) : List Bytes :=
  (List.range columns).map fun column => if column = 0 then text else []

@[grind =]
def recordOf (headers : List String) : Value → Option (List Bytes)
  | .some value => recordOf headers value
  | .newtypeStruct value => recordOf headers value
  | .sequence _ elements failure =>
    if failure = none ∧ elements.length = headers.length ∧
        elements.all fun value => (captured value).isSome then
      some (elements.map fun value => (captured value).getD [])
    else none
  | .struct fields failure =>
    if failure = none ∧ fields.all fun field =>
        field.1 ∈ headers ∧ (captured field.2).isSome then
      some ((List.range headers.length).map (columnText headers fields []))
    else none
  | value => (captured value).map (firstColumn headers.length)

def columns (values : List (Option Bytes)) : List Bytes := values.map (Option.getD · [])

@[simp] theorem columns_length (values : List (Option Bytes)) :
    (columns values).length = values.length := List.length_map _

theorem captureAt_captured {value : Value} {text : Bytes} (values : List (Option Bytes))
    (pos : Nat) (h : captured value = some text) :
    captureAt values pos value = (.ok (), values.set pos (some text)) := by
  rw [captured] at h
  rw [captureAt]
  cases hcapture : captureField [] value with
  | mk result slot =>
    rw [hcapture] at h
    cases result with
    | error message => cases h
    | ok _ => rw [Option.some.inj h]

theorem captureAt_failed {value : Value} (values : List (Option Bytes)) (pos : Nat)
    (h : captured value = none) :
    ∃ message slot, captureAt values pos value = (.error message, values.set pos (some slot)) := by
  rw [captured] at h
  cases hcapture : captureField [] value with
  | mk result slot =>
    rw [hcapture] at h
    cases result with
    | error message => exact ⟨message, slot, by rw [captureAt, hcapture]⟩
    | ok _ => cases h

theorem collectFields_spec (headers : List String) (values : List (Option Bytes))
    (fields : List (String × Value)) (hlen : values.length = headers.length) :
    match collectFields headers values fields with
    | (.ok _, after) => after.length = headers.length ∧
        (∀ field ∈ fields, field.1 ∈ headers ∧ (captured field.2).isSome) ∧
        ∀ column < headers.length,
          (columns after).getD column [] =
            columnText headers fields ((columns values).getD column []) column
    | (.error _, after) => after.length = headers.length ∧
        ¬ ∀ field ∈ fields, field.1 ∈ headers ∧ (captured field.2).isSome := by
  induction fields generalizing values with
  | nil =>
    rw [collectFields]
    exact ⟨hlen, by simp, fun column _ => rfl⟩
  | cons field fields ih =>
    obtain ⟨key, value⟩ := field
    rw [collectFields]
    by_cases hkey : headers.idxOf key < headers.length
    · rw [if_pos hkey]
      have hmem : key ∈ headers := List.idxOf_lt_length_iff.mp hkey
      cases htext : captured value with
      | none =>
        obtain ⟨message, slot, hcapture⟩ :=
          captureAt_failed values (headers.idxOf key) htext
        rw [hcapture]
        refine ⟨by simpa using hlen, fun h => ?_⟩
        have := (h (key, value) List.mem_cons_self).2
        rw [htext] at this
        cases this
      | some text =>
        rw [captureAt_captured values _ htext]
        have hnext := ih (values.set (headers.idxOf key) (some text)) (by simpa using hlen)
        simp only
        cases hrest : collectFields headers (values.set (headers.idxOf key) (some text))
            fields with
        | mk result after =>
          rw [hrest] at hnext
          cases result with
          | error message =>
            refine ⟨hnext.1, fun h => hnext.2 fun f hf => h f ?_⟩
            exact List.mem_cons_of_mem _ hf
          | ok _ =>
            obtain ⟨hafter, hall, hcolumns⟩ := hnext
            refine ⟨hafter, ?_, fun column hcolumn => ?_⟩
            · intro f hf
              rcases List.mem_cons.mp hf with rfl | hf
              · exact ⟨hmem, by rw [htext]; rfl⟩
              · exact hall f hf
            · rw [hcolumns column hcolumn, columnText, columnText, List.filter_cons]
              have hset : (columns (values.set (headers.idxOf key) (some text))).getD
                  column [] = if headers.idxOf key = column then text
                    else (columns values).getD column [] := by
                rw [columns, List.map_set, List.getD_eq_getElem?_getD,
                  List.getElem?_set, List.getD_eq_getElem?_getD]
                have hlt : column < values.length := by omega
                split
                · next => simp [hkey, hlen]
                · rfl
              by_cases hhere : headers.idxOf key = column
              · rw [hset, if_pos hhere, if_pos (beq_iff_eq.mpr hhere), List.getLast?_cons]
                cases (fields.filter fun field =>
                    headers.idxOf field.1 == column).getLast? with
                | none => simp [htext]
                | some last => simp
              · rw [hset, if_neg hhere, if_neg (by simpa using hhere)]
    · rw [if_neg hkey]
      refine ⟨hlen, fun h => hkey ?_⟩
      exact List.idxOf_lt_length_iff.mpr (h (key, value) List.mem_cons_self).1

theorem writeElements_spec (idx : Nat) (values : List (Option Bytes)) (elements : List Value)
    (hidx : idx ≤ values.length) :
    match writeElements idx values elements with
    | (.ok stop, after) => after.length = values.length ∧ stop = idx + elements.length ∧
        (∀ value ∈ elements, (captured value).isSome) ∧
        (stop = values.length → columns after = (columns values).take idx ++
          elements.map fun value => (captured value).getD [])
    | (.error _, after) => after.length = values.length ∧
        ¬ (idx + elements.length ≤ values.length ∧
          ∀ value ∈ elements, (captured value).isSome) := by
  induction elements generalizing idx values with
  | nil =>
    rw [writeElements]
    refine ⟨rfl, rfl, by simp, fun hstop => ?_⟩
    rw [hstop, ← columns_length, List.take_length]
    simp
  | cons value elements ih =>
    rw [writeElements]
    by_cases hfull : idx ≥ values.length
    · rw [if_pos hfull]
      refine ⟨rfl, fun h => ?_⟩
      have := h.1
      rw [List.length_cons] at this
      omega
    · rw [if_neg hfull]
      cases htext : captured value with
      | none =>
        obtain ⟨message, slot, hcapture⟩ := captureAt_failed values idx htext
        rw [hcapture]
        refine ⟨List.length_set .., fun h => ?_⟩
        have := h.2 value List.mem_cons_self
        rw [htext] at this
        cases this
      | some text =>
        rw [captureAt_captured values _ htext]
        have hnext := ih (idx + 1) (values.set idx (some text))
          (by rw [List.length_set]; omega)
        simp only
        cases hrest : writeElements (idx + 1) (values.set idx (some text)) elements with
        | mk result after =>
          rw [hrest] at hnext
          rw [List.length_set] at hnext
          cases result with
          | error message =>
            refine ⟨hnext.1, fun h => hnext.2 ⟨?_, fun v hv => h.2 v ?_⟩⟩
            · have := h.1
              rw [List.length_cons] at this
              omega
            · exact List.mem_cons_of_mem _ hv
          | ok stop =>
            obtain ⟨hafter, hstop, hall, hcolumns⟩ := hnext
            refine ⟨hafter, ?_, ?_, fun hend => ?_⟩
            · rw [hstop, List.length_cons]
              omega
            · intro v hv
              rcases List.mem_cons.mp hv with rfl | hv
              · rw [htext]
                rfl
              · exact hall v hv
            · have hlt : idx < (columns values).length := by
                rw [columns_length]
                omega
              have hset : columns (values.set idx (some text)) =
                  (columns values).set idx text := List.map_set
              rw [hcolumns hend, hset, List.take_succ_eq_append_getElem (by
                rwa [List.length_set]), List.getElem_set_self, List.take_set_of_le le_rfl]
              simp [htext]

@[simp] theorem writeFieldBytes_length (values : List (Option Bytes)) (octets : Bytes) :
    (writeFieldBytes values octets).length = values.length := by
  cases values <;> rfl

theorem columns_writeFieldBytes {values : List (Option Bytes)} (octets : Bytes)
    (hfresh : ∀ text ∈ columns values, text = []) :
    columns (writeFieldBytes values octets) = firstColumn values.length octets := by
  cases values with
  | nil => rfl
  | cons value values =>
    have hrest : columns values = (List.range values.length).map fun _ => ([] : Bytes) := by
      apply List.ext_getElem (by simp)
      intro i hi _
      have hmem : (columns values)[i] ∈ columns (value :: values) :=
        List.mem_cons_of_mem _ (List.getElem_mem hi)
      rw [hfresh _ hmem, List.getElem_map]
    have hcons : columns (writeFieldBytes (value :: values) octets) =
        octets :: columns values := rfl
    rw [hcons, hrest, firstColumn, List.length_cons, List.range_succ_eq_map, List.map_cons,
      List.map_map]
    rfl

theorem firstColumn_spec {headers : List String} {values : List (Option Bytes)}
    (value : Value) (hlen : values.length = headers.length)
    (hfresh : ∀ text ∈ columns values, text = [])
    (hserialize : serializeRecord headers values value =
      (.ok (), writeFieldBytes values (captureField [] value).2))
    (hrecord : recordOf headers value =
      some (firstColumn headers.length (captureField [] value).2)) :
    match serializeRecord headers values value with
    | (.ok _, after) => after.length = headers.length ∧
        recordOf headers value = some (columns after)
    | (.error _, after) => after.length = headers.length ∧ recordOf headers value = none := by
  rw [hserialize, hrecord]
  exact ⟨by rw [writeFieldBytes_length, hlen], by rw [columns_writeFieldBytes _ hfresh, hlen]⟩

theorem serializeRecord_sequence (headers : List String) (values : List (Option Bytes))
    (kind : SeqKind) (elements : List Value) (failure : Option String)
    (hlen : values.length = headers.length) :
    match serializeRecord headers values (.sequence kind elements failure) with
    | (.ok _, after) => after.length = headers.length ∧
        recordOf headers (.sequence kind elements failure) = some (columns after)
    | (.error _, after) => after.length = headers.length ∧
        recordOf headers (.sequence kind elements failure) = none := by
  have hwrite := writeElements_spec 0 values elements (Nat.zero_le _)
  rw [serializeRecord, recordOf]
  cases h : writeElements 0 values elements with
  | mk result after =>
    rw [h] at hwrite
    cases result with
    | error message =>
      refine ⟨hwrite.1.trans hlen, if_neg ?_⟩
      rintro ⟨-, hcount, hall⟩
      exact hwrite.2 ⟨by omega, by simpa using hall⟩
    | ok stop =>
      obtain ⟨hafter, hstop, hall, hcolumns⟩ := hwrite
      cases failure with
      | some message => exact ⟨hafter.trans hlen, if_neg fun h => nomatch h.1⟩
      | none =>
        by_cases hend : stop = after.length
        · rw [hafter] at hend
          simp only [hafter, hend, ne_eq, not_true, if_false]
          refine ⟨hlen, ?_⟩
          rw [if_pos ⟨trivial, by omega, by simpa using hall⟩, hcolumns hend]
          rfl
        · simp only [ne_eq, hend, not_false_eq_true, if_true]
          refine ⟨hafter.trans hlen, if_neg ?_⟩
          rintro ⟨-, hcount, -⟩
          omega

theorem serializeRecord_struct (headers : List String) (values : List (Option Bytes))
    (fields : List (String × Value)) (failure : Option String)
    (hlen : values.length = headers.length) (hfresh : ∀ text ∈ columns values, text = []) :
    match serializeRecord headers values (.struct fields failure) with
    | (.ok _, after) => after.length = headers.length ∧
        recordOf headers (.struct fields failure) = some (columns after)
    | (.error _, after) => after.length = headers.length ∧
        recordOf headers (.struct fields failure) = none := by
  have hcollect := collectFields_spec headers values fields hlen
  rw [serializeRecord, recordOf]
  cases h : collectFields headers values fields with
  | mk result after =>
    rw [h] at hcollect
    cases result with
    | error message =>
      refine ⟨hcollect.1, if_neg ?_⟩
      rintro ⟨-, hall⟩
      exact hcollect.2 (by simpa using hall)
    | ok _ =>
      obtain ⟨hafter, hall, hcolumns⟩ := hcollect
      cases failure with
      | some message => exact ⟨hafter, if_neg fun h => nomatch h.1⟩
      | none =>
        refine ⟨hafter, ?_⟩
        rw [if_pos ⟨rfl, by simpa using hall⟩]
        congr 1
        apply List.ext_getElem (by simp [hafter])
        intro i hi hi'
        have hlt : i < headers.length := by simpa using hi
        have hbefore : (columns values).getD i [] = [] := by
          have hvalues : i < (columns values).length := by simpa [hlen] using hlt
          rw [List.getD_eq_getElem?_getD, List.getElem?_eq_getElem hvalues]
          exact hfresh _ (List.getElem_mem hvalues)
        have hcolumn := hcolumns i hlt
        rw [hbefore, List.getD_eq_getElem?_getD, List.getElem?_eq_getElem hi'] at hcolumn
        rw [List.getElem_map, List.getElem_range]
        exact hcolumn.symm

theorem serializeRecord_spec (headers : List String) (values : List (Option Bytes))
    (value : Value) (hlen : values.length = headers.length)
    (hfresh : ∀ text ∈ columns values, text = []) :
    match serializeRecord headers values value with
    | (.ok _, after) => after.length = headers.length ∧
        recordOf headers value = some (columns after)
    | (.error _, after) => after.length = headers.length ∧ recordOf headers value = none := by
  cases value with
  | some value =>
    rw [serializeRecord, recordOf]
    exact serializeRecord_spec headers values value hlen hfresh
  | newtypeStruct value =>
    rw [serializeRecord, recordOf]
    exact serializeRecord_spec headers values value hlen hfresh
  | sequence kind elements failure =>
    exact serializeRecord_sequence headers values kind elements failure hlen
  | struct fields failure =>
    exact serializeRecord_struct headers values fields failure hlen hfresh
  | variant => exact ⟨hlen, rfl⟩
  | map => exact ⟨hlen, rfl⟩
  | fail message => exact ⟨hlen, rfl⟩
  | bool b => exact firstColumn_spec (.bool b) hlen hfresh rfl rfl
  | int n => exact firstColumn_spec (.int n) hlen hfresh rfl rfl
  | float text => exact firstColumn_spec (.float text) hlen hfresh rfl rfl
  | char c => exact firstColumn_spec (.char c) hlen hfresh rfl rfl
  | str s => exact firstColumn_spec (.str s) hlen hfresh rfl rfl
  | bytes octets => exact firstColumn_spec (.bytes octets) hlen hfresh rfl rfl
  | none => exact firstColumn_spec .none hlen hfresh rfl rfl
  | unit => exact firstColumn_spec .unit hlen hfresh rfl rfl
  | unitStruct => exact firstColumn_spec .unitStruct hlen hfresh rfl rfl

/-! ## Old scratch values -/

theorem captureAt_fst (values values' : List (Option Bytes)) (pos : Nat) (value : Value) :
    (captureAt values pos value).1 = (captureAt values' pos value).1 := rfl

theorem collectFields_fst (headers : List String) (fields : List (String × Value))
    (values values' : List (Option Bytes)) :
    (collectFields headers values fields).1 = (collectFields headers values' fields).1 := by
  induction fields generalizing values values' with
  | nil => rfl
  | cons field fields ih =>
    obtain ⟨key, value⟩ := field
    rw [collectFields, collectFields]
    split
    · have hfst := captureAt_fst values values' (headers.idxOf key) value
      cases hcapture : captureAt values (headers.idxOf key) value with
      | mk result after =>
        cases hcapture' : captureAt values' (headers.idxOf key) value with
        | mk result' after' =>
          rw [hcapture, hcapture'] at hfst
          obtain rfl : result = result' := hfst
          cases result with
          | error message => rfl
          | ok _ => exact ih after after'
    · rfl

theorem captureAt_length (values : List (Option Bytes)) (pos : Nat) (value : Value) :
    (captureAt values pos value).2.length = values.length := List.length_set ..

theorem writeElements_fst (elements : List Value) (idx : Nat)
    (values values' : List (Option Bytes)) (hlen : values.length = values'.length) :
    (writeElements idx values elements).1 = (writeElements idx values' elements).1 ∧
      (writeElements idx values elements).2.length =
        (writeElements idx values' elements).2.length := by
  induction elements generalizing idx values values' with
  | nil => exact ⟨rfl, hlen⟩
  | cons value elements ih =>
    rw [writeElements, writeElements, hlen]
    split
    · exact ⟨rfl, hlen⟩
    · have hfst := captureAt_fst values values' idx value
      have hsnd := captureAt_length values idx value
      have hsnd' := captureAt_length values' idx value
      cases hcapture : captureAt values idx value with
      | mk result after =>
        cases hcapture' : captureAt values' idx value with
        | mk result' after' =>
          rw [hcapture, hcapture'] at hfst
          rw [hcapture] at hsnd
          rw [hcapture'] at hsnd'
          have hafter : after.length = after'.length := by
            rw [hsnd, hsnd', hlen]
          obtain rfl : result = result' := hfst
          cases result with
          | error message => exact ⟨rfl, hafter⟩
          | ok _ => exact ih (idx + 1) after after' hafter

theorem serializeRecord_fst (headers : List String) (value : Value)
    (values values' : List (Option Bytes)) (hlen : values.length = values'.length) :
    (serializeRecord headers values value).1 = (serializeRecord headers values' value).1 := by
  cases value with
  | some value =>
    rw [serializeRecord, serializeRecord]
    exact serializeRecord_fst headers value values values' hlen
  | newtypeStruct value =>
    rw [serializeRecord, serializeRecord]
    exact serializeRecord_fst headers value values values' hlen
  | sequence kind elements failure =>
    obtain ⟨hfst, hsnd⟩ := writeElements_fst elements 0 values values' hlen
    rw [serializeRecord, serializeRecord]
    cases h : writeElements 0 values elements with
    | mk result after =>
      cases h' : writeElements 0 values' elements with
      | mk result' after' =>
        rw [h, h'] at hfst hsnd
        obtain rfl : result = result' := hfst
        have hafter : after.length = after'.length := hsnd
        cases result with
        | error message => rfl
        | ok idx =>
          cases failure with
          | some message => rfl
          | none =>
            simp only [hafter]
            split <;> rfl
  | struct fields failure =>
    have hfst := collectFields_fst headers fields values values'
    rw [serializeRecord, serializeRecord]
    cases h : collectFields headers values fields with
    | mk result after =>
      cases h' : collectFields headers values' fields with
      | mk result' after' =>
        rw [h, h'] at hfst
        obtain rfl : result = result' := hfst
        cases result with
        | error message => rfl
        | ok _ => cases failure <;> rfl
  | variant => rfl
  | map => rfl
  | fail message => rfl
  | bool b => rfl
  | int n => rfl
  | float text => rfl
  | char c => rfl
  | str s => rfl
  | bytes octets => rfl
  | none => rfl
  | unit => rfl
  | unitStruct => rfl

/-! ## Calls -/

inductive Call where
  | writeHeaders (headers : List String)
  | writeRow (row : List Bytes)
  | serialize (record : Value)
  | flush

namespace Writer

def start (delimiter : Delimiter) (flexible writeBom : Bool) (headers : Option (List String)) :
    Writer :=
  match headers with
  | none => .new delimiter flexible writeBom
  | some headers => (Writer.new delimiter flexible writeBom).setHeaders headers

def call (w : Writer) : Call → Except WriteError Unit × Writer
  | .writeHeaders headers => w.writeHeaders headers
  | .writeRow row => w.writeRow row
  | .serialize record => w.serialize record
  | .flush => (.ok (), w.flush)

def recordOfCall (w : Writer) : Call → Option (List Bytes)
  | .writeHeaders headers => some (headers.map utf8)
  | .writeRow row => some row
  | .serialize record => w.headers.bind fun headers => recordOf headers record
  | .flush => none

def run (w : Writer) : List Call → Writer
  | [] => w
  | c :: calls => run (w.call c).2 calls

def results (w : Writer) : List Call → List (Except WriteError Unit)
  | [] => []
  | c :: calls => (w.call c).1 :: results (w.call c).2 calls

def accepted (w : Writer) : List Call → List (List Bytes)
  | [] => []
  | c :: calls =>
    (match (w.call c).1 with
      | .ok _ => (w.recordOfCall c).toList
      | .error _ => []) ++ accepted (w.call c).2 calls

/-! ## One call -/

theorem writeHeaders_spec (w : Writer) (headers : List String) :
    CallSpec w (some (headers.map utf8)) (w.writeHeaders headers) := by
  have hpending := agrees_writePendingBom w
  rw [writeHeaders]
  split
  · exact rejects_self w
  · simp only
    generalize hcheck : (if w.flexible = true then none else
      (w.numFields.or (w.headers.map List.length)).filter (headers.length ≠ ·)) = check
    cases check with
    | some expected => exact rejects_self w
    | none =>
      have hcount : w.flexible = false → ∀ count, w.numFields = some count →
          headers.length = count := by
        intro hstrict count hnum
        rw [hstrict, if_neg (by simp), hnum, Option.some_or] at hcheck
        simpa using hcheck
      refine writes_appended ⟨hpending.delimiter, hpending.flexible, hpending.writeBom⟩ rfl ?_ rfl
        fun hstrict => ⟨congrArg some (List.length_map _).symm, fun count hnum => ?_⟩
      · rw [← hpending.delimiter]
      · rw [List.length_map]
        exact hcount hstrict count hnum

theorem resetValues_fresh (w : Writer) (headerCount : Nat) :
    (w.resetValues headerCount).length = headerCount ∧
      ∀ text ∈ columns (w.resetValues headerCount), text = [] := by
  rw [resetValues]
  constructor
  · simp only [List.length_map, List.length_append, List.length_take, List.length_replicate]
    omega
  · intro text htext
    simp only [columns, List.map_map, List.mem_map, Function.comp_apply] at htext
    obtain ⟨slot, -, rfl⟩ := htext
    cases slot <;> rfl

theorem serialize_spec (w : Writer) (record : Value) :
    CallSpec w (w.recordOfCall (.serialize record)) (w.serialize record) := by
  have hpending := agrees_writePendingBom w
  rw [serialize, recordOfCall]
  cases hheaders : w.headers with
  | none => exact rejects_self w
  | some headers =>
    simp only [Option.bind_some]
    obtain ⟨hlen, hfresh⟩ := resetValues_fresh w.writePendingBom headers.length
    have hspec := serializeRecord_spec headers _ record hlen hfresh
    cases hserialize : serializeRecord headers
        (w.writePendingBom.resetValues headers.length) record with
    | mk result values =>
      rw [hserialize] at hspec
      have hrejects : Rejects w { w.writePendingBom with serValues := values } :=
        ⟨⟨hpending.delimiter, hpending.flexible, hpending.writeBom, hpending.numFields,
          hpending.rowCount, hpending.headers, hpending.headersWritten⟩, .inr ⟨rfl, rfl⟩⟩
      cases result with
      | error message => exact hrejects
      | ok _ =>
        obtain ⟨hvalues, hrecord⟩ := hspec
        rw [hrecord]
        have hframe := (⟨hpending.delimiter, hpending.flexible, hpending.writeBom⟩ :
          w.writePendingBom.delimiter = w.delimiter ∧
            w.writePendingBom.flexible = w.flexible ∧
            w.writePendingBom.writeBom = w.writeBom)
        have hcolumns : (columns values).length = headers.length := by
          rw [columns_length, hvalues]
        cases hnum : w.numFields with
        | none =>
          simp only [hpending.numFields, hnum]
          refine writes_appended hframe rfl ?_ rfl fun _ => ⟨by rw [hcolumns], by
            simp [hnum]⟩
          rw [← hpending.delimiter]
          rfl
        | some expected =>
          simp only [hpending.numFields, hnum]
          by_cases hcount : w.flexible = false ∧ headers.length ≠ expected
          · rw [if_pos (by simpa [hpending.flexible] using hcount)]
            exact ⟨⟨hpending.delimiter, hpending.flexible, hpending.writeBom, hnum.symm,
              hpending.rowCount, hpending.headers, hpending.headersWritten⟩,
              .inr ⟨rfl, rfl⟩⟩
          · rw [if_neg (by simpa [hpending.flexible] using hcount)]
            refine writes_appended hframe rfl ?_ rfl fun hstrict => ?_
            · rw [← hpending.delimiter]
              rfl
            · have hsame : headers.length = expected := by
                by_contra hne
                exact hcount ⟨hstrict, hne⟩
              rw [hcolumns, hsame]
              refine ⟨rfl, fun count h => ?_⟩
              rw [hnum] at h
              exact Option.some.inj h

theorem call_spec (w : Writer) (c : Call) : CallSpec w (w.recordOfCall c) (w.call c) := by
  cases c with
  | writeHeaders headers => exact writeHeaders_spec w headers
  | writeRow row => exact writeRow_spec w row
  | serialize record => exact serialize_spec w record
  | flush => exact rfl

/-! ## Calls after a rejected one -/

theorem Agrees.symm {w w' : Writer} (h : Agrees w w') : Agrees w' w :=
  ⟨h.1.symm, h.2.symm, h.3.symm, h.4.symm, h.5.symm, h.6.symm, h.7.symm⟩

theorem Agrees.trans {w₁ w₂ w₃ : Writer} (h : Agrees w₁ w₂) (h' : Agrees w₂ w₃) :
    Agrees w₁ w₃ :=
  ⟨h'.1.trans h.1, h'.2.trans h.2, h'.3.trans h.3, h'.4.trans h.4, h'.5.trans h.5,
    h'.6.trans h.6, h'.7.trans h.7⟩

section Agreeing

variable {w w' : Writer}

theorem Agrees.flushIfFull (h : Agrees w w') : Agrees w.flushIfFull w'.flushIfFull :=
  ((agrees_flushIfFull w).1.symm.trans h).trans (agrees_flushIfFull w').1

theorem Agrees.writePendingBom (h : Agrees w w') :
    Agrees w.writePendingBom w'.writePendingBom :=
  ((agrees_writePendingBom w).symm.trans h).trans (agrees_writePendingBom w')

/-- The same outcome, and writers that agree again. -/
def SameOutcome (out out' : Except WriteError Unit × Writer) : Prop :=
  out'.1 = out.1 ∧ Agrees out.2 out'.2

theorem sameOutcome_writeHeaders (h : Agrees w w') (headers : List String) :
    SameOutcome (w.writeHeaders headers) (w'.writeHeaders headers) := by
  have hpending := h.writePendingBom
  rw [writeHeaders, writeHeaders, h.headersWritten, h.numFields, h.headers, h.flexible,
    h.rowCount]
  split
  · exact ⟨rfl, h⟩
  · simp only
    generalize (if w.flexible = true then none else
      (w.numFields.or (w.headers.map List.length)).filter (headers.length ≠ ·)) = check
    cases check with
    | some expected => exact ⟨rfl, h⟩
    | none =>
      refine ⟨rfl, Agrees.flushIfFull ?_⟩
      exact ⟨hpending.delimiter, hpending.flexible, hpending.writeBom, rfl,
        congrArg (· + 1) hpending.rowCount, rfl, rfl⟩

theorem sameOutcome_writeRow (h : Agrees w w') (row : List Bytes) :
    SameOutcome (w.writeRow row) (w'.writeRow row) := by
  have hpending := h.writePendingBom
  rw [writeRow, writeRow]
  by_cases hflexible : w.writePendingBom.flexible = true
  · rw [if_pos hflexible, if_pos (hpending.flexible.trans hflexible)]
    refine ⟨rfl, Agrees.flushIfFull ?_⟩
    refine ⟨hpending.delimiter, hpending.flexible, hpending.writeBom, ?_,
      congrArg (· + 1) hpending.rowCount, hpending.headers, hpending.headersWritten⟩
    simp only [hpending.numFields]
  · rw [if_neg hflexible, if_neg (by rwa [hpending.flexible])]
    cases hnum : w.writePendingBom.numFields with
    | none =>
      have hnum' := hpending.numFields.trans hnum
      simp only [hnum']
      refine ⟨rfl, Agrees.flushIfFull ?_⟩
      exact ⟨hpending.delimiter, hpending.flexible, hpending.writeBom, rfl,
        congrArg (· + 1) hpending.rowCount, hpending.headers, hpending.headersWritten⟩
    | some expected =>
      have hnum' := hpending.numFields.trans hnum
      simp only [hnum']
      by_cases hcount : row.length = expected
      · rw [if_neg (by simpa using hcount), if_neg (by simpa using hcount)]
        refine ⟨rfl, Agrees.flushIfFull ?_⟩
        exact ⟨hpending.delimiter, hpending.flexible, hpending.writeBom, rfl,
          congrArg (· + 1) hpending.rowCount, hpending.headers, hpending.headersWritten⟩
      · rw [if_pos (by simpa using hcount), if_pos (by simpa using hcount)]
        refine ⟨?_, hpending⟩
        simp only [hpending.rowCount]

theorem sameOutcome_serialize (h : Agrees w w') (record : Value) :
    SameOutcome (w.serialize record) (w'.serialize record) := by
  have hpending := h.writePendingBom
  rw [serialize, serialize, h.headers]
  cases hheaders : w.headers with
  | none => exact ⟨rfl, h⟩
  | some headers =>
    simp only
    have hlen := (resetValues_fresh w.writePendingBom headers.length).1
    have hlen' := (resetValues_fresh w'.writePendingBom headers.length).1
    have hfst := serializeRecord_fst headers record _ _ (hlen.trans hlen'.symm)
    cases hserialize : serializeRecord headers
        (w.writePendingBom.resetValues headers.length) record with
    | mk result values =>
      cases hserialize' : serializeRecord headers
          (w'.writePendingBom.resetValues headers.length) record with
      | mk result' values' =>
        rw [hserialize, hserialize'] at hfst
        obtain rfl : result = result' := hfst
        cases result with
        | error message => exact ⟨rfl, hpending.1, hpending.2, hpending.3, hpending.4,
            hpending.5, hpending.6, hpending.7⟩
        | ok _ =>
          cases hnum : w.writePendingBom.numFields with
          | none =>
            have hnum' := hpending.numFields.trans hnum
            simp only [hnum']
            refine ⟨rfl, Agrees.flushIfFull ?_⟩
            exact ⟨hpending.delimiter, hpending.flexible, hpending.writeBom, rfl,
              congrArg (· + 1) hpending.rowCount, hpending.headers,
              hpending.headersWritten⟩
          | some expected =>
            have hnum' := hpending.numFields.trans hnum
            simp only [hnum', hpending.flexible]
            split
            · refine ⟨?_, ⟨hpending.delimiter, rfl, hpending.writeBom, rfl,
                hpending.rowCount, hpending.headers, hpending.headersWritten⟩⟩
              simp only [hpending.rowCount]
            · refine ⟨rfl, Agrees.flushIfFull ?_⟩
              exact ⟨hpending.delimiter, rfl, hpending.writeBom, rfl,
                congrArg (· + 1) hpending.rowCount, hpending.headers,
                hpending.headersWritten⟩

theorem sameOutcome_call (h : Agrees w w') (c : Call) :
    SameOutcome (w.call c) (w'.call c) := by
  cases c with
  | writeHeaders headers => exact sameOutcome_writeHeaders h headers
  | writeRow row => exact sameOutcome_writeRow h row
  | serialize record => exact sameOutcome_serialize h record
  | flush => exact ⟨rfl, h.1, h.2, h.3, h.4, h.5, h.6, h.7⟩

theorem recordOfCall_agrees (h : Agrees w w') (c : Call) :
    w'.recordOfCall c = w.recordOfCall c := by
  cases c with
  | serialize record => rw [recordOfCall, recordOfCall, h.headers]
  | writeHeaders headers => rfl
  | writeRow row => rfl
  | flush => rfl

theorem run_agrees (h : Agrees w w') (calls : List Call) :
    w'.results calls = w.results calls ∧ w'.accepted calls = w.accepted calls := by
  induction calls generalizing w w' with
  | nil => exact ⟨rfl, rfl⟩
  | cons c calls ih =>
    obtain ⟨hresult, hafter⟩ := sameOutcome_call h c
    obtain ⟨hresults, haccepted⟩ := ih hafter
    rw [results, results, accepted, accepted, hresult, hresults, haccepted,
      recordOfCall_agrees h]
    exact ⟨rfl, rfl⟩

end Agreeing

/-! ## Runs -/

structure Holds (w : Writer) (delimiter : Delimiter) (flexible writeBom : Bool)
    (records : List (List Bytes)) : Prop where
  delimiter_eq : w.delimiter = delimiter
  flexible_eq : w.flexible = flexible
  writeBom_eq : w.writeBom = writeBom
  output_eq : w.output =
    (if w.bomWritten then BOM else []) ++ rowsOctets delimiter.byte records
  bom_wanted : w.bomWritten = true → writeBom = true
  bom_first : writeBom = true → records ≠ [] → w.bomWritten = true
  count_eq : flexible = false → ∀ record ∈ records, w.numFields = some record.length

section Runs

variable {w : Writer} {delimiter : Delimiter} {flexible writeBom : Bool}
  {records : List (List Bytes)}

theorem rowsOctets_concat (delimiter : UInt8) (records : List (List Bytes))
    (record : List Bytes) : rowsOctets delimiter (records ++ [record]) =
      rowsOctets delimiter records ++ (rowOctets delimiter record ++ [13, 10]) := by
  simp [rowsOctets]

theorem Holds.pendingBom (h : w.Holds delimiter flexible writeBom records) :
    w.writePendingBom.output = (if w.writePendingBom.bomWritten then BOM else []) ++
      rowsOctets delimiter.byte records ∧ w.writePendingBom.bomWritten = writeBom := by
  rw [Writer.writePendingBom]
  split
  · next hpending =>
    obtain ⟨hwanted, hunwritten⟩ := hpending
    have hnone : records = [] := by
      by_contra hne
      have := h.bom_first (h.writeBom_eq ▸ hwanted) hne
      rw [hunwritten] at this
      cases this
    have houtput := h.output_eq
    rw [hunwritten, hnone] at houtput
    refine ⟨?_, (h.writeBom_eq ▸ hwanted).symm⟩
    have happend : ({ w with buf := w.buf ++ BOM, bomWritten := true } : Writer).output =
        w.output ++ BOM := by simp [output]
    rw [happend, houtput, hnone]
    rfl
  · next hdone =>
    refine ⟨h.output_eq, ?_⟩
    cases hwritten : w.bomWritten with
    | true => exact (h.bom_wanted hwritten).symm
    | false =>
      cases hwanted : writeBom with
      | false => rfl
      | true => exact absurd ⟨h.writeBom_eq.trans hwanted, hwritten⟩ hdone

theorem Holds.rejects {w' : Writer} (h : w.Holds delimiter flexible writeBom records)
    (hrejects : Rejects w w') : w'.Holds delimiter flexible writeBom records := by
  obtain ⟨hagrees, houtput⟩ := hrejects
  obtain ⟨hpending, hbom⟩ := h.pendingBom
  refine ⟨hagrees.delimiter.trans h.delimiter_eq, hagrees.flexible.trans h.flexible_eq,
    hagrees.writeBom.trans h.writeBom_eq, ?_, ?_, ?_, fun hstrict record hmem => ?_⟩
  · rcases houtput with ⟨hsame, hwritten⟩ | ⟨hsame, hwritten⟩
    · rw [hsame, hwritten, h.output_eq]
    · rw [hsame, hwritten, hpending]
  · rcases houtput with ⟨-, hwritten⟩ | ⟨-, hwritten⟩
    · rw [hwritten]
      exact h.bom_wanted
    · rw [hwritten, hbom]
      exact id
  · rcases houtput with ⟨-, hwritten⟩ | ⟨-, hwritten⟩
    · rw [hwritten]
      exact h.bom_first
    · rw [hwritten, hbom]
      exact fun hwanted _ => hwanted
  · rw [hagrees.numFields]
    exact h.count_eq hstrict record hmem

theorem Holds.writes {w' : Writer} {record : List Bytes}
    (h : w.Holds delimiter flexible writeBom records) (hwrites : Writes w record w') :
    w'.Holds delimiter flexible writeBom (records ++ [record]) := by
  obtain ⟨hpending, hbom⟩ := h.pendingBom
  have hwritten := hwrites.bomWritten.trans hbom
  refine ⟨hwrites.delimiter.trans h.delimiter_eq, hwrites.flexible.trans h.flexible_eq,
    hwrites.writeBom.trans h.writeBom_eq, ?_, ?_, ?_, fun hstrict other hmem => ?_⟩
  · rw [hwrites.output, hpending, rowsOctets_concat, hwrites.bomWritten, h.delimiter_eq,
      List.append_assoc]
  · rw [hwritten]
    exact id
  · rw [hwritten]
    exact fun hwanted _ => hwanted
  · obtain ⟨hcount, hsame⟩ := hwrites.numFields (h.flexible_eq.trans hstrict)
    rw [hcount]
    rcases List.mem_append.mp hmem with hold | hnew
    · rw [hsame other.length (h.count_eq hstrict other hold)]
    · rw [List.mem_singleton.mp hnew]

theorem Holds.call (h : w.Holds delimiter flexible writeBom records) (c : Call) :
    (w.call c).2.Holds delimiter flexible writeBom (records ++
      match (w.call c).1 with
      | .ok _ => (w.recordOfCall c).toList
      | .error _ => []) := by
  have hspec := call_spec w c
  unfold CallSpec at hspec
  cases hresult : (w.call c).1 with
  | error e =>
    rw [hresult] at hspec
    simpa using h.rejects hspec
  | ok _ =>
    rw [hresult] at hspec
    cases hrecord : w.recordOfCall c with
    | some record =>
      rw [hrecord] at hspec
      exact h.writes hspec
    | none =>
      rw [hrecord] at hspec
      simp only at hspec
      have hflush : w.flush.output = w.output := by simp [output, flush]
      rw [hspec, Option.toList_none, List.append_nil]
      exact ⟨h.1, h.2, h.3, hflush.trans h.output_eq, h.5, h.6, h.7⟩

theorem Holds.run (h : w.Holds delimiter flexible writeBom records) (calls : List Call) :
    (w.run calls).Holds delimiter flexible writeBom (records ++ w.accepted calls) := by
  induction calls generalizing w records with
  | nil => simpa [Writer.run, accepted] using h
  | cons c calls ih =>
    rw [Writer.run, accepted, ← List.append_assoc]
    exact ih (h.call c)

end Runs

theorem holds_start (delimiter : Delimiter) (flexible writeBom : Bool)
    (headers : Option (List String)) :
    (start delimiter flexible writeBom headers).Holds delimiter flexible writeBom [] := by
  cases headers <;> exact ⟨rfl, rfl, rfl, rfl, nofun, fun _ h => absurd rfl h, nofun⟩

theorem accepted_append (w : Writer) (calls later : List Call) :
    w.accepted (calls ++ later) = w.accepted calls ++ (w.run calls).accepted later := by
  induction calls generalizing w with
  | nil => rfl
  | cons c calls ih => rw [List.cons_append, accepted, accepted, run, ih, List.append_assoc]

end Writer

/-- After any calls, the sink and the buffer hold the byte-order mark, if it is wanted, and
the records of the accepted calls in order.  In strict mode these have one number of
fields.  A rejected call adds nothing, and the calls after it give what they would have
given without it. -/
theorem output_of_calls (delimiter : Delimiter) (flexible writeBom : Bool)
    (headers : Option (List String)) (calls : List Call) :
    let start := Writer.start delimiter flexible writeBom headers
    let after := start.run calls
    (after.output = (if after.bomWritten then BOM else []) ++
        rowsOctets delimiter.byte (start.accepted calls) ∧
      (after.bomWritten = true → writeBom = true) ∧
      (writeBom = true → start.accepted calls ≠ [] → after.bomWritten = true)) ∧
    (flexible = false → ∃ count, ∀ record ∈ start.accepted calls, record.length = count) ∧
    ∀ rejected later error, (after.call rejected).1 = .error error →
      start.accepted (calls ++ rejected :: later) = start.accepted (calls ++ later) ∧
      (after.call rejected).2.results later = after.results later := by
  intro start after
  have hholds := (Writer.holds_start delimiter flexible writeBom headers).run calls
  rw [List.nil_append] at hholds
  refine ⟨⟨hholds.output_eq, hholds.bom_wanted, hholds.bom_first⟩, fun hstrict => ?_, ?_⟩
  · cases hcount : after.numFields with
    | none =>
      refine ⟨0, fun record hmem => ?_⟩
      have := hholds.count_eq hstrict record hmem
      rw [show (Writer.run _ calls).numFields = _ from hcount] at this
      cases this
    | some count =>
      refine ⟨count, fun record hmem => ?_⟩
      have := hholds.count_eq hstrict record hmem
      rw [show (Writer.run _ calls).numFields = _ from hcount] at this
      exact (Option.some.inj this).symm
  · intro rejected later error hrejected
    have hspec := Writer.call_spec after rejected
    unfold Writer.CallSpec at hspec
    rw [hrejected] at hspec
    obtain ⟨hresults, haccepted⟩ := Writer.run_agrees hspec.toAgrees later
    refine ⟨?_, hresults⟩
    rw [Writer.accepted_append, Writer.accepted_append, Writer.accepted]
    change _ ++ (_ ++ (after.call rejected).2.accepted later) = _ ++ after.accepted later
    rw [show (start.run calls).call rejected = after.call rejected from rfl, hrejected,
      haccepted]
    rfl

/-- A rejected row between two accepted calls, with a byte-order mark. -/
theorem output_of_calls_rejected :
    let start := Writer.start ⟨44, by decide⟩ false true (some ["a", "b"])
    let calls := [Call.serialize (.struct [("b", .int (-1))] none), .writeRow [[120]]]
    (start.accepted (calls ++ .writeRow [[34]] :: [.writeRow [[121], []]]) =
        start.accepted (calls ++ [.writeRow [[121], []]])) ∧
      start.accepted calls = [[[], [45, 49]]] := by
  intro start calls
  have hrejected : ((start.run calls).call (.writeRow [[34]])).1 =
      .error (.inconsistentFieldCount 2 1 2) := by decide
  exact ⟨((output_of_calls ⟨44, by decide⟩ false true (some ["a", "b"]) calls).2.2
    (.writeRow [[34]]) [.writeRow [[121], []]] _ hrejected).1, by decide⟩

end Stdx.Csv
