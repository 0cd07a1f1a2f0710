import Stdx.Csv.Simulation

/-!
# Any chunking reads the same

A call of `read_row` reads the next record of the grammar, so the rows of a reader are the
records of its input, whatever the chunks the source delivers it in.
-/

namespace Stdx.Csv

open Stdx.Foundation

namespace Reader

/-! ## Between records -/

theorem sound_compact {r : Reader} (hr : r.Sound) : r.compact.Sound := by
  rw [compact]
  split_ifs
  · exact hr
  · exact hr
  · exact ⟨Nat.zero_le _, hr.2, hr.3, hr.4, hr.5, hr.6⟩

theorem remaining_compact (r : Reader) : r.compact.remaining = r.remaining := by
  rw [compact]
  split_ifs <;> rfl

theorem frame_compact (r : Reader) : SameFrame r r.compact := by
  rw [compact]
  split_ifs <;> exact ⟨rfl, rfl, rfl⟩

def openRecord (r : Reader) : Reader :=
  { r.compact with
    ranges := [], scratch := [], state := .startOfField, pendingLfQuoted := false,
    recordLine := r.compact.line }

theorem sound_openRecord {r : Reader} (hr : r.Sound) : r.openRecord.Sound :=
  have h := sound_compact hr
  ⟨h.1, h.2, h.3, h.4, h.5, h.6⟩

theorem remaining_openRecord (r : Reader) : r.openRecord.remaining = r.remaining :=
  remaining_compact r

theorem frame_openRecord (r : Reader) : SameFrame r r.openRecord :=
  have h := frame_compact r
  ⟨h.1, h.2, h.3⟩

theorem follows_start {r : Reader} (hr : r.Sound) (hranges : r.ranges = [])
    (hstate : r.state = .startOfField) : r.Follows .start [] where
  sound := hr
  bounded := by intro range hmem; rw [hranges] at hmem; cases hmem
  stands := by
    have hfields : r.fields = [] := by simp [fields, hranges]
    rw [← hfields]
    exact .start hstate
  pending := fun _ => ⟨rfl, rfl⟩

/-! ## The byte-order mark -/

/-- What waiting for the mark keeps, and when it ends. -/
structure Awaits (r r' : Reader) : Prop where
  sound : r'.Sound
  remaining : r'.remaining = r.remaining
  ranges : r'.ranges = r.ranges
  state : r'.state = r.state
  pendingCr : r'.pendingCr = r.pendingCr
  frame : SameFrame r r'
  enough : 3 ≤ r'.haystack.length ∨ r'.source = []

theorem awaits_bom (fuel : Nat) (r : Reader) (hr : r.Sound) (hfuel : r.source.length < fuel) :
    ∃ r', awaitBom fuel r = (.ok (), r') ∧ Awaits r r' := by
  induction fuel generalizing r with
  | zero => omega
  | succ fuel ih =>
    rw [awaitBom]
    have hlen : r.haystack.length = r.buf.length - r.start := List.length_drop
    split
    · rcases source_cases hr with hend | ⟨chunk, source, hne, hsource⟩
      · rw [fillBuf_end hend]
        refine ⟨{ r with eof := true }, ?_, ⟨hr.1, hr.2, fun _ => hend, hr.4, hr.5, hr.6⟩, rfl,
          rfl, rfl, rfl, ⟨rfl, rfl, rfl⟩, .inr hend⟩
        cases fuel <;> simp [awaitBom]
      · rw [fillBuf_chunk hr hsource]
        obtain ⟨r', hawait, h⟩ := ih (r.refill chunk source) (sound_refill hr hsource)
          (by rw [hsource, List.length_cons] at hfuel; exact Nat.lt_of_succ_lt_succ hfuel)
        exact ⟨r', hawait, h.sound, h.remaining.trans (remaining_refill hr hsource), h.ranges,
          h.state, h.pendingCr, ⟨h.frame.1, h.frame.2, h.frame.3⟩, h.enough⟩
    · next hdone =>
      refine ⟨r, rfl, hr, rfl, rfl, rfl, rfl, .refl r, ?_⟩
      by_cases heof : r.eof = true
      · exact .inr (hr.eof_source heof)
      · left
        by_contra hshort
        exact hdone ⟨by omega, by simpa using heof⟩

theorem bom_append {seg rest : Bytes} (h : 3 ≤ seg.length ∨ rest = []) :
    BOM.isPrefixOf (seg ++ rest) = BOM.isPrefixOf seg := by
  rcases h with hlen | rfl
  · match seg, hlen with
    | a :: b :: c :: seg, _ => simp [BOM, List.isPrefixOf]
  · rw [List.append_nil]

/-- The reader behind the mark. -/
structure Strips (r r' : Reader) : Prop where
  sound : r'.Sound
  remaining : r'.remaining = withoutBom r.settings.stripBom r.remaining
  ranges : r'.ranges = r.ranges
  state : r'.state = r.state
  settings : r'.settings = r.settings
  numFields : r'.numFields = r.numFields
  bomChecked : r'.bomChecked = true

theorem strips_leadingBom {r : Reader} (hr : r.Sound) (hfresh : r.bomChecked = false)
    (hpending : r.pendingCr = false) :
    ∃ r', r.stripLeadingBom = (.ok (), r') ∧ Strips r r' := by
  have hsound : Sound { r with bomChecked := true } := ⟨hr.1, hr.2, hr.3, hr.4, hr.5, hr.6⟩
  rw [stripLeadingBom, if_neg (by simp [hfresh])]
  simp only
  split
  · next hstrip =>
    obtain ⟨r', hawait, h⟩ := awaits_bom (r.source.length + 1) _ hsound (Nat.lt_succ_self _)
    rw [hawait]
    have hpending' : r'.pendingCr = false := h.pendingCr.trans hpending
    have hremaining : r.remaining = r'.haystack ++ delivered r'.source := by
      rw [← remaining_of_not_pending hpending']
      exact h.remaining.symm
    have hbom : BOM.isPrefixOf r.remaining = BOM.isPrefixOf r'.haystack := by
      rw [hremaining, bom_append (h.enough.imp_right fun hend => by simp [hend, delivered])]
    by_cases hmark : BOM.isPrefixOf r'.haystack = true
    · obtain ⟨rest, hrest⟩ : BOM <+: r'.haystack := by simpa using hmark
      refine ⟨{ r' with start := r'.start + 3 }, by simp only [hmark, if_true],
        ⟨?_, h.sound.2, h.sound.3, h.sound.4,
        h.sound.5, h.sound.6⟩, ?_, h.ranges, h.state, h.frame.1, h.frame.2, h.frame.3⟩
      · have hlen := congrArg List.length hrest
        rw [haystack, List.length_drop, List.length_append] at hlen
        simp only [BOM, List.length_cons, List.length_nil] at hlen ⊢
        omega
      · rw [withoutBom, if_pos ⟨hstrip, hbom.trans hmark⟩, hremaining]
        have hdrop : r'.buf.drop (r'.start + 3) = rest :=
          @drop_of_haystack r' BOM rest hrest.symm
        rw [remaining_of_not_pending (by exact hpending'), haystack]
        simp only [hdrop, ← hrest]
        rfl
    · refine ⟨r', by simp [hmark], h.sound, ?_, h.ranges, h.state, h.frame.1, h.frame.2,
        h.frame.3⟩
      rw [withoutBom, if_neg (by rw [hbom]; exact fun hboth => hmark hboth.2)]
      exact h.remaining
  · next hkeep =>
    exact ⟨_, rfl, hsound, by rw [withoutBom, if_neg fun h => hkeep h.1]; rfl, rfl, rfl, rfl,
      rfl, rfl⟩

/-! ## Calls -/

theorem effort_lt_fuel (r : Reader) : r.effort < 2 * r.bytesLeft + 2 := by
  have := Bool.toNat_le r.pendingCr
  rw [effort]
  omega

theorem readRow_eq {r r' : Reader} (h : r.openRecord.stripLeadingBom = (.ok (), r')) :
    r.readRow = loop (2 * r'.bytesLeft + 2) { r' with recordStart := r'.discarded + r'.start } := by
  simp only [openRecord] at h
  rw [readRow]
  simp only [h]

theorem yields_readRow {r r' : Reader} (h : r.openRecord.stripLeadingBom = (.ok (), r'))
    (hr : r'.Sound) (hranges : r'.ranges = []) (hstate : r'.state = .startOfField) :
    r'.Yields (scan r'.settings.delimiter.byte .start [] r'.remaining) r.readRow.1
      r.readRow.2 := by
  have hloop := yields_loop (2 * r'.bytesLeft + 2)
    { r' with recordStart := r'.discarded + r'.start } .start []
    (follows_start ⟨hr.1, hr.2, hr.3, hr.4, hr.5, hr.6⟩ hranges hstate) (effort_lt_fuel _)
  rw [← readRow_eq h] at hloop
  exact ⟨hloop.1, hloop.2, hloop.3, hloop.4, hloop.5, hloop.6⟩

theorem yields_next {r : Reader} (hr : r.Sound) (h : r.bomChecked = true) :
    r.openRecord.Yields (scan r.settings.delimiter.byte .start [] r.remaining) r.readRow.1
      r.readRow.2 := by
  have hchecked : r.openRecord.bomChecked = true := (frame_openRecord r).bomChecked.trans h
  have hstrip : r.openRecord.stripLeadingBom = (.ok (), r.openRecord) := by
    simp [stripLeadingBom, hchecked]
  have hyields := yields_readRow hstrip (sound_openRecord hr) rfl rfl
  rwa [(frame_openRecord r).settings, remaining_openRecord] at hyields

theorem yields_first {r : Reader} (hr : r.Sound) (hfresh : r.bomChecked = false)
    (hpending : r.pendingCr = false) :
    ∃ r' : Reader, r'.bomChecked = true ∧ r'.settings = r.settings ∧ r'.numFields = r.numFields ∧
      r'.Yields (scan r.settings.delimiter.byte .start []
        (withoutBom r.settings.stripBom r.remaining)) r.readRow.1 r.readRow.2 := by
  have hframe := frame_openRecord r
  have hpending' : r.openRecord.pendingCr = false := by
    simp only [openRecord, compact]
    split_ifs <;> exact hpending
  obtain ⟨r', hstrip, h⟩ := strips_leadingBom (sound_openRecord hr)
    (hframe.bomChecked.trans hfresh) hpending'
  have hyields := yields_readRow hstrip h.sound h.ranges h.state
  rw [h.settings, h.remaining, remaining_openRecord, hframe.settings] at hyields
  exact ⟨r', h.bomChecked, h.settings.trans hframe.settings,
    h.numFields.trans hframe.numFields, hyields⟩

theorem rows_succ {fuel : Nat} {r r' : Reader} {input : Bytes}
    (h : r'.Yields (scan r'.settings.delimiter.byte .start [] input) r.readRow.1 r.readRow.2)
    (hrows : ∀ r'' : Reader, r''.Sound → r''.bomChecked = r'.bomChecked →
      r''.settings = r'.settings → r''.remaining.length < input.length →
      (rows fuel r'').map Row.record =
        records r'.settings.delimiter.byte r'.settings.flexible r''.numFields r''.remaining) :
    (rows (fuel + 1) r).map Row.record =
      records r'.settings.delimiter.byte r'.settings.flexible r'.numFields input := by
  rw [rows]
  cases hread : r.readRow with
  | mk row after =>
    rw [hread] at h
    cases hscan : scan r'.settings.delimiter.byte .start [] input with
    | none =>
      rw [hscan] at h
      obtain rfl : row = none := by simpa using h.row_eq
      rw [records_none hscan]
      rfl
    | some s =>
      rw [hscan] at h
      obtain ⟨row, rfl, hrow⟩ : ∃ row', row = some row' ∧ row'.record =
          (admitted r'.settings.flexible r'.numFields s.fields s.error).1 := by
        simpa using h.row_eq
      have hrest : after.remaining = s.rest := h.remaining
      have htail := hrows after h.sound h.bomChecked h.settings
        (by rw [hrest]; exact scan_start_rest_lt hscan)
      rw [hrest, h.numFields] at htail
      rw [records_some hscan]
      simp only [List.map_cons, hrow, htail, Option.elim_some]

theorem rows_eq_records (fuel : Nat) (r : Reader) (hr : r.Sound) (h : r.bomChecked = true)
    (hfuel : r.remaining.length < fuel) :
    (rows fuel r).map Row.record =
      records r.settings.delimiter.byte r.settings.flexible r.numFields r.remaining := by
  induction fuel generalizing r with
  | zero => omega
  | succ fuel ih =>
    have hframe := frame_openRecord r
    have hyields := yields_next hr h
    rw [← hframe.settings] at hyields
    have hsucc := rows_succ hyields fun r'' hsound hchecked hsettings hless => by
      rw [← hsettings]
      exact ih r'' hsound (hchecked.trans (hframe.bomChecked.trans h)) (by omega)
    rwa [hframe.settings, hframe.numFields] at hsucc

theorem rows_from {fuel : Nat} {r : Reader} {settings : Settings} {numFields : Option Nat}
    {input : Bytes} (hr : r.Sound) (h : r.bomChecked = true) (hsettings : r.settings = settings)
    (hnum : r.numFields = numFields) (hremaining : r.remaining = input)
    (hfuel : input.length < fuel) :
    (rows fuel r).map Row.record =
      records settings.delimiter.byte settings.flexible numFields input := by
  subst hsettings hnum hremaining
  exact rows_eq_records fuel r hr h hfuel

theorem rows_fresh (fuel : Nat) (r : Reader) (hr : r.Sound) (hfresh : r.bomChecked = false)
    (hpending : r.pendingCr = false) (hfuel : r.remaining.length < fuel) :
    (rows fuel r).map Row.record =
      records r.settings.delimiter.byte r.settings.flexible r.numFields
        (withoutBom r.settings.stripBom r.remaining) := by
  cases fuel with
  | zero => omega
  | succ fuel =>
    obtain ⟨r', hchecked, hsettings, hnum, hyields⟩ := yields_first hr hfresh hpending
    rw [← hsettings] at hyields
    have hless : (withoutBom r'.settings.stripBom r.remaining).length ≤ r.remaining.length := by
      rw [withoutBom]
      split <;> simp
    have hsucc := rows_succ hyields fun r'' hsound hchecked' hsettings' hless' => by
      rw [← hsettings']
      exact rows_eq_records fuel r'' hsound (hchecked'.trans hchecked) (by omega)
    rwa [hsettings, hnum] at hsucc

/-! ## Whole inputs -/

theorem rowToVec_eq (row : Row) : rowToVec row = headerNames row.record := by
  cases herror : row.error <;> simp [rowToVec, headerNames, Row.record, herror]

theorem rows_parseHeaders (fuel : Nat) (r : Reader) (hr : r.Sound)
    (hfresh : r.bomChecked = false) (hpending : r.pendingCr = false)
    (hnum : r.numFields = none) (hfuel : r.remaining.length < fuel) :
    (some r.parseHeaders.1, (rows fuel r.parseHeaders.2).map Row.record) =
      reading r.settings.delimiter.byte r.settings.flexible r.settings.stripBom .parse
        r.remaining := by
  obtain ⟨r', hchecked, hsettings, hnum', hyields⟩ := yields_first hr hfresh hpending
  have hless : (withoutBom r.settings.stripBom r.remaining).length ≤ r.remaining.length := by
    rw [withoutBom]
    split <;> simp
  rw [reading, parseHeaders]
  simp only
  cases hread : r.readRow with
  | mk row after =>
    rw [hread] at hyields
    have hafter := hyields.sound
    have hchecked' := hyields.bomChecked.trans hchecked
    have hsettings' := hyields.settings.trans hsettings
    cases hscan : scan r.settings.delimiter.byte .start []
        (withoutBom r.settings.stripBom r.remaining) with
    | none =>
      rw [hscan] at hyields
      obtain rfl : row = none := by simpa using hyields.row_eq
      have hrest : after.remaining = [] := hyields.remaining
      simp only
      rw [rows_from hafter hchecked' rfl rfl hrest (Nat.zero_lt_of_lt hfuel),
        records_none (by rfl)]
    | some s =>
      rw [hscan] at hyields
      have hshort := scan_start_rest_lt hscan
      obtain ⟨row, rfl, hrow⟩ : ∃ row', row = some row' ∧ row'.record =
          (admitted r.settings.flexible none s.fields s.error).1 := by
        simpa [hsettings, hnum', hnum] using hyields.row_eq
      have hrest : after.remaining = s.rest := hyields.remaining
      have hlearnt : after.numFields = (admitted r.settings.flexible none s.fields s.error).2 := by
        simpa [hsettings, hnum', hnum] using hyields.numFields
      simp only [rowToVec_eq, hrow]
      cases headerNames (admitted r.settings.flexible none s.fields s.error).1 with
      | error kind =>
        simp only
        rw [rows_from hafter hchecked' hsettings' hlearnt hrest (by omega)]
      | ok names =>
        simp only
        rw [@rows_from fuel
          { after with numFields := some names.length, headers := some names } _ _ _
          ⟨hafter.1, hafter.2, hafter.3, hafter.4, hafter.5, hafter.6⟩ hchecked'
          hsettings' rfl hrest (by omega)]

end Reader

def unlimited (delimiter : Delimiter) (flexible stripBom : Bool) : Settings :=
  ⟨delimiter, flexible, stripBom, none, none, none⟩

def readAll (fuel : Nat) (settings : Settings) (headers : HeaderSetting)
    (source : List Delivery) : Option (Except ReadErrorKind (List String)) × List Record :=
  let r := Reader.new settings source
  match headers with
  | .unset => (none, (Reader.rows fuel r).map Row.record)
  | .set names => (none, (Reader.rows fuel (r.setHeaders names)).map Row.record)
  | .parse => (some r.parseHeaders.1, (Reader.rows fuel r.parseHeaders.2).map Row.record)

/-- A source that delivers non-empty chunks. -/
def chunked (chunks : List { chunk : Bytes // chunk ≠ [] }) : List Delivery :=
  chunks.map fun chunk => .ok chunk.1

def inputOf (chunks : List { chunk : Bytes // chunk ≠ [] }) : Bytes :=
  (chunks.map Subtype.val).flatten

def wholeSource (input : Bytes) : List Delivery := if input = [] then [] else [.ok input]

theorem delivered_chunked (chunks : List { chunk : Bytes // chunk ≠ [] }) :
    delivered (chunked chunks) = inputOf chunks := by
  induction chunks with
  | nil => rfl
  | cons chunk chunks ih =>
    simp only [delivered, chunked, inputOf, List.map_cons, List.flatMap_cons,
      List.flatten_cons] at ih ⊢
    rw [ih]

theorem delivered_wholeSource (input : Bytes) : delivered (wholeSource input) = input := by
  rw [wholeSource]
  split <;> simp_all [delivered]

theorem readAll_eq_reading (delimiter : Delimiter) (flexible stripBom : Bool)
    (headers : HeaderSetting) (source : List Delivery) (fuel : Nat)
    (hsource : ∀ delivery ∈ source, ∃ chunk, delivery = .ok chunk ∧ chunk ≠ [])
    (hfuel : (delivered source).length < fuel) :
    readAll fuel (unlimited delimiter flexible stripBom) headers source =
      reading delimiter.byte flexible stripBom headers (delivered source) := by
  have hsound : (Reader.new (unlimited delimiter flexible stripBom) source).Sound :=
    ⟨Nat.zero_le _, hsource, by simp [Reader.new], rfl, rfl, rfl⟩
  have hremaining : (Reader.new (unlimited delimiter flexible stripBom) source).remaining =
      delivered source := rfl
  cases headers with
  | unset =>
    rw [readAll, reading]
    rw [Reader.rows_fresh fuel _ hsound rfl rfl (by rwa [hremaining]), hremaining]
    rfl
  | set names =>
    rw [readAll, reading]
    rw [Reader.rows_fresh fuel
      ((Reader.new (unlimited delimiter flexible stripBom) source).setHeaders names)
      ⟨hsound.1, hsound.2, hsound.3, hsound.4, hsound.5, hsound.6⟩ rfl rfl hfuel]
    rfl
  | parse =>
    rw [readAll]
    rw [Reader.rows_parseHeaders fuel _ hsound rfl rfl rfl (by rwa [hremaining]), hremaining]
    rfl

theorem readAll_chunked (delimiter : Delimiter) (flexible stripBom : Bool)
    (headers : HeaderSetting) (chunks : List { chunk : Bytes // chunk ≠ [] }) (extra : Nat) :
    readAll ((inputOf chunks).length + 1 + extra) (unlimited delimiter flexible stripBom) headers
        (chunked chunks) =
      reading delimiter.byte flexible stripBom headers (inputOf chunks) := by
  have hread := readAll_eq_reading delimiter flexible stripBom headers (chunked chunks)
    ((inputOf chunks).length + 1 + extra) (by
      intro delivery hmem
      obtain ⟨chunk, -, rfl⟩ := List.mem_map.mp hmem
      exact ⟨chunk.1, rfl, chunk.2⟩) (by rw [delivered_chunked]; omega)
  rwa [delivered_chunked] at hread

/-- However the source cuts the input, the reader yields what the grammar gives for it, as
it does when the input comes in one chunk; and it yields no more, however often it is
asked. -/
theorem reading_of_chunks (delimiter : Delimiter) (flexible stripBom : Bool)
    (headers : HeaderSetting) (chunks : List { chunk : Bytes // chunk ≠ [] }) (extra : Nat) :
    let fuel := (inputOf chunks).length + 1 + extra
    let settings := unlimited delimiter flexible stripBom
    readAll fuel settings headers (chunked chunks) =
        readAll fuel settings headers (wholeSource (inputOf chunks)) ∧
      readAll fuel settings headers (chunked chunks) =
        reading delimiter.byte flexible stripBom headers (inputOf chunks) := by
  have hchunked := readAll_chunked delimiter flexible stripBom headers chunks extra
  have hwhole := readAll_eq_reading delimiter flexible stripBom headers
    (wholeSource (inputOf chunks)) ((inputOf chunks).length + 1 + extra) (by
      intro delivery hmem
      rw [wholeSource] at hmem
      split at hmem
      · cases hmem
      · next hne => exact ⟨inputOf chunks, List.mem_singleton.mp hmem, hne⟩)
    (by rw [delivered_wholeSource]; omega)
  rw [delivered_wholeSource] at hwhole
  exact ⟨hchunked.trans hwhole.symm, hchunked⟩

end Stdx.Csv
