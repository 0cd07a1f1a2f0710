import Stdx.Postgresql.CopyChunks

/-!
# Reading a `COPY` back

A reader that is not done is described by the octets it has yet to see, in the buffer or in
the channel; where they are cut makes no difference before the trailer.
-/

namespace Stdx.Postgresql

open Stdx.Foundation

def CopyOut.preamble (s : CopyOut) : Bytes :=
  if s.headerSkipped then [] else COPY_HEADER

/-- A reader with these octets before it. -/
structure Open (s : CopyOut) (data : Bytes) : Prop where
  running : s.done = false
  unseen : s.trailerSeen = false
  chunks : ∃ chunks : List Bytes, s.pending = chunks.map .ok ∧ s.buf ++ chunks.flatten = data

theorem open_new (chunks : List Bytes) : Open (.new (chunks.map .ok)) chunks.flatten :=
  ⟨rfl, rfl, chunks, rfl, by simp [CopyOut.new]⟩

section

variable {T : Target} {limit : RowLimit T} {τ : Type}
variable {decode : List (Option Bytes) → Except Error τ}

theorem settle_of_ne (buf : Bytes) {result : Outcome Error (Option τ)} (h : result ≠ .ok none) :
    settle buf result = result := by
  cases result with
  | ok row =>
    cases row with
    | none => exact absurd rfl h
    | some row => rfl
  | err err => rfl
  | panic => rfl

theorem parses_row {s : CopyOut} {fields : List (Option Bytes)} {rest : Bytes}
    (hbuf : s.buf = s.preamble ++ (rowOctets fields ++ rest)) (h : Accepts limit fields) :
    Parses limit decode s (yielded (decode fields))
      { s with buf := rest, headerSkipped := true } := by
  obtain ⟨pending, buf, skipped, seen, done⟩ := s
  cases skipped with
  | true => exact .row rfl hbuf h
  | false =>
    apply Parses.skip rfl hbuf
    exact .row rfl rfl h

theorem parses_trailer {s : CopyOut} {rest : Bytes}
    (hbuf : s.buf = s.preamble ++ ([0xff, 0xff] ++ rest)) :
    Parses limit decode s (.ok none)
      { s with buf := rest, headerSkipped := true, trailerSeen := true, done := true } := by
  obtain ⟨pending, buf, skipped, seen, done⟩ := s
  cases skipped with
  | true => exact .trailer rfl hbuf
  | false =>
    apply Parses.skip rfl hbuf
    exact .trailer rfl rfl

theorem Open.next {s t : CopyOut} {data : Bytes} {result : Outcome Error (Option τ)}
    (h : Open s data) (hparses : Parses limit decode { s with buf := data } result t) :
    (result = .ok none ∧ Waiting limit t ∧ t.done = false ∧
        s.next limit decode = (.err truncated, { t with pending := [], done := true })) ∨
      (result = .ok none → t.done = true) ∧ ∃ (buf : Bytes) (rest : List Bytes),
        t.buf = buf ++ rest.flatten ∧ s.next limit decode =
          (settle buf result, { t with buf := buf, pending := rest.map .ok }) := by
  obtain ⟨hdone, htrailer, chunks, hpending, rfl⟩ := h
  have hpush : s.push chunks.flatten = { s with buf := s.buf ++ chunks.flatten } := rfl
  have hcases := @nextFrom_cases _ limit _ decode chunks _ hdone htrailer
  rw [← hpending, hpush, hparses.eq] at hcases
  rcases hcases with ⟨u, hparse, hwait, hopen, hnext⟩ | ⟨other, u, rest, hparse, hend, hnext⟩
  · obtain ⟨rfl, rfl⟩ := Prod.mk.inj hparse
    exact .inl ⟨rfl, hwait, hopen, hnext⟩
  · obtain ⟨rfl, rfl⟩ := Prod.mk.inj hparse
    exact .inr ⟨hend, u.buf, rest, rfl, hnext⟩

theorem Open.next_row {s : CopyOut} {fields : List (Option Bytes)} {rest : Bytes}
    (h : Open s (s.preamble ++ (rowOctets fields ++ rest))) (haccepts : Accepts limit fields) :
    ∃ t, s.next limit decode = (yielded (decode fields), t) ∧ Open t rest ∧
      t.headerSkipped = true := by
  have hparses := @parses_row _ _ _ decode
    { s with buf := s.preamble ++ (rowOctets fields ++ rest) } _ _ rfl haccepts
  obtain ⟨hnone, _⟩ | ⟨_, buf, chunks, hbuf, hnext⟩ := h.next hparses
  · exact absurd hnone (yielded_ne_none _)
  · rw [settle_of_ne buf (yielded_ne_none _)] at hnext
    exact ⟨_, hnext, ⟨h.running, h.unseen, chunks, rfl, hbuf.symm⟩, rfl⟩

/-- A prefix that ends before what the parser takes of the whole ends in an error. -/
theorem Open.next_short {s t : CopyOut} {data more : Bytes} {result : Outcome Error (Option τ)}
    (h : Open s data)
    (hparses : Parses limit decode { s with buf := data ++ more } result t)
    (hshort : t.buf.length < more.length) :
    ∃ err, (s.next limit decode).1 = .err err := by
  obtain ⟨other, u, hprefix⟩ := @parses _ limit _ decode { s with buf := data }
  have hmore : CopyOut.push { s with buf := data } more = { s with buf := data ++ more } := rfl
  obtain ⟨hnone, _, hopen, _⟩ | ⟨_, hpush⟩ := hprefix.push h.running h.unseen
  · obtain ⟨_, _, _, hnext⟩ | ⟨hend, _⟩ := h.next hprefix
    · exact ⟨_, by rw [hnext]⟩
    · rw [hopen] at hend
      exact absurd (hend hnone) (by simp)
  · have heq := hpush more
    rw [hmore, hparses.eq] at heq
    obtain ⟨rfl, rfl⟩ := Prod.mk.inj heq
    rw [CopyOut.push, List.length_append] at hshort
    omega

/-! ## Runs -/

variable (limit decode)

theorem after_succ (s : CopyOut) (count : Nat) :
    CopyOut.after limit decode s (count + 1) =
      CopyOut.after limit decode (s.next limit decode).2 count := by
  induction count with
  | zero => rfl
  | succ count ih =>
    rw [CopyOut.after, ih]
    rfl

theorem after_add (s : CopyOut) (first second : Nat) :
    CopyOut.after limit decode s (first + second) =
      CopyOut.after limit decode (CopyOut.after limit decode s first) second := by
  induction second with
  | zero => rfl
  | succ second ih => rw [← Nat.add_assoc, CopyOut.after, ih, CopyOut.after]

theorem result_succ (s : CopyOut) (count : Nat) :
    CopyOut.result limit decode s (count + 1) =
      CopyOut.result limit decode (s.next limit decode).2 count := by
  unfold CopyOut.result
  rw [after_succ]

theorem result_zero (s : CopyOut) :
    CopyOut.result limit decode s 0 = (s.next limit decode).1 := rfl

variable {limit decode}

/-- A reader behind the end of its stream. -/
structure Idle (limit : RowLimit T) (s : CopyOut) : Prop where
  done : s.done = true
  waiting : Waiting limit s
  empty : s.trailerSeen = true → s.buf = []

theorem Idle.next {s : CopyOut} (h : Idle limit s) :
    s.next limit decode = (settle s.buf (.ok none), s) := by
  have hparse := (@Parses.wait _ _ _ decode _ h.waiting).eq
  have hattempt := attempt_stop hparse (fun _ => h.done)
  unfold CopyOut.next
  cases hpending : s.pending with
  | nil =>
    rw [nextFrom, hattempt]
    simp only [← hpending]
  | cons chunk rest =>
    rw [nextFrom, hattempt]
    simp only [← hpending]

theorem Idle.after {s : CopyOut} (h : Idle limit s) (count : Nat) :
    CopyOut.after limit decode s count = s := by
  induction count with
  | zero => rfl
  | succ count ih => rw [CopyOut.after, ih, h.next]

theorem Open.rows {rows : List (List (Option Bytes))} {s : CopyOut} {rest : Bytes}
    (h : Open s (s.preamble ++ (rows.flatMap rowOctets ++ rest)))
    (haccepts : ∀ row ∈ rows, Accepts limit row) :
    (∀ i row, rows[i]? = some row →
        CopyOut.result limit decode s i = yielded (decode row)) ∧
      ∃ t, CopyOut.after limit decode s rows.length = t ∧ Open t (t.preamble ++ rest) ∧
        (rows = [] → t = s) := by
  induction rows generalizing s with
  | nil => exact ⟨by simp, s, rfl, h, fun _ => rfl⟩
  | cons fields rows ih =>
    rw [List.flatMap_cons, List.append_assoc] at h
    obtain ⟨t, hnext, hopen, hskipped⟩ :=
      @Open.next_row _ _ _ decode _ _ _ h (haccepts fields List.mem_cons_self)
    have hpreamble : t.preamble = [] := by rw [CopyOut.preamble, if_pos hskipped]
    obtain ⟨hresults, u, hafter, hrest, _⟩ := ih (s := t) (by rwa [hpreamble])
      (fun row hmem => haccepts row (List.mem_cons_of_mem _ hmem))
    refine ⟨?_, u, ?_, hrest, by simp⟩
    · intro i row hrow
      cases i with
      | zero =>
        rw [result_zero, hnext]
        simp only [List.getElem?_cons_zero, Option.some.injEq] at hrow
        rw [hrow]
      | succ i =>
        rw [result_succ, hnext]
        exact hresults i row (by simpa using hrow)
    · rw [List.length_cons, after_succ, hnext, hafter]

theorem Open.next_trailer {s : CopyOut} (h : Open s (s.preamble ++ [0xff, 0xff])) :
    ∃ t, s.next limit decode = (.ok none, t) ∧ Idle limit t ∧ t.buf = [] := by
  have hparses := @parses_trailer _ limit _ decode { s with buf := s.preamble ++ [0xff, 0xff] } []
    rfl
  obtain ⟨_, _, hrunning, _⟩ | ⟨_, buf, chunks, hbuf, hnext⟩ := h.next hparses
  · simp at hrunning
  · simp only at hbuf
    obtain ⟨rfl, _⟩ := List.append_eq_nil_iff.mp hbuf.symm
    exact ⟨_, hnext, ⟨rfl, .inl (by simp), fun _ => rfl⟩, rfl⟩

theorem Open.ends_early {rows : List (List (Option Bytes))} {s : CopyOut} {data more : Bytes}
    (h : Open s data) (haccepts : ∀ row ∈ rows, Accepts limit row) (hmore : more ≠ [])
    (hdata : data ++ more = s.preamble ++ (rows.flatMap rowOctets ++ [0xff, 0xff])) :
    ∃ count ≤ rows.length, (∀ i row, i < count → rows[i]? = some row →
        CopyOut.result limit decode s i = yielded (decode row)) ∧
      ∃ err, CopyOut.result limit decode s count = .err err := by
  have hpos := List.length_pos_of_ne_nil hmore
  induction rows generalizing s data with
  | nil =>
    have hparses := @parses_trailer _ limit _ decode { s with buf := data ++ more } []
      (by simpa [CopyOut.preamble] using hdata)
    exact ⟨0, le_rfl, by simp, h.next_short hparses hpos⟩
  | cons fields rows ih =>
    rw [List.flatMap_cons, List.append_assoc] at hdata
    have hfields := haccepts fields List.mem_cons_self
    by_cases hshort : data.length < (s.preamble ++ rowOctets fields).length
    · have hparses := @parses_row _ _ _ decode { s with buf := data ++ more } _ _ hdata hfields
      have hlength := congrArg List.length hdata
      rw [← List.append_assoc, List.length_append, List.length_append] at hlength
      exact ⟨0, by simp, by simp, h.next_short hparses (by simp only; omega)⟩
    · rw [← List.append_assoc] at hdata
      obtain ⟨tail, rfl, htail⟩ : ∃ tail, data = s.preamble ++ rowOctets fields ++ tail ∧
          tail ++ more = rows.flatMap rowOctets ++ [0xff, 0xff] := by
        refine ⟨data.drop (s.preamble ++ rowOctets fields).length, ?_, ?_⟩
        · have htake := congrArg (List.take (s.preamble ++ rowOctets fields).length) hdata
          rw [List.take_left, List.take_append_of_le_length (by omega)] at htake
          conv_rhs => lhs; rw [← htake]
          rw [List.take_append_drop]
        · have hdrop := congrArg (List.drop (s.preamble ++ rowOctets fields).length) hdata
          rw [List.drop_left, List.drop_append_of_le_length (by omega)] at hdrop
          exact hdrop
      rw [List.append_assoc] at h
      obtain ⟨t, hnext, hopen, hskipped⟩ := @Open.next_row _ _ _ decode _ _ _ h hfields
      have hpreamble : t.preamble = [] := by rw [CopyOut.preamble, if_pos hskipped]
      obtain ⟨count, hcount, hresults, err, herr⟩ := ih hopen
        (fun row hmem => haccepts row (List.mem_cons_of_mem _ hmem))
        (by rw [hpreamble, List.nil_append, htail])
      refine ⟨count + 1, by simpa using hcount, ?_, err, by rw [result_succ, hnext, herr]⟩
      intro i row hi hrow
      cases i with
      | zero =>
        rw [result_zero, hnext]
        simp only [List.getElem?_cons_zero, Option.some.injEq] at hrow
        rw [hrow]
      | succ i =>
        rw [result_succ, hnext]
        exact hresults i row (by omega) (by simpa using hrow)

/-! ## Writing and reading -/

theorem flatMap_encodeCopyRow {rows : List (List Encoding)}
    (h : ∀ row ∈ rows, (encodeCopyRow row).2 = .ok ()) :
    (rows.flatMap fun row => (encodeCopyRow row).1) =
      (rows.map (List.map Encoding.field)).flatMap rowOctets := by
  induction rows with
  | nil => rfl
  | cons row rows ih =>
    rw [List.flatMap_cons, List.map_cons, List.flatMap_cons,
      encodeCopyRow_octets row (h row List.mem_cons_self),
      ih fun other hmem => h other (List.mem_cons_of_mem _ hmem)]

variable (decode)

/-- Rows that `encode_copy_row` frames within the limit come back in order, whatever the
chunks, and a stream that ends early is an error behind some of them. -/
theorem copy_round_trip (rows : List (List Encoding))
    (hrows : ∀ row ∈ rows, row.length ≤ 32767 ∧ (encodeCopyRow row).2 = .ok () ∧
      (encodeCopyRow row).1.length ≤ limit.bytes) (chunks : List Bytes) :
    (chunks.flatten =
        COPY_HEADER ++ (rows.flatMap fun row => (encodeCopyRow row).1) ++ [0xff, 0xff] →
      (∀ i row, rows[i]? = some row →
        CopyOut.result limit decode (.new (chunks.map .ok)) i =
          yielded (decode (row.map Encoding.field))) ∧
      ∀ i, rows.length ≤ i →
        CopyOut.result limit decode (.new (chunks.map .ok)) i = .ok none) ∧
    ∀ more, more ≠ [] →
      chunks.flatten ++ more =
        COPY_HEADER ++ (rows.flatMap fun row => (encodeCopyRow row).1) ++ [0xff, 0xff] →
      ∃ count ≤ rows.length,
        (∀ i row, i < count → rows[i]? = some row →
          CopyOut.result limit decode (.new (chunks.map .ok)) i =
            yielded (decode (row.map Encoding.field))) ∧
        ∃ err, CopyOut.result limit decode (.new (chunks.map .ok)) count = .err err := by
  have haccepts : ∀ row ∈ rows.map (List.map Encoding.field), Accepts limit row := by
    intro fields hmem
    obtain ⟨row, hrow, rfl⟩ := List.mem_map.mp hmem
    obtain ⟨hcount, hencodes, hlength⟩ := hrows row hrow
    exact encodeCopyRow_accepts limit hencodes hcount hlength
  have hindex : ∀ (i : Nat) (row : List Encoding), rows[i]? = some row →
      (rows.map (List.map Encoding.field))[i]? = some (row.map Encoding.field) := by
    intro i row hrow
    rw [List.getElem?_map, hrow]
    rfl
  have hopen := open_new chunks
  rw [flatMap_encodeCopyRow fun row hmem => (hrows row hmem).2.1]
  constructor
  · intro hdata
    rw [hdata, List.append_assoc] at hopen
    obtain ⟨hresults, t, hafter, hbehind, _⟩ :=
      @Open.rows _ _ _ decode _ (.new (chunks.map .ok)) _ hopen haccepts
    refine ⟨fun i row hrow => hresults i _ (hindex i row hrow), fun i hi => ?_⟩
    obtain ⟨u, hnext, hidle, hempty⟩ := @Open.next_trailer _ limit _ decode _ hbehind
    obtain ⟨extra, rfl⟩ := Nat.exists_eq_add_of_le hi
    rw [List.length_map] at hafter
    cases extra with
    | zero => rw [Nat.add_zero, CopyOut.result, hafter, hnext]
    | succ extra =>
      have hrun : CopyOut.after limit decode (.new (chunks.map .ok)) (rows.length + 1) = u := by
        rw [CopyOut.after, hafter, hnext]
      rw [CopyOut.result, Nat.add_comm extra, ← Nat.add_assoc, after_add, hrun, hidle.after,
        hidle.next, hempty]
      rfl
  · intro more hmore hdata
    rw [List.append_assoc] at hdata
    obtain ⟨count, hcount, hresults, herr⟩ :=
      @Open.ends_early _ _ _ decode _ _ _ _ hopen haccepts hmore hdata
    rw [List.length_map] at hcount
    exact ⟨count, hcount, fun i row hi hrow => hresults i _ hi (hindex i row hrow), herr⟩

/-- A value and a `NULL`, with the header, the row and the trailer each cut in two. -/
theorem copy_round_trip_cut :
    CopyOut.result (T := ⟨32, by decide⟩) ⟨100, by decide⟩ (fun fields => .ok fields)
      (.new ([[0x50, 0x47], [0x43, 0x4f, 0x50, 0x59, 0x0a, 0xff, 0x0d, 0x0a, 0, 0, 0, 0, 0, 0, 0,
        0, 0], [0x00, 0x02, 0x00], [], [0x00, 0x00, 0x01, 0x07, 0xff, 0xff, 0xff, 0xff, 0xff],
        [0xff]].map .ok)) 0 = .ok (some [some [7], none]) :=
  ((copy_round_trip (fun fields => .ok fields)
      [[⟨[7], .ok .notNull⟩, ⟨[], .ok .null⟩]] (by decide) _).1 (by decide)).1 0 _ rfl

end

end Stdx.Postgresql
