import Stdx.Postgresql.CopyReading

/-!
# How strict the reader is

The trailer ends the polling of the channel, so octets behind it are seen only where they
came in the same chunk; and a call after that error parses them once more.  The limit is
compared with the end of every value, but with no `NULL` and with no row of no fields.
-/

namespace Stdx.Postgresql

open Stdx.Foundation

def unread : List (Except Error Bytes) → Bytes
  | [] => []
  | .ok chunk :: rest => chunk ++ unread rest
  | .error _ :: rest => unread rest

theorem unread_ok (chunks : List Bytes) : unread (chunks.map .ok) = chunks.flatten := by
  induction chunks with
  | nil => rfl
  | cons chunk chunks ih => rw [List.map_cons, unread, ih, List.flatten_cons]

section

variable {T : Target} (limit : RowLimit T)

/-- Chunks do not matter; no row is yielded behind the trailer; what follows the trailer is
an error of the call that meets it; every row lies within the limit. -/
def CopyStrict (data : Bytes) : Prop :=
  ∀ (τ : Type) (decode : List (Option Bytes) → Except Error τ) (chunks : List Bytes),
    chunks.flatten = data →
    (∀ others : List Bytes, others.flatten = data → ∀ count,
      CopyOut.result limit decode (.new (chunks.map .ok)) count =
        CopyOut.result limit decode (.new (others.map .ok)) count) ∧
    ∀ count,
      (∀ row, CopyOut.result limit decode (.new (chunks.map .ok)) count = .ok (some row) →
        (CopyOut.after limit decode (.new (chunks.map .ok)) count).trailerSeen = false ∧
        ∃ fields, decode fields = .ok row ∧ (rowOctets fields).length ≤ limit.bytes) ∧
      ∀ t, t = CopyOut.after limit decode (.new (chunks.map .ok)) (count + 1) →
        (CopyOut.after limit decode (.new (chunks.map .ok)) count).trailerSeen = false →
        t.trailerSeen = true → t.buf ++ unread t.pending ≠ [] →
        ∃ err, CopyOut.result limit decode (.new (chunks.map .ok)) count = .err err

/-- Nothing follows the trailer behind rows the reader takes. -/
def EndsAtTrailer (front data : Bytes) : Prop :=
  ∀ (rows : List (List (Option Bytes))) (rest : Bytes), (∀ row ∈ rows, Accepts limit row) →
    data = front ++ (rows.flatMap rowOctets ++ ([0xff, 0xff] ++ rest)) → rest = []

/-- The rows the reader takes lie within the limit, their `NULL`s counted. -/
def RowsWithin (front data : Bytes) : Prop :=
  ∀ (rows : List (List (Option Bytes))) (rest : Bytes), (∀ row ∈ rows, Accepts limit row) →
    data = front ++ (rows.flatMap rowOctets ++ rest) →
    ∀ row ∈ rows, (rowOctets row).length ≤ limit.bytes

variable {limit}

theorem EndsAtTrailer.row {front rest : Bytes} {fields : List (Option Bytes)}
    (h : EndsAtTrailer limit front (front ++ (rowOctets fields ++ rest)))
    (haccepts : Accepts limit fields) : EndsAtTrailer limit [] rest := by
  intro rows more hrows hrest
  apply h (fields :: rows) more
  · simpa [haccepts] using hrows
  · rw [hrest, List.flatMap_cons, List.nil_append, List.append_assoc]

theorem RowsWithin.row {front rest : Bytes} {fields : List (Option Bytes)}
    (h : RowsWithin limit front (front ++ (rowOctets fields ++ rest)))
    (haccepts : Accepts limit fields) :
    (rowOctets fields).length ≤ limit.bytes ∧ RowsWithin limit [] rest := by
  constructor
  · exact h [fields] rest (by simpa using haccepts) (by simp) fields List.mem_cons_self
  · intro rows more hrows hrest row hmem
    apply h (fields :: rows) more _ _ row (List.mem_cons_of_mem _ hmem)
    · simpa [haccepts] using hrows
    · rw [hrest, List.flatMap_cons, List.nil_append, List.append_assoc]

theorem EndsAtTrailer.skip {rest : Bytes}
    (h : EndsAtTrailer limit COPY_HEADER (COPY_HEADER ++ rest)) : EndsAtTrailer limit [] rest := by
  intro rows more hrows hrest
  exact h rows more hrows (by rw [hrest, List.nil_append])

theorem RowsWithin.skip {rest : Bytes}
    (h : RowsWithin limit COPY_HEADER (COPY_HEADER ++ rest)) : RowsWithin limit [] rest := by
  intro rows more hrows hrest
  exact h rows more hrows (by rw [hrest, List.nil_append])

theorem preamble_skipped {s : CopyOut} (h : s.headerSkipped = true) : s.preamble = [] := by
  rw [CopyOut.preamble, if_pos h]

theorem preamble_new {s : CopyOut} (h : s.headerSkipped = false) : s.preamble = COPY_HEADER := by
  rw [CopyOut.preamble, h, if_neg (by simp)]

variable {τ : Type} {decode : List (Option Bytes) → Except Error τ}

theorem Parses.pending {s t : CopyOut} {result : Outcome Error (Option τ)}
    (h : Parses limit decode s result t) (chunks : List (Except Error Bytes)) :
    Parses limit decode { s with pending := chunks } result { t with pending := chunks } := by
  induction h with
  | row hskipped hbuf haccepts => exact .row hskipped hbuf haccepts
  | trailer hskipped hbuf => exact .trailer hskipped hbuf
  | fault h => exact .fault h
  | wait h => exact .wait h
  | skip hskipped hbuf _ ih => exact .skip hskipped hbuf ih

theorem Parses.keeps {s t : CopyOut} {result : Outcome Error (Option τ)}
    (h : Parses limit decode s result t) (hdone : s.done = false) (hunseen : s.trailerSeen = false)
    (hends : EndsAtTrailer limit s.preamble s.buf) (hwithin : RowsWithin limit s.preamble s.buf) :
    (result ≠ .ok none ∧ t.done = false ∧ t.trailerSeen = false ∧
        EndsAtTrailer limit t.preamble t.buf ∧ RowsWithin limit t.preamble t.buf ∧
        ∀ row, result = .ok (some row) →
          ∃ fields, decode fields = .ok row ∧ (rowOctets fields).length ≤ limit.bytes) ∨
      result = .ok none ∧ (t.done = true → t.headerSkipped = true ∧ t.buf = []) ∧
        (t.done = false → Waiting limit t ∧ t.trailerSeen = false) := by
  induction h with
  | @row s fields rest hskipped hbuf haccepts =>
    rw [preamble_skipped hskipped, hbuf] at hends hwithin
    obtain ⟨hlength, hrest⟩ := @RowsWithin.row _ _ [] _ _ hwithin haccepts
    have hpreamble : CopyOut.preamble { s with buf := rest } = [] := preamble_skipped hskipped
    refine .inl ⟨yielded_ne_none _, hdone, hunseen, ?_, ?_, ?_⟩
    · rw [hpreamble]
      exact @EndsAtTrailer.row _ _ [] _ _ hends haccepts
    · rw [hpreamble]
      exact hrest
    · intro row hrow
      refine ⟨fields, ?_, hlength⟩
      cases hdecode : decode fields with
      | ok value =>
        rw [hdecode] at hrow
        simpa [yielded] using hrow
      | error err =>
        rw [hdecode] at hrow
        simp [yielded] at hrow
  | @trailer s rest hskipped hbuf =>
    rw [preamble_skipped hskipped, hbuf] at hends
    exact .inr ⟨rfl, fun _ => ⟨hskipped, hends [] rest (by simp) rfl⟩, fun h => by simp at h⟩
  | fault h => exact .inl ⟨by simp, hdone, hunseen, hends, hwithin, by simp⟩
  | wait h => exact .inr ⟨rfl, fun h => by simp [hdone] at h, fun _ => ⟨h, hunseen⟩⟩
  | skip hskipped hbuf _ ih =>
    rw [preamble_new hskipped, hbuf] at hends hwithin
    exact ih hdone hunseen hends.skip hwithin.skip

theorem Open.step {s t : CopyOut} {data : Bytes} {result : Outcome Error (Option τ)}
    (h : Open s data) (hparses : Parses limit decode { s with buf := data } result t)
    (hends : EndsAtTrailer limit s.preamble data) (hwithin : RowsWithin limit s.preamble data) :
    (result ≠ .ok none ∧ (s.next limit decode).1 = result ∧
        Open (s.next limit decode).2 t.buf ∧
        (s.next limit decode).2.headerSkipped = t.headerSkipped) ∨
      (result = .ok none ∧
        (s.next limit decode).1 = (if t.done then .ok none else .err truncated) ∧
        Idle limit (s.next limit decode).2 ∧ (s.next limit decode).2.buf = t.buf ∧
        ((s.next limit decode).2.trailerSeen = true →
          unread (s.next limit decode).2.pending = [])) := by
  have hkeeps := hparses.keeps h.running h.unseen hends hwithin
  obtain ⟨hnone, hwait, hrunning, hnext⟩ | ⟨hend, buf, rest, hbuf, hnext⟩ := h.next hparses
  · obtain ⟨hne, _⟩ | ⟨_, _, hwaiting⟩ := hkeeps
    · exact absurd hnone hne
    · refine .inr ⟨hnone, by rw [hnext, hrunning]; rfl, ?_, by rw [hnext],
        by rw [hnext]; simp [unread]⟩
      rw [hnext]
      exact ⟨rfl, hwait, fun hseen => by simp [(hwaiting hrunning).2] at hseen⟩
  · obtain ⟨hne, hrunning, hunseen, _⟩ | ⟨hnone, hended, _⟩ := hkeeps
    · refine .inl ⟨hne, by rw [hnext, settle_of_ne buf hne], ?_, by rw [hnext]⟩
      rw [hnext]
      exact ⟨hrunning, hunseen, rest, rfl, hbuf.symm⟩
    · obtain ⟨hskipped, hempty⟩ := hended (hend hnone)
      rw [hempty] at hbuf
      obtain ⟨rfl, hrest⟩ := List.append_eq_nil_iff.mp hbuf.symm
      refine .inr ⟨hnone, ?_, ?_, by rw [hnext, hempty], ?_⟩
      · rw [hnext, hend hnone, hnone]
        rfl
      · rw [hnext]
        refine ⟨hend hnone, ?_, fun _ => rfl⟩
        unfold Waiting
        simp only [hskipped]
        exact .inl (by simp)
      · intro _
        rw [hnext, unread_ok, hrest]

/-- Two readers that have the same octets before them, or have both come to the end. -/
inductive Related (limit : RowLimit T) : CopyOut → CopyOut → Prop
  | running {s other : CopyOut} {data : Bytes} : Open s data → Open other data →
      s.headerSkipped = other.headerSkipped → EndsAtTrailer limit s.preamble data →
      RowsWithin limit s.preamble data → Related limit s other
  | ended {s other : CopyOut} : Idle limit s → Idle limit other → s.buf = other.buf →
      Related limit s other

theorem Related.next {s other : CopyOut} (h : Related limit s other) :
    (s.next limit decode).1 = (other.next limit decode).1 ∧
      Related limit (s.next limit decode).2 (other.next limit decode).2 := by
  cases h with
  | ended hs hother hbuf =>
    rw [hs.next, hother.next, hbuf]
    exact ⟨rfl, .ended hs hother hbuf⟩
  | @running data hs hother hskipped hends hwithin =>
    obtain ⟨result, t, hparses⟩ :=
      @parses _ limit _ decode { s with buf := data }
    have hsame : ({ s with buf := data, pending := other.pending } : CopyOut) =
        { other with buf := data } := by
      simp [hskipped, hs.running, hother.running, hs.unseen, hother.unseen]
    have hparses' := hparses.pending other.pending
    rw [hsame] at hparses'
    have hpreamble : other.preamble = s.preamble := by
      rw [CopyOut.preamble, CopyOut.preamble, hskipped]
    have hstep := hs.step hparses hends hwithin
    have hstep' := hother.step hparses' (by rwa [hpreamble]) (by rwa [hpreamble])
    rcases hstep with ⟨hne, hresult, hopen, hs'⟩ | ⟨hnone, hresult, hidle, hbuf, _⟩
    · obtain ⟨_, hresult', hopen', ho'⟩ | ⟨hnone', _⟩ := hstep'
      · obtain ⟨_, _, _, hends', hwithin', _⟩ | ⟨hnone', _⟩ :=
          hparses.keeps hs.running hs.unseen hends hwithin
        · have hnext : (s.next limit decode).2.preamble = t.preamble := by
            rw [CopyOut.preamble, CopyOut.preamble, hs']
          refine ⟨hresult.trans hresult'.symm, .running hopen hopen' (hs'.trans ho'.symm) ?_ ?_⟩
          · rwa [hnext]
          · rwa [hnext]
        · exact absurd hnone' hne
      · exact absurd hnone' hne
    · obtain ⟨hne, _⟩ | ⟨_, hresult', hidle', hbuf', _⟩ := hstep'
      · exact absurd hnone hne
      · exact ⟨hresult.trans hresult'.symm, .ended hidle hidle' (hbuf.trans hbuf'.symm)⟩

theorem Related.after {s other : CopyOut} (h : Related limit s other) (count : Nat) :
    Related limit (CopyOut.after limit decode s count)
    (CopyOut.after limit decode other count) := by
  induction count with
  | zero => exact h
  | succ count ih => exact ih.next.2

/-! ## Both directions -/

theorem copyStrict_of_ends {data : Bytes} (hends : EndsAtTrailer limit COPY_HEADER data)
    (hwithin : RowsWithin limit COPY_HEADER data) : CopyStrict limit data := by
  intro τ decode chunks hchunks
  have hopen := open_new chunks
  rw [hchunks] at hopen
  have hstart : ∀ others : List Bytes, others.flatten = data →
      Related limit (.new (chunks.map .ok)) (.new (others.map .ok)) := by
    intro others hothers
    have hother := open_new others
    rw [hothers] at hother
    exact .running hopen hother rfl hends hwithin
  constructor
  · intro others hothers count
    exact ((hstart others hothers).after count).next.1
  intro count
  have hrun := @Related.after _ _ _ decode _ _ (hstart chunks hchunks) count
  generalize hs : CopyOut.after limit decode (.new (chunks.map .ok)) count = s at hrun
  have hresult : CopyOut.result limit decode (.new (chunks.map .ok)) count =
      (s.next limit decode).1 := by rw [CopyOut.result, hs]
  have hnext : CopyOut.after limit decode (.new (chunks.map .ok)) (count + 1) =
      (s.next limit decode).2 := by rw [CopyOut.after, hs]
  rw [hresult, hnext]
  cases hrun with
  | @running data hopen _ _ hends hwithin =>
    obtain ⟨result, t, hparses⟩ :=
      @parses _ limit _ decode { s with buf := data }
    have hkeeps := hparses.keeps hopen.running hopen.unseen hends hwithin
    obtain ⟨hne, hfirst, hafter, _⟩ | ⟨hnone, hfirst, hidle, hbuf, hunread⟩ :=
      hopen.step hparses hends hwithin
    · constructor
      · intro row hrow
        obtain ⟨_, _, _, _, _, hrows⟩ | ⟨hnone, _⟩ := hkeeps
        · exact ⟨hopen.unseen, hrows row (hfirst.symm.trans hrow)⟩
        · exact absurd hnone hne
      · intro u hu _ hseen
        rw [hu, hafter.unseen] at hseen
        simp at hseen
    · constructor
      · intro row hrow
        rw [hfirst] at hrow
        split at hrow <;> simp at hrow
      · intro u hu _ hseen hleft
        subst hu
        rw [hidle.empty hseen, hunread hseen] at hleft
        simp at hleft
  | ended hidle _ _ =>
    rw [hidle.next]
    constructor
    · intro row hrow
      simp only [settle] at hrow
      split at hrow <;> simp at hrow
    · intro u hu hunseen hseen
      rw [hu, hunseen] at hseen
      simp at hseen

theorem attempt_pending (s : CopyOut) (chunks : List (Except Error Bytes)) :
    attempt limit decode { s with pending := chunks } =
      ((attempt limit decode s).1, { (attempt limit decode s).2 with pending := chunks }) := by
  obtain ⟨result, t, h⟩ := @parses _ limit _ decode s
  rw [attempt, attempt, h.eq, (h.pending chunks).eq]
  cases result with
  | err err => rfl
  | panic => rfl
  | ok row =>
    cases row with
    | some row => rfl
    | none => cases hdone : t.done <;> simp [hdone]

theorem nextFrom_pending (pending : List (Except Error Bytes)) (s : CopyOut)
    (chunks : List (Except Error Bytes)) :
    nextFrom limit decode pending { s with pending := chunks } =
      nextFrom limit decode pending s := by
  induction pending generalizing s with
  | nil =>
    rw [nextFrom, nextFrom, attempt_pending]
    rcases attempt limit decode s with ⟨_ | result, t⟩ <;> rfl
  | cons chunk pending ih =>
    rw [nextFrom, nextFrom, attempt_pending]
    rcases attempt limit decode s with ⟨_ | result, t⟩
    · cases chunk with
      | error err => rfl
      | ok octets => exact ih { t with buf := t.buf ++ octets }
    · rfl

theorem result_new_cons (chunk : Bytes) (chunks : List (Except Error Bytes)) (count : Nat) :
    CopyOut.result limit decode (.new (.ok chunk :: chunks)) count =
      CopyOut.result limit decode ⟨chunks, chunk, false, false, false⟩ count := by
  have hnext : (CopyOut.new (.ok chunk :: chunks)).next limit decode =
      CopyOut.next limit decode ⟨chunks, chunk, false, false, false⟩ := by
    have hwait : Waiting limit (CopyOut.new (.ok chunk :: chunks)) := by
      simp [Waiting, CopyOut.new, COPY_HEADER]
    have hattempt := attempt_wait (@Parses.wait _ _ _ decode _ hwait).eq rfl
    rw [CopyOut.next, CopyOut.new, nextFrom]
    rw [CopyOut.new] at hattempt
    rw [hattempt]
    exact nextFrom_pending chunks ⟨chunks, chunk, false, false, false⟩ (.ok chunk :: chunks)
  cases count with
  | zero => rw [result_zero, result_zero, hnext]
  | succ count => rw [result_succ, result_succ, hnext]

theorem next_buffered {s t : CopyOut} {result : Outcome Error (Option τ)}
    (h : Parses limit decode s result t) (hdone : result = .ok none → t.done = true) :
    s.next limit decode = (settle t.buf result, { t with pending := s.pending }) := by
  have hattempt := attempt_stop h.eq hdone
  unfold CopyOut.next
  cases s.pending with
  | nil => rw [nextFrom, hattempt]
  | cons chunk rest => rw [nextFrom, hattempt]

/-- A trailer that ends the buffer ends the stream, whatever is left in the channel. -/
theorem result_buffered {rows : List (List (Option Bytes))} {s : CopyOut} {rest : Bytes}
    (hbuf : s.buf = s.preamble ++ (rows.flatMap rowOctets ++ ([0xff, 0xff] ++ rest)))
    (haccepts : ∀ row ∈ rows, Accepts limit row) :
    CopyOut.result limit decode s rows.length = settle rest (.ok none) := by
  induction rows generalizing s with
  | nil =>
    have hnext := next_buffered (@parses_trailer _ limit _ decode _ rest (by simpa using hbuf))
        (fun _ => rfl)
    rw [List.length_nil, result_zero, hnext]
  | cons fields rows ih =>
    rw [List.flatMap_cons, List.append_assoc] at hbuf
    have hnext := next_buffered
      (@parses_row _ _ _ decode _ _ _ hbuf (haccepts fields List.mem_cons_self))
      (fun hnone => absurd hnone (yielded_ne_none _))
    rw [List.length_cons, result_succ, hnext]
    apply ih
    · rfl
    · exact fun row hmem => haccepts row (List.mem_cons_of_mem _ hmem)

theorem endsAtTrailer_of_strict {data : Bytes} (h : CopyStrict limit data) :
    EndsAtTrailer limit COPY_HEADER data := by
  intro rows rest haccepts hdata
  by_contra hrest
  let front := COPY_HEADER ++ (rows.flatMap rowOctets ++ [0xff, 0xff])
  have hsplit : [front, rest].flatten = data := by
    simp [front, hdata]
  have hsame := (h (List (Option Bytes)) (fun fields => .ok fields) [data] (by simp)).1
    [front, rest] hsplit rows.length
  have hwhole := @result_buffered _ _ _ (fun fields => .ok fields) _
    ⟨[], data, false, false, false⟩ _ hdata haccepts
  have hcut := @result_buffered _ _ _ (fun fields => .ok fields) _
    ⟨[.ok rest], front, false, false, false⟩ [] (by simp [front, CopyOut.preamble]) haccepts
  simp only [List.map_cons, List.map_nil] at hsame
  rw [result_new_cons, result_new_cons, hwhole, hcut] at hsame
  simp [settle, hrest] at hsame

theorem rowsWithin_of_strict {data : Bytes} (h : CopyStrict limit data) :
    RowsWithin limit COPY_HEADER data := by
  intro rows rest haccepts hdata row hmem
  obtain ⟨i, hi⟩ := List.mem_iff_getElem?.mp hmem
  have hopen := open_new [data]
  rw [List.flatten_singleton, hdata] at hopen
  have hresult := (@Open.rows _ _ _ (fun fields => .ok fields) _ (.new ([data].map .ok)) _
    (by rw [hdata]; exact hopen) haccepts).1 i row hi
  obtain ⟨_, fields, hfields, hlength⟩ :=
    ((h (List (Option Bytes)) (fun fields => .ok fields) [data] (by simp)).2 i).1 row hresult
  cases hfields
  exact hlength

/-- The reader is strict exactly on the streams that end at their trailer and whose rows lie
within the limit. -/
theorem copy_strict_iff (data : Bytes) :
    CopyStrict limit data ↔
      EndsAtTrailer limit COPY_HEADER data ∧ RowsWithin limit COPY_HEADER data := by
  constructor
  · exact fun h => ⟨endsAtTrailer_of_strict h, rowsWithin_of_strict h⟩
  · exact fun h => copyStrict_of_ends h.1 h.2

/-- An octet behind the trailer: an error in the same chunk, the end of the stream in the
next. -/
theorem copy_trailing_octet :
    ¬CopyStrict (T := ⟨32, by decide⟩) ⟨100, by decide⟩ (COPY_HEADER ++ [0xff, 0xff, 0x00]) := by
  intro h
  have hsame := (h Unit (fun _ => .ok ()) [COPY_HEADER ++ [0xff, 0xff, 0x00]] rfl).1
    [COPY_HEADER ++ [0xff, 0xff], [0x00]] rfl 0
  exact absurd hsame (by decide)

end

end Stdx.Postgresql
