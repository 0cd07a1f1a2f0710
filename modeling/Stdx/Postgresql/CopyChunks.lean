import Stdx.Postgresql.CopyGrammar

/-!
# Reading across chunks

`Parses` is what one call of the parser does with the buffer.  Octets that arrive later
change it only where it waits, so a call of `next` does what the parser does with all
octets of the stream; which of them are in the buffer afterwards is left open.
-/

namespace Stdx.Postgresql

open Stdx.Foundation

section

variable {T : Target} (limit : RowLimit T) {τ : Type}
variable (decode : List (Option Bytes) → Except Error τ)

def yielded (value : Except Error τ) : Outcome Error (Option τ) :=
  match value with
  | .ok row => .ok (some row)
  | .error err => .err err

theorem yielded_ne_none (value : Except Error τ) : yielded value ≠ .ok none := by
  cases value <;> simp [yielded]

def CopyOut.push (s : CopyOut) (more : Bytes) : CopyOut :=
  { s with buf := s.buf ++ more }

@[simp] theorem push_nil (s : CopyOut) : s.push [] = s := by
  simp [CopyOut.push]

@[simp] theorem push_push (s : CopyOut) (first second : Bytes) :
    (s.push first).push second = s.push (first ++ second) := by
  simp [CopyOut.push]

/-! ## The parser -/

/-- Nothing can be said before more octets arrive. -/
def Waiting (s : CopyOut) : Prop :=
  match s.headerSkipped with
  | false => s.buf.length < COPY_HEADER.length
  | true => s.buf.length < 2 ∨
      (0 ≤ readI16 s.buf ∧ findEnd limit s.buf (readI16 s.buf).toNat 2 = .ok none)

/-- The octets at hand are wrong. -/
def Faulty (s : CopyOut) (err : Error) : Prop :=
  match s.headerSkipped with
  | false => COPY_HEADER.length ≤ s.buf.length ∧ s.buf.take COPY_HEADER.length ≠ COPY_HEADER ∧
      err = .decode "not a binary COPY stream (bad file header)"
  | true => 2 ≤ s.buf.length ∧
      (readI16 s.buf < -1 ∧
          err = .decode s!"COPY row has an invalid field count {readI16 s.buf}" ∨
        0 ≤ readI16 s.buf ∧ findEnd limit s.buf (readI16 s.buf).toNat 2 = .err err)

inductive Parses : CopyOut → Outcome Error (Option τ) → CopyOut → Prop
  | row {s : CopyOut} {fields : List (Option Bytes)} {rest : Bytes} :
      s.headerSkipped = true → s.buf = rowOctets fields ++ rest → Accepts limit fields →
      Parses s (yielded (decode fields)) { s with buf := rest }
  | trailer {s : CopyOut} {rest : Bytes} :
      s.headerSkipped = true → s.buf = [0xff, 0xff] ++ rest →
      Parses s (.ok none) { s with buf := rest, trailerSeen := true, done := true }
  | fault {s : CopyOut} {err : Error} : Faulty limit s err → Parses s (.err err) s
  | wait {s : CopyOut} : Waiting limit s → Parses s (.ok none) s
  | skip {s t : CopyOut} {result : Outcome Error (Option τ)} {rest : Bytes} :
      s.headerSkipped = false → s.buf = COPY_HEADER ++ rest →
      Parses { s with buf := rest, headerSkipped := true } result t → Parses s result t

variable {limit decode}

theorem parseBody_row {s : CopyOut} {fields : List (Option Bytes)} {rest : Bytes}
    (hbuf : s.buf = rowOctets fields ++ rest) (h : Accepts limit fields) :
    parseBody limit decode s = (yielded (decode fields), { s with buf := rest }) := by
  obtain ⟨hcount, haccepts⟩ := h
  have hlength := congrArg List.length hbuf
  rw [List.length_append, rowOctets_length] at hlength
  rw [rowOctets, List.append_assoc] at hbuf
  have hread := readI16_octets hbuf (by omega)
  rw [if_pos hcount] at hread
  have hdrop : s.buf.drop 2 = fieldsOctets fields ++ rest := by
    rw [hbuf]
    exact List.drop_left' (u16Octets_length _)
  have hend := findEnd_row limit hdrop (by omega) haccepts
  have htake : s.buf.take (2 + (fieldsOctets fields).length) = rowOctets fields := by
    rw [hbuf, ← List.append_assoc]
    exact List.take_left' (rowOctets_length fields)
  have hrest : s.buf.drop (2 + (fieldsOctets fields).length) = rest := by
    rw [← List.drop_drop, hdrop, List.drop_left]
  have hslice : sliceFields (rowOctets fields) fields.length 2 = .ok fields := by
    apply @sliceFields_row _ _ [] _
    · rw [List.append_nil]
      exact List.drop_left' (u16Octets_length _)
    · rw [rowOctets_length]
      omega
    · exact acceptsFrom_fit limit haccepts
  unfold parseBody parseRow
  rw [if_neg (by omega)]
  simp only [hread, Int.toNat_natCast]
  rw [if_neg (by omega), if_neg (by omega)]
  simp only [hend, htake, hslice, hrest]
  cases decode fields <;> rfl

theorem parseBody_trailer {s : CopyOut} {rest : Bytes} (hbuf : s.buf = [0xff, 0xff] ++ rest) :
    parseBody limit decode s =
      (.ok none, { s with buf := rest, trailerSeen := true, done := true }) := by
  have hread : readI16 s.buf = -1 := by
    rw [@readI16_octets _ _ 65535 hbuf (by omega)]
    rfl
  unfold parseBody
  rw [if_neg (by rw [hbuf]; simp)]
  simp only [hread, if_true]
  rw [hbuf]
  rfl

theorem parseBody_waiting {s : CopyOut} (hskipped : s.headerSkipped = true)
    (h : Waiting limit s) : parseBody limit decode s = (.ok none, s) := by
  unfold Waiting at h
  rw [hskipped] at h
  unfold parseBody parseRow
  rcases h with hshort | ⟨hcount, hend⟩
  · rw [if_pos hshort]
  · split
    · rfl
    · simp only
      rw [if_neg (by omega), if_neg (by omega), hend]

theorem parseBody_faulty {s : CopyOut} {err : Error} (hskipped : s.headerSkipped = true)
    (h : Faulty limit s err) : parseBody limit decode s = (.err err, s) := by
  unfold Faulty at h
  rw [hskipped] at h
  obtain ⟨hlength, h⟩ := h
  unfold parseBody parseRow
  rw [if_neg (by omega)]
  simp only
  rcases h with ⟨hcount, herr⟩ | ⟨hcount, hend⟩
  · rw [if_neg (by omega), if_pos (by omega), herr]
  · rw [if_neg (by omega), if_neg (by omega), hend]

theorem tryParse_skip {s : CopyOut} {rest : Bytes} (hskipped : s.headerSkipped = false)
    (hbuf : s.buf = COPY_HEADER ++ rest) :
    tryParse limit decode s =
      tryParse limit decode { s with buf := rest, headerSkipped := true } := by
  unfold tryParse
  rw [hskipped, if_neg (by simp), if_neg (by rw [hbuf, List.length_append]; omega),
    if_neg (by rw [hbuf, List.take_left]; simp), if_pos rfl]
  rw [hbuf, List.drop_left]

theorem Parses.eq {s t : CopyOut} {result : Outcome Error (Option τ)}
    (h : Parses limit decode s result t) : tryParse limit decode s = (result, t) := by
  induction h with
  | row hskipped hbuf haccepts =>
    rw [tryParse, if_pos hskipped, parseBody_row hbuf haccepts]
  | trailer hskipped hbuf => rw [tryParse, if_pos hskipped, parseBody_trailer hbuf]
  | @fault s err h =>
    cases hskipped : s.headerSkipped with
    | true => rw [tryParse, if_pos hskipped, parseBody_faulty hskipped h]
    | false =>
      unfold Faulty at h
      rw [hskipped] at h
      obtain ⟨hlength, hheader, herr⟩ := h
      rw [tryParse, hskipped, if_neg (by simp), if_neg (by omega), if_pos hheader, herr]
  | @wait s h =>
    cases hskipped : s.headerSkipped with
    | true => rw [tryParse, if_pos hskipped, parseBody_waiting hskipped h]
    | false =>
      unfold Waiting at h
      rw [hskipped] at h
      rw [tryParse, hskipped, if_neg (by simp), if_pos h]
  | skip hskipped hbuf _ ih => rw [tryParse_skip hskipped hbuf, ih]

theorem parses_skipped {s : CopyOut} (hskipped : s.headerSkipped = true) :
    ∃ result t, Parses limit decode s result t := by
  by_cases hlength : s.buf.length < 2
  · refine ⟨_, _, .wait ?_⟩
    unfold Waiting
    rw [hskipped]
    exact .inl hlength
  obtain ⟨count, hcount, hbuf⟩ := @octets_readI16 s.buf (by omega)
  have hread := readI16_octets hbuf hcount
  by_cases hsmall : count < 2 ^ 15
  · rw [if_pos hsmall] at hread
    have hnonneg : 0 ≤ readI16 s.buf := by omega
    cases hend : findEnd limit s.buf (readI16 s.buf).toNat 2 with
    | panic => exact absurd hend (findEnd_ne_panic limit _ _ _)
    | err err =>
      refine ⟨_, _, @Parses.fault _ _ _ _ _ err ?_⟩
      unfold Faulty
      rw [hskipped]
      exact ⟨by omega, .inr ⟨hnonneg, hend⟩⟩
    | ok stop =>
      cases stop with
      | none =>
        refine ⟨_, _, .wait ?_⟩
        unfold Waiting
        rw [hskipped]
        exact .inr ⟨hnonneg, hend⟩
      | some stop =>
        obtain ⟨fields, rest, hfields, haccepts, hdrop, _⟩ :=
          findEnd_some limit (by omega) hend
        have hrow : s.buf = rowOctets fields ++ rest := by
          rw [hbuf, hdrop, rowOctets, hfields, hread, Int.toNat_natCast,
            List.append_assoc]
        exact ⟨_, _, .row hskipped hrow ⟨by omega, haccepts⟩⟩
  · rw [if_neg hsmall] at hread
    by_cases htrailer : count = 65535
    · subst htrailer
      exact ⟨_, _, .trailer hskipped hbuf⟩
    · have hfault : Faulty limit s
          (.decode s!"COPY row has an invalid field count {readI16 s.buf}") := by
        unfold Faulty
        rw [hskipped]
        exact ⟨by omega, .inl ⟨by omega, rfl⟩⟩
      exact ⟨_, _, .fault hfault⟩

theorem parses (s : CopyOut) : ∃ result t, Parses limit decode s result t := by
  cases hskipped : s.headerSkipped with
  | true => exact parses_skipped hskipped
  | false =>
    by_cases hlength : s.buf.length < COPY_HEADER.length
    · refine ⟨_, _, .wait ?_⟩
      unfold Waiting
      rw [hskipped]
      exact hlength
    by_cases hheader : s.buf.take COPY_HEADER.length = COPY_HEADER
    · have hbuf : s.buf = COPY_HEADER ++ s.buf.drop COPY_HEADER.length := by
        conv_lhs => rw [← List.take_append_drop COPY_HEADER.length s.buf, hheader]
      obtain ⟨result, t, h⟩ := @parses_skipped _ limit _ decode
        { s with buf := s.buf.drop COPY_HEADER.length, headerSkipped := true } rfl
      exact ⟨result, t, .skip hskipped hbuf h⟩
    · have hfault : Faulty limit s
          (.decode "not a binary COPY stream (bad file header)") := by
        unfold Faulty
        rw [hskipped]
        exact ⟨by omega, hheader, rfl⟩
      exact ⟨_, _, .fault hfault⟩

/-! ## More octets -/

theorem Faulty.push {s : CopyOut} {err : Error} (h : Faulty limit s err) (more : Bytes) :
    Faulty limit (s.push more) err := by
  unfold Faulty CopyOut.push at *
  cases hskipped : s.headerSkipped with
  | false =>
    rw [hskipped] at h
    simp only at h ⊢
    rw [List.length_append, List.take_append_of_le_length h.1]
    exact ⟨by omega, h.2⟩
  | true =>
    rw [hskipped] at h
    simp only at h ⊢
    obtain ⟨hlength, h⟩ := h
    have hread : readI16 (s.buf ++ more) = readI16 s.buf := by
      unfold readI16
      rw [List.take_append_of_le_length hlength]
    rw [hread, List.length_append]
    refine ⟨by omega, ?_⟩
    rcases h with h | ⟨hcount, hend⟩
    · exact .inl h
    · exact .inr ⟨hcount, by rw [findEnd_append limit (by rw [hend]; simp), hend]⟩

theorem Parses.push {s t : CopyOut} {result : Outcome Error (Option τ)}
    (h : Parses limit decode s result t) (hdone : s.done = false)
    (htrailer : s.trailerSeen = false) :
    (result = .ok none ∧ Waiting limit t ∧ t.done = false ∧ t.trailerSeen = false ∧
        ∀ more, tryParse limit decode (s.push more) = tryParse limit decode (t.push more)) ∨
      ((result = .ok none → t.done = true) ∧
        ∀ more, tryParse limit decode (s.push more) = (result, t.push more)) := by
  induction h with
  | @row s fields rest hskipped hbuf haccepts =>
    refine .inr ⟨fun hnone => absurd hnone (yielded_ne_none _), fun more => ?_⟩
    have hmore : (s.push more).buf = rowOctets fields ++ (rest ++ more) := by
      rw [CopyOut.push, hbuf, List.append_assoc]
    exact (Parses.row (s := s.push more) hskipped hmore haccepts).eq
  | @trailer s rest hskipped hbuf =>
    refine .inr ⟨fun _ => rfl, fun more => ?_⟩
    have hmore : (s.push more).buf = [0xff, 0xff] ++ (rest ++ more) := by
      rw [CopyOut.push, hbuf, List.append_assoc]
    exact (Parses.trailer (s := s.push more) hskipped hmore).eq
  | fault h => exact .inr ⟨fun hnone => by simp at hnone,
    fun more => (Parses.fault (h.push more)).eq⟩
  | wait h => exact .inl ⟨rfl, h, hdone, htrailer, fun _ => rfl⟩
  | @skip s t result rest hskipped hbuf _ ih =>
    have hpush : ∀ more, tryParse limit decode (s.push more) = tryParse limit decode
        (CopyOut.push { s with buf := rest, headerSkipped := true } more) := by
      intro more
      exact tryParse_skip (s := s.push more) hskipped
        (by rw [CopyOut.push, hbuf, List.append_assoc])
    rcases ih hdone htrailer with ⟨hnone, hwait, hopen, hunseen, hmore⟩ | ⟨hend, hmore⟩
    · exact .inl ⟨hnone, hwait, hopen, hunseen, fun more => (hpush more).trans (hmore more)⟩
    · exact .inr ⟨hend, fun more => (hpush more).trans (hmore more)⟩

/-! ## The channel -/

/-- The answer to a parser that is done, with these octets left in the buffer. -/
def settle (buf : Bytes) (result : Outcome Error (Option τ)) : Outcome Error (Option τ) :=
  match result with
  | .ok none => if buf ≠ [] then .err (trailingBytes buf) else .ok none
  | result => result

def truncated : Error :=
  .decode "binary COPY stream ended before its trailer (truncated or malformed)"

theorem attempt_wait {s t : CopyOut} (h : tryParse limit decode s = (.ok none, t))
    (hdone : t.done = false) : attempt limit decode s = (none, t) := by
  rw [attempt, h]
  simp [hdone]

theorem attempt_stop {s t : CopyOut} {result : Outcome Error (Option τ)}
    (h : tryParse limit decode s = (result, t)) (hdone : result = .ok none → t.done = true) :
    attempt limit decode s = (some (settle t.buf result), t) := by
  rw [attempt, h]
  cases result with
  | err err => rfl
  | panic => rfl
  | ok row =>
    cases row with
    | some row => rfl
    | none =>
      simp only [hdone rfl, if_true]
      rfl

/-- A call of `next` does what the parser does with the whole stream; at a row or an error
some chunks may be left in the channel. -/
theorem nextFrom_cases (chunks : List Bytes) {s : CopyOut} (hdone : s.done = false)
    (htrailer : s.trailerSeen = false) :
    (∃ t, tryParse limit decode (s.push chunks.flatten) = (.ok none, t) ∧ Waiting limit t ∧
        t.done = false ∧
        nextFrom limit decode (chunks.map .ok) s =
          (.err truncated, { t with pending := [], done := true })) ∨
      ∃ (result : Outcome Error (Option τ)) (t : CopyOut) (rest : List Bytes),
      tryParse limit decode (s.push chunks.flatten) =
          (result, t.push rest.flatten) ∧ (result = .ok none → t.done = true) ∧
        nextFrom limit decode (chunks.map .ok) s =
          (settle t.buf result, { t with pending := rest.map .ok }) := by
  induction chunks generalizing s with
  | nil =>
    obtain ⟨result, t, h⟩ := @parses _ limit _ decode s
    rw [List.flatten_nil, push_nil]
    rcases h.push hdone htrailer with ⟨rfl, hwait, hopen, hunseen, _⟩ | ⟨hend, _⟩
    · refine .inl ⟨t, h.eq, hwait, hopen, ?_⟩
      rw [List.map_nil, nextFrom, attempt_wait h.eq hopen]
      simp [closed, hunseen, truncated]
    · refine .inr ⟨result, t, [], by rw [List.flatten_nil, push_nil, h.eq], hend, ?_⟩
      rw [List.map_nil, nextFrom, attempt_stop h.eq hend]
  | cons chunk chunks ih =>
    obtain ⟨result, t, h⟩ := @parses _ limit _ decode s
    rw [List.flatten_cons]
    rcases h.push hdone htrailer with ⟨rfl, hwait, hopen, hunseen, hmore⟩ | ⟨hend, hmore⟩
    · rw [hmore, ← push_push, List.map_cons, nextFrom, attempt_wait h.eq hopen]
      exact ih (s := t.push chunk) hopen hunseen
    · refine .inr ⟨result, t, chunk :: chunks, by rw [hmore, List.flatten_cons], hend, ?_⟩
      rw [List.map_cons, nextFrom, attempt_stop h.eq hend]

end

end Stdx.Postgresql
