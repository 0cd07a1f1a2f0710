import Stdx.Encoding.PemRoundTrip

/-!
# Labels of BEGIN and END lines

Whether a block that the iterator yields stands between a BEGIN and an END line of one
label.  In the body the parser compares the labels; an END line it meets among the
headers closes the block unread.
-/

namespace Stdx.Encoding.Pem

open Stdx.Foundation

/-! ## Lines of a text -/

def StartsLine (front : Bytes) : Prop := ∀ b, front.getLast? = some b → isBreak b = true

def EndsLine (back : Bytes) : Prop := ∀ b, back.head? = some b → isBreak b = true

def NoEndLine (text : Bytes) : Prop :=
  ∀ front back, text = front ++ END_MARKER ++ back → ¬ StartsLine front

def beginLine (label : Bytes) : Bytes := BEGIN_MARKER ++ (label ++ MARKER_END)
def endLine (label : Bytes) : Bytes := END_MARKER ++ (label ++ MARKER_END)

def Labelled (label consumed : Bytes) : Prop :=
  ∃ front between back,
    consumed = front ++ beginLine label ++ between ++ endLine label ++ back ∧
      StartsLine front ∧ (between ≠ [] ∧ EndsLine between) ∧ StartsLine between ∧
      EndsLine back ∧ NoEndLine between

def firstLine (text : Bytes) : Bytes := text.take (text.findIdx isBreak)
def afterLine (text : Bytes) : Bytes := text.drop (lineAdvance text)

theorem lineAdvance_cases (text : Bytes) :
    (lineAdvance text = text.length ∧ text.findIdx isBreak = text.length) ∨
    (∃ b, text[text.findIdx isBreak]? = some b ∧ isBreak b = true ∧
      (lineAdvance text = text.findIdx isBreak + 1 ∨
        lineAdvance text = text.findIdx isBreak + 2 ∧
          text[text.findIdx isBreak + 1]? = some 10)) := by
  rw [lineAdvance]
  by_cases hlt : text.findIdx isBreak < text.length
  · right
    refine ⟨text[text.findIdx isBreak], List.getElem?_eq_getElem hlt,
      List.findIdx_getElem, ?_⟩
    simp only [hlt, if_true]
    split
    · exact .inl rfl
    · split
      · next hfeed =>
        refine .inr ⟨rfl, ?_⟩
        have hgetD := hfeed.2
        rw [List.getD_eq_getElem _ _ hfeed.1] at hgetD
        rw [List.getElem?_eq_getElem hfeed.1, hgetD]
      · exact .inl rfl
  · left
    have hle := @List.findIdx_le_length _ isBreak text
    exact ⟨by simp [hlt], by omega⟩

theorem line_split (text : Bytes) :
    ∃ terminator, text = firstLine text ++ terminator ++ afterLine text ∧
      (∀ b ∈ firstLine text, isBreak b = false) ∧ (∀ b ∈ terminator, isBreak b = true) ∧
      terminator.length ≤ 2 ∧ (terminator = [] → afterLine text = []) := by
  obtain ⟨i, hi⟩ : ∃ i, text.findIdx isBreak = i := ⟨_, rfl⟩
  have hplain : ∀ b ∈ firstLine text, isBreak b = false := by
    intro b hb
    obtain ⟨j, hj, hget⟩ := List.getElem_of_mem hb
    simp only [firstLine, List.getElem_take, List.length_take] at hget hj
    rw [← hget]
    exact List.not_of_lt_findIdx (by omega)
  rcases lineAdvance_cases text with ⟨hadvance, hend⟩ | ⟨b, hb, hbreak, hadvance⟩
  · refine ⟨[], ?_, hplain, by simp, by simp, fun _ => ?_⟩
    · rw [firstLine, afterLine, hadvance, hend]
      simp
    · rw [afterLine, hadvance, List.drop_length]
  · rw [hi] at hb hadvance
    have hsome : text.drop i = b :: text.drop (i + 1) := by
      rw [List.drop_eq_getElem_cons (List.getElem?_eq_some_iff.mp hb).1,
        (List.getElem?_eq_some_iff.mp hb).2]
    rcases hadvance with hone | ⟨htwo, hfeed⟩
    · refine ⟨[b], ?_, hplain, by simpa using hbreak, by simp, by simp⟩
      rw [firstLine, afterLine, hone, hi, List.append_assoc, List.singleton_append, ← hsome,
        List.take_append_drop]
    · have hnext : text.drop (i + 1) = 10 :: text.drop (i + 2) := by
        rw [List.drop_eq_getElem_cons (List.getElem?_eq_some_iff.mp hfeed).1,
          (List.getElem?_eq_some_iff.mp hfeed).2]
      refine ⟨[b, 10], ?_, hplain, ?_, by simp, by simp⟩
      · rw [firstLine, afterLine, htwo, hi, List.append_assoc, List.cons_append,
          List.singleton_append, ← hnext, ← hsome, List.take_append_drop]
      · intro c hc
        rcases List.mem_cons.mp hc with rfl | hc
        · exact hbreak
        · rw [List.mem_singleton.mp hc]
          decide

theorem StartsLine.append {front back : Bytes} (hfront : StartsLine front)
    (hback : StartsLine back) : StartsLine (front ++ back) := by
  intro b hb
  rw [List.getLast?_append] at hb
  cases hlast : back.getLast? with
  | none => exact hfront b (by simpa [hlast] using hb)
  | some c => exact hback b (by simpa [hlast] using hb)

theorem startsLine_of_forall {text : Bytes} (h : ∀ b ∈ text, isBreak b = true) :
    StartsLine text := fun b hb => h b (List.mem_of_getLast? hb)

theorem marker_side {front back left right : Bytes} (hleft : StartsLine left)
    (h : left ++ right = front ++ END_MARKER ++ back) :
    (∃ rest, front = left ++ rest ∧ right = rest ++ END_MARKER ++ back) ∨
      ∃ rest, left = front ++ END_MARKER ++ rest := by
  rw [List.append_assoc] at h
  rcases List.append_eq_append_iff.mp h with ⟨rest, hfront, hright⟩ | ⟨rest, hlefteq, hrest⟩
  · exact .inl ⟨rest, hfront, by rw [hright, List.append_assoc]⟩
  · rcases List.append_eq_append_iff.mp hrest with ⟨more, hmore, -⟩ | ⟨more, hmarker, hmore⟩
    · exact .inr ⟨more, by rw [hlefteq, hmore, List.append_assoc]⟩
    · cases hlast : rest.getLast? with
      | none =>
        have hnil := List.getLast?_eq_none_iff.mp hlast
        subst hnil
        rw [List.append_nil] at hlefteq
        rw [List.nil_append] at hmarker
        exact .inl ⟨[], by rw [hlefteq, List.append_nil], by
          rw [hmore, hmarker, List.nil_append]⟩
      | some b =>
        have hunbroken := END_MARKER_unbroken
        have hbreak := hleft b (by rw [hlefteq, List.getLast?_append, hlast]; rfl)
        rw [hunbroken b (by
          rw [hmarker]; exact List.mem_append_left more (List.mem_of_getLast? hlast))] at hbreak
        cases hbreak

theorem NoEndLine.append {left right : Bytes} (hstarts : StartsLine left)
    (hleft : NoEndLine left) (hright : NoEndLine right) : NoEndLine (left ++ right) := by
  intro front back hsplit hfront
  rcases marker_side hstarts hsplit with ⟨rest, rfl, hrest⟩ | ⟨rest, hrest⟩
  · refine hright rest back hrest fun b hb => hfront b ?_
    rw [List.getLast?_append, hb]
    rfl
  · exact hleft front rest hrest hfront

theorem noEndLine_breaks {text : Bytes} (h : ∀ b ∈ text, isBreak b = true) :
    NoEndLine text := by
  intro front back hsplit _
  have hdash := h 45 (by rw [hsplit]; simp [END_MARKER])
  revert hdash
  decide

theorem noEndLine_line {line terminator : Bytes} (hplain : ∀ b ∈ line, isBreak b = false)
    (hline : END_MARKER.isPrefixOf line = false) (hbreaks : ∀ b ∈ terminator, isBreak b = true) :
    NoEndLine (line ++ terminator) := by
  intro front back hsplit hfront
  have hunbroken := END_MARKER_unbroken
  have hnot : ∀ b, b ∈ END_MARKER → b ∉ terminator := fun b hmarker hterm => by
    have := hbreaks b hterm
    rw [hunbroken b hmarker] at this
    cases this
  rw [List.append_assoc] at hsplit
  rcases List.append_eq_append_iff.mp hsplit with ⟨rest, -, hterm⟩ | ⟨rest, hlineeq, hrest⟩
  · exact hnot 45 (by decide) (by rw [hterm]; simp [END_MARKER])
  · cases hlast : front.getLast? with
    | none =>
      rw [List.getLast?_eq_none_iff.mp hlast, List.nil_append] at hlineeq
      subst hlineeq
      rcases List.append_eq_append_iff.mp hrest with ⟨more, hmore, -⟩ | ⟨more, hmore, hterm⟩
      · rw [List.isPrefixOf_iff_prefix.mpr ⟨more, hmore.symm⟩] at hline
        cases hline
      · cases more with
        | nil =>
          rw [List.append_nil] at hmore
          rw [hmore, List.isPrefixOf_iff_prefix.mpr (List.prefix_refl line)] at hline
          cases hline
        | cons octet more =>
          exact hnot octet (by rw [hmore]; simp) (by rw [hterm]; simp)
    | some b =>
      have hbreak := hfront b hlast
      rw [hplain b (by
        rw [hlineeq]; exact List.mem_append_left rest (List.mem_of_getLast? hlast))] at hbreak
      cases hbreak

/-! ## The headers of a block -/

inductive Continued : Bytes → Bytes → Prop where
  | stop {text : Bytes} (h : isContinuation (firstLine text) = false) : Continued text text
  | line {text rest : Bytes} (h : isContinuation (firstLine text) = true)
      (hrest : Continued (afterLine text) rest) : Continued text rest

/-- `rest` is reached from `text` over header lines, with their continuations. -/
inductive HeaderLines : Bytes → Bytes → Prop where
  | stop (text : Bytes) : HeaderLines text text
  | header {text next rest key value : Bytes}
    (hline : classify (firstLine text) = .header key value)
      (hnext : Continued (afterLine text) next) (hrest : HeaderLines next rest) :
      HeaderLines text rest

/-- `text` is `rest` after whole lines, none of which is an END line. -/
def SkipsTo (text rest : Bytes) : Prop :=
  ∃ skipped, text = skipped ++ rest ∧ StartsLine skipped ∧ NoEndLine skipped

theorem SkipsTo.refl (text : Bytes) : SkipsTo text text :=
  ⟨[], rfl, startsLine_of_forall (by simp), noEndLine_breaks (by simp)⟩

theorem SkipsTo.trans {a b c : Bytes} (hab : SkipsTo a b) (hbc : SkipsTo b c) :
    SkipsTo a c := by
  obtain ⟨front, rfl, hfront, hnofront⟩ := hab
  obtain ⟨back, rfl, hback, hnoback⟩ := hbc
  exact ⟨front ++ back, by rw [List.append_assoc], hfront.append hback,
    hnofront.append hfront hnoback⟩

theorem skipsTo_afterLine {text : Bytes} (hline : END_MARKER.isPrefixOf (firstLine text) = false)
    (hnext : afterLine text ≠ []) : SkipsTo text (afterLine text) := by
  obtain ⟨terminator, hsplit, hplain, hbreaks, -, hlast⟩ := line_split text
  refine ⟨firstLine text ++ terminator, hsplit, fun b hb => ?_,
    noEndLine_line hplain hline hbreaks⟩
  rw [List.getLast?_append] at hb
  cases hterm : terminator.getLast? with
  | none => exact absurd (hlast (List.getLast?_eq_none_iff.mp hterm)) hnext
  | some c =>
    rw [hterm] at hb
    obtain rfl := Option.some.inj hb
    exact hbreaks c (List.mem_of_getLast? hterm)

theorem isPrefixOf_of_continuation {line : Bytes} (h : isContinuation line = true) :
    END_MARKER.isPrefixOf line = false := by
  cases line with
  | nil => cases h
  | cons octet line =>
    have hoctet : octet ≠ 45 := by
      rintro rfl
      exact absurd h (by simp [isContinuation])
    simp [END_MARKER, List.isPrefixOf, hoctet.symm]

theorem afterLine_length {text : Bytes} (h : text ≠ []) :
    (afterLine text).length < text.length := by
  have hpos := List.length_pos_iff.mpr h
  rw [afterLine, List.length_drop]
  rcases lineAdvance_cases text with ⟨hadvance, -⟩ | ⟨b, -, -, hadvance | ⟨hadvance, -⟩⟩ <;> omega

theorem Continued.skipsTo {text rest : Bytes} (h : Continued text rest) (hrest : rest ≠ []) :
    SkipsTo text rest := by
  induction h with
  | stop => exact .refl _
  | @line text rest hline hcont ih =>
    refine (skipsTo_afterLine (isPrefixOf_of_continuation hline) fun hnil => hrest ?_).trans
      (ih hrest)
    rw [hnil] at hcont
    cases hcont with
    | stop => rfl
    | line hline => cases hline

theorem continuationLoop_continued {fuel : Nat} {text rest : Bytes} {v v' : String}
    (hfuel : text.length < fuel) (h : continuationLoop fuel text v = (v', rest)) :
    Continued text rest := by
  induction fuel generalizing text v with
  | zero => omega
  | succ fuel ih =>
    rw [continuationLoop] at h
    by_cases hcont : isContinuation (firstLine text) = true
    · have hne : text ≠ [] := by rintro rfl; cases hcont
      have hshorter := afterLine_length hne
      simp only [show isContinuation (text.take (text.findIdx isBreak)) = true from hcont,
        if_true] at h
      exact .line hcont (ih (show (afterLine text).length < fuel by omega) h)
    · have hstop : isContinuation (firstLine text) = false := Bool.eq_false_iff.mpr hcont
      simp only [show isContinuation (text.take (text.findIdx isBreak)) = false from hstop,
        Bool.false_eq_true, if_false, Prod.mk.injEq] at h
      rw [← h.2]
      exact .stop hstop

theorem isPrefixOf_of_header {line key value : Bytes} (h : classify line = .header key value) :
    END_MARKER.isPrefixOf line = false := by
  rw [classify] at h
  split at h
  · cases h
  · next hnot => exact Bool.eq_false_iff.mpr hnot

theorem HeaderLines.skipsTo {text rest : Bytes} (h : HeaderLines text rest)
    (hrest : rest ≠ []) : SkipsTo text rest := by
  induction h with
  | stop => exact .refl _
  | @header text next rest key value hline hnext hlines ih =>
    have hnextne : next ≠ [] := by
      rintro rfl
      cases hlines with
      | stop => exact hrest rfl
      | header hnone => rw [show classify (firstLine []) = .blank by decide] at hnone; cases hnone
    have hafter : afterLine text ≠ [] := by
      intro hnil
      rw [hnil] at hnext
      cases hnext with
      | stop => exact hnextne rfl
      | line hcont => cases hcont
    exact ((skipsTo_afterLine (isPrefixOf_of_header hline) hafter).trans
      (hnext.skipsTo hnextne)).trans (ih hrest)

def BodyAt (cursor body : Bytes) : Prop :=
  (classify (firstLine cursor) = .blank ∧ body = afterLine cursor) ∨
    (classify (firstLine cursor) = .other ∧ body = cursor)

theorem headerLoop_spec {fuel : Nat} {text : Bytes} {pairs headers : List (String × String)}
    {result : Section} (h : headerLoop fuel text pairs = .ok (headers, result)) :
    ∃ cursor, HeaderLines text cursor ∧ cursor ≠ [] ∧
      ((classify (firstLine cursor) = .closing ∧ result = .closed (afterLine cursor)) ∨
        ∃ body, BodyAt cursor body ∧ result = .body body) := by
  induction fuel generalizing text pairs with
  | zero => cases h
  | succ fuel ih =>
    rw [headerLoop] at h
    by_cases hnil : text = []
    · rw [if_pos hnil] at h
      cases h
    · rw [if_neg hnil] at h
      simp only at h
      rw [show text.take (text.findIdx isBreak) = firstLine text from rfl,
        show text.drop (lineAdvance text) = afterLine text from rfl] at h
      cases hclass : classify (firstLine text) with
      | closing =>
        simp only [hclass, Except.ok.injEq, Prod.mk.injEq] at h
        exact ⟨text, .stop text, hnil, .inl ⟨hclass, h.2.symm⟩⟩
      | blank =>
        simp only [hclass, Except.ok.injEq, Prod.mk.injEq] at h
        exact ⟨text, .stop text, hnil, .inr ⟨_, .inl ⟨hclass, rfl⟩, h.2.symm⟩⟩
      | other =>
        simp only [hclass, Except.ok.injEq, Prod.mk.injEq] at h
        exact ⟨text, .stop text, hnil, .inr ⟨_, .inr ⟨hclass, rfl⟩, h.2.symm⟩⟩
      | header key value =>
        simp only [hclass] at h
        split at h
        · cases h
        · split at h
          · cases h
          · next k hk v hv =>
            obtain ⟨v', next, hcont⟩ : ∃ v' next, continuationLoop
              ((afterLine text).length + 1) (afterLine text) v = (v', next) := ⟨_, _, rfl⟩
            rw [hcont] at h
            obtain ⟨cursor, hlines, hrest⟩ := ih h
            exact ⟨cursor, .header hclass
              (continuationLoop_continued (Nat.lt_succ_self _) hcont) hlines, hrest⟩

/-! ## The two marker lines -/

theorem memmem_spec {pattern data : Bytes} {i : Nat} (h : memmem pattern data = some i) :
    data = data.take i ++ pattern ++ data.drop (i + pattern.length) ∧ i ≤ data.length := by
  induction data generalizing i with
  | nil =>
    rw [memmem] at h
    split at h
    · next hnil =>
      obtain rfl := Option.some.inj h
      simp [hnil]
    · cases h
  | cons octet data ih =>
    rw [memmem] at h
    split at h
    · next hstart =>
      obtain rfl := Option.some.inj h
      obtain ⟨rest, hrest⟩ := List.isPrefixOf_iff_prefix.mp hstart
      refine ⟨?_, Nat.zero_le _⟩
      rw [← hrest, List.take_zero, List.nil_append, Nat.zero_add, List.drop_left]
    · obtain ⟨j, hj, rfl⟩ := Option.map_eq_some_iff.mp h
      obtain ⟨hdata, hle⟩ := ih hj
      refine ⟨?_, Nat.succ_le_succ hle⟩
      rw [List.take_succ_cons, List.cons_append, List.cons_append, Nat.add_right_comm,
        List.drop_succ_cons, ← hdata]

theorem memmem_drop {pattern data : Bytes} {i : Nat} (h : memmem pattern data = some i) :
    data.drop i = pattern ++ data.drop (i + pattern.length) := by
  obtain ⟨hdata, hle⟩ := memmem_spec h
  have htake : (data.take i).length = i := by rw [List.length_take, Nat.min_eq_left hle]
  conv_lhs => rw [hdata, List.append_assoc, List.drop_left' htake]

theorem endsInMarker_spec {label : Bytes} (h : endsInMarker label = true) :
    label = label.take (label.length - MARKER_END.length) ++ MARKER_END := by
  simp only [endsInMarker, Bool.and_eq_true, beq_iff_eq] at h
  conv_lhs => rw [← List.take_append_drop (label.length - MARKER_END.length) label]
  rw [h.1.2]

theorem findPattern_memmem {data pattern : Bytes} {i : Nat}
    (h : findPattern data pattern = some i) : memmem pattern data = some i := by
  rw [findPattern] at h
  split at h
  · cases h
  · exact h

theorem parseBegin_spec {input cursor : Bytes} {type : String}
    (h : parseBegin input = .ok (type, cursor)) :
    ∃ front text, memmem BEGIN_MARKER input = some front.length ∧
      input = front ++ BEGIN_MARKER ++ text ∧ firstLine text = utf8 type ++ MARKER_END ∧
      cursor = afterLine text := by
  rw [parseBegin] at h
  cases hfind : findPattern input BEGIN_MARKER with
  | none => simp [hfind] at h
  | some i =>
    have hmem := findPattern_memmem hfind
    obtain ⟨hinput, hle⟩ := memmem_spec hmem
    simp only [hfind] at h
    obtain ⟨text, htext⟩ : ∃ text, input.drop (i + BEGIN_MARKER.length) = text := ⟨_, rfl⟩
    rw [htext] at h hinput
    refine ⟨input.take i, text, by rw [hmem, List.length_take, Nat.min_eq_left hle], hinput, ?_⟩
    rw [findLineEnd] at h
    by_cases hnil : text = []
    · simp [hnil] at h
    · simp only [hnil, if_false] at h
      rw [show text.take (text.findIdx isBreak) = firstLine text from rfl] at h
      by_cases hends : endsInMarker (firstLine text) = true
      · simp only [hends, if_true] at h
        cases hutf8 : fromUtf8 ((firstLine text).take
            ((firstLine text).length - MARKER_END.length)) with
        | none => simp [hutf8] at h
        | some label =>
          simp only [hutf8, Except.ok.injEq, Prod.mk.injEq] at h
          obtain ⟨rfl, rfl⟩ := h
          refine ⟨?_, rfl⟩
          rw [utf8_of_fromUtf8 hutf8]
          exact endsInMarker_spec hends
      · simp [hends] at h

theorem firstLine_append {front : Bytes} (h : ∀ b ∈ front, isBreak b = false) (rest : Bytes) :
    firstLine (front ++ rest) = front ++ firstLine rest := by
  have hindex : (front ++ rest).findIdx isBreak = front.length + rest.findIdx isBreak := by
    induction front with
    | nil => simp
    | cons octet front ih =>
      rw [List.cons_append, List.findIdx_cons, h octet (List.mem_cons_self ..),
        ih fun b hb => h b (List.mem_cons_of_mem octet hb), cond_false, List.length_cons]
      omega
  rw [firstLine, firstLine, hindex, List.take_length_add_append]

theorem findEnd_spec {type : String} {fuel : Nat} {body : Bytes} {searchPos d : Nat}
    (h : findEnd type fuel body searchPos = .ok d) :
    firstLine (body.drop d) = endLine (utf8 type) := by
  induction fuel generalizing searchPos with
  | zero => cases h
  | succ fuel ih =>
    rw [findEnd] at h
    split_ifs at h with hlength
    cases hfind : findPattern (body.drop searchPos) END_MARKER with
    | none => simp [hfind] at h
    | some i =>
      simp only [hfind] at h
      rw [show (body.drop (searchPos + i)).take ((body.drop (searchPos + i)).findIdx isBreak) =
        firstLine (body.drop (searchPos + i)) from rfl] at h
      split_ifs at h with hends hlabel
      · obtain rfl := Except.ok.inj h
        have hmarker : body.drop (searchPos + i) = END_MARKER ++
            (body.drop searchPos).drop (i + END_MARKER.length) := by
          rw [← memmem_drop (findPattern_memmem hfind), List.drop_drop]
        rw [hmarker, firstLine_append END_MARKER_unbroken] at hends hlabel ⊢
        rw [List.drop_left] at hends hlabel
        rw [endLine, ← hlabel, ← endsInMarker_spec hends]
      · exact ih h

theorem cleanBase64_no_dash {text clean : Bytes} (h : cleanBase64 text = .ok clean) :
    (45 : UInt8) ∉ text := by
  induction text generalizing clean with
  | nil => simp
  | cons b text ih =>
    rw [cleanBase64] at h
    have hb : isBase64Octet b = true ∨ isSkipped b = true → 45 ≠ b := by
      rintro hor rfl
      revert hor
      decide
    split_ifs at h with hoctet hskip
    · cases hrest : cleanBase64 text with
      | error e => rw [hrest] at h; cases h
      | ok rest => simp [ih hrest, hb (.inl hoctet)]
    · simp [ih h, hb (.inr hskip)]

theorem parseBody_spec {unit : VectorUnit} {T : Target} {type : String}
    {headers : List (String × String)} {body rest : Bytes} {block : Block}
    (h : parseBody unit T type headers body = .ok (block, rest)) :
    ∃ d, block.type = type ∧ rest = afterLine (body.drop d) ∧
      firstLine (body.drop d) = endLine (utf8 type) ∧ (45 : UInt8) ∉ body.take d := by
  unfold parseBody at h
  cases hend : findEnd type (body.length + 1) body 0 with
  | error e => simp [hend] at h
  | ok d =>
    simp only [hend] at h
    cases hclean : cleanBase64 (body.take d) with
    | error e => simp [hclean] at h
    | ok clean =>
      simp only [hclean] at h
      cases hdecode : Base64.decode unit T clean .standard with
      | error e => simp [hdecode] at h
      | ok contents =>
        simp only [hdecode, Except.ok.injEq, Prod.mk.injEq] at h
        obtain ⟨rfl, rfl⟩ := h
        exact ⟨d, rfl, rfl, findEnd_spec hend, cleanBase64_no_dash hclean⟩

/-! ## Agreement of the labels -/

/-- A `next` call on this input finds marker lines and compares their labels: the first
BEGIN marker starts a line; an END line that directly follows the header lines has the
label of the BEGIN line; and the first END marker of the body starts a line. -/
def EndLinesChecked (input : Bytes) : Prop :=
  ∀ front text label, memmem BEGIN_MARKER input = some front.length →
    input = front ++ BEGIN_MARKER ++ text → firstLine text = label ++ MARKER_END →
    StartsLine front ∧ ∀ cursor, HeaderLines (afterLine text) cursor →
      (classify (firstLine cursor) = .closing → firstLine cursor = endLine label) ∧
      ∀ body d, BodyAt cursor body → memmem END_MARKER body = some d →
        StartsLine (body.take d)

theorem memmem_of_no_dash {body : Bytes} {d : Nat} (hdash : (45 : UInt8) ∉ body.take d)
    {rest : Bytes} (hdrop : body.drop d = END_MARKER ++ rest) :
    memmem END_MARKER body = some (body.take d).length := by
  have hbody : body = body.take d ++ (END_MARKER ++ rest) := by
    rw [← hdrop, List.take_append_drop]
  conv_lhs => rw [hbody]
  exact memmem_append rfl hdash rest

theorem noEndLine_of_no_dash {text : Bytes} (h : (45 : UInt8) ∉ text) : NoEndLine text := by
  intro front back hsplit _
  exact h (by rw [hsplit]; simp [END_MARKER])

theorem bodyAt_skipsTo {cursor body : Bytes} (h : BodyAt cursor body) (hne : body ≠ []) :
    SkipsTo cursor body := by
  rcases h with ⟨hblank, rfl⟩ | ⟨-, rfl⟩
  · refine skipsTo_afterLine (Bool.eq_false_iff.mpr fun hend => ?_) hne
    rw [classify, if_pos hend] at hblank
    cases hblank
  · exact .refl _

theorem labelled_of_skipsTo {input front text label cursor : Bytes}
    (hinput : input = front ++ BEGIN_MARKER ++ text) (hfront : StartsLine front)
    (hfirst : firstLine text = label ++ MARKER_END)
    (hskips : SkipsTo (afterLine text) cursor) (hend : firstLine cursor = endLine label) :
    ∃ consumed, input = consumed ++ afterLine cursor ∧ Labelled label consumed ∧
      (afterLine cursor ≠ [] → StartsLine consumed) := by
  obtain ⟨breaks, htext, -, hbreaks, -, hlast⟩ := line_split text
  obtain ⟨breaks', hcursor, -, hbreaks', -, hlast'⟩ := line_split cursor
  obtain ⟨skipped, hskipped, hstarts, hnoend⟩ := hskips
  have hbreaksne : breaks ≠ [] := by
    intro hnil
    rw [hlast hnil] at hskipped
    have hcursornil := (List.append_eq_nil_iff.mp hskipped.symm).2
    rw [hcursornil] at hend
    cases hend
  refine ⟨front ++ beginLine label ++ (breaks ++ skipped) ++ endLine label ++ breaks', ?_,
    ⟨front, breaks ++ skipped, breaks', rfl, hfront, ⟨by simp [hbreaksne], ?_⟩,
      (startsLine_of_forall hbreaks).append hstarts, ?_,
      (noEndLine_breaks hbreaks).append (startsLine_of_forall hbreaks) hnoend⟩, ?_⟩
  · rw [hend] at hcursor
    rw [hfirst, hskipped, hcursor] at htext
    rw [hinput, htext, beginLine]
    simp only [List.append_assoc]
  · intro b hb
    obtain ⟨octet, more, hmore⟩ := List.exists_cons_of_ne_nil hbreaksne
    rw [hmore, List.cons_append, List.head?_cons, Option.some.injEq] at hb
    exact hbreaks b (by rw [hmore, hb]; exact List.mem_cons_self ..)
  · exact fun b hb => hbreaks' b (List.mem_of_mem_head? hb)
  · intro hrest b hb
    have hne' : breaks' ≠ [] := fun hnil => hrest (hlast' hnil)
    rw [List.getLast?_append_of_ne_nil _ hne'] at hb
    exact hbreaks' b (List.mem_of_getLast? hb)

theorem parseOneBlock_labelled {unit : VectorUnit} {T : Target} {input rest : Bytes} {block : Block}
    (h : parseOneBlock unit T input = .ok (block, rest)) (hchecked : EndLinesChecked input) :
    ∃ consumed, input = consumed ++ rest ∧ Labelled (utf8 block.type) consumed ∧
      (rest ≠ [] → StartsLine consumed) := by
  unfold parseOneBlock at h
  cases hbegin : parseBegin input with
  | error e => rw [hbegin] at h; cases h
  | ok found =>
    obtain ⟨type, start⟩ := found
    rw [hbegin] at h
    obtain ⟨front, text, hmem, hinput, hfirst, rfl⟩ := parseBegin_spec hbegin
    obtain ⟨hfront, hcursor⟩ := hchecked front text (utf8 type) hmem hinput hfirst
    cases hloop : headerLoop ((afterLine text).length + 1) (afterLine text) [] with
    | error e => simp [hloop] at h
    | ok result =>
      obtain ⟨headers, result⟩ := result
      obtain ⟨cursor, hlines, hne, hresult⟩ := headerLoop_spec hloop
      obtain ⟨hclosing, hbody⟩ := hcursor cursor hlines
      have hskips := hlines.skipsTo hne
      rcases hresult with ⟨hclass, rfl⟩ | ⟨body, hat, rfl⟩
      · simp only [hloop, Except.ok.injEq, Prod.mk.injEq] at h
        obtain ⟨rfl, rfl⟩ := h
        exact labelled_of_skipsTo hinput hfront hfirst hskips (hclosing hclass)
      · simp only [hloop] at h
        obtain ⟨d, htype, hrest, hfound, hdash⟩ := parseBody_spec h
        obtain ⟨breaks, hdrop, -⟩ := line_split (body.drop d)
        rw [hfound, endLine, List.append_assoc, List.append_assoc] at hdrop
        have hlength : (body.take d).length = d := by
          refine List.length_take_of_le (Nat.le_of_not_lt fun hlt => ?_)
          rw [List.drop_eq_nil_of_le hlt.le] at hdrop
          cases hdrop
        have hmem := memmem_of_no_dash hdash hdrop
        rw [hlength] at hmem
        have hbodyskips : SkipsTo body (body.drop d) :=
          ⟨body.take d, (List.take_append_drop d body).symm, hbody body d hat hmem,
            noEndLine_of_no_dash hdash⟩
        have hbodyne : body ≠ [] := by
          rintro rfl
          rw [List.drop_nil] at hdrop
          cases hdrop
        rw [htype, hrest]
        exact labelled_of_skipsTo hinput hfront hfirst
          ((hskips.trans (bodyAt_skipsTo hat hbodyne)).trans hbodyskips) hfound

/-- The iterator has come from `input` to `state`, over blocks it yielded. -/
inductive Reaches (unit : VectorUnit) (T : Target) (input : Bytes) : Bytes → Prop where
  | start : Reaches unit T input input
  | step {state rest : Bytes} {block : Block} (h : Reaches unit T input state)
      (hnext : next unit T state = some (.ok block, rest)) : Reaches unit T input rest

theorem next_ok {unit : VectorUnit} {T : Target} {state rest : Bytes} {block : Block}
    (h : next unit T state = some (.ok block, rest)) :
    state ≠ [] ∧ parseOneBlock unit T state = .ok (block, rest) := by
  unfold next at h
  split_ifs at h with hnil
  refine ⟨hnil, ?_⟩
  cases hparse : parseOneBlock unit T state with
  | error e => simp [hparse] at h
  | ok found =>
    obtain ⟨found, rest'⟩ := found
    simp only [hparse, Option.some.injEq, Prod.mk.injEq, Except.ok.injEq] at h
    rw [h.1, h.2]

theorem Reaches.split {unit : VectorUnit} {T : Target} {input state : Bytes}
    (h : Reaches unit T input state)
    (hchecked : ∀ state, Reaches unit T input state → EndLinesChecked state) :
    ∃ before, input = before ++ state ∧ (state ≠ [] → StartsLine before) := by
  induction h with
  | start => exact ⟨[], rfl, fun _ => startsLine_of_forall (by simp)⟩
  | @step state rest block hreach hnext ih =>
    obtain ⟨before, hbefore, hstarts⟩ := ih
    obtain ⟨hne, hparse⟩ := next_ok hnext
    obtain ⟨consumed, hconsumed, -, hline⟩ :=
      parseOneBlock_labelled hparse (hchecked state hreach)
    refine ⟨before ++ consumed, by rw [hbefore, hconsumed, List.append_assoc], fun hrest => ?_⟩
    exact (hstarts hne).append (hline hrest)

/--
In every run of the iterator whose calls all meet `EndLinesChecked`, each block it yields
has consumed whole lines of the input, among them a BEGIN and an END line of the label of
the block, and no other END line between the two.
-/
theorem blocks_labelled (unit : VectorUnit) (T : Target) (input : Bytes)
    (hchecked : ∀ state, Reaches unit T input state → EndLinesChecked state)
    (state rest : Bytes) (block : Block) (hreach : Reaches unit T input state)
    (hnext : next unit T state = some (.ok block, rest)) :
    ∃ before consumed, input = before ++ consumed ++ rest ∧ state = consumed ++ rest ∧
      StartsLine before ∧ Labelled (utf8 block.type) consumed := by
  obtain ⟨hne, hparse⟩ := next_ok hnext
  obtain ⟨before, hbefore, hstarts⟩ := hreach.split hchecked
  obtain ⟨consumed, hconsumed, hlabelled, -⟩ :=
    parseOneBlock_labelled hparse (hchecked state hreach)
  exact ⟨before, consumed, by rw [hbefore, hconsumed, List.append_assoc], hconsumed,
    hstarts hne, hlabelled⟩

def emptyBlock : Bytes := beginLine (utf8 "A") ++ [10] ++ endLine (utf8 "A") ++ [10]

theorem emptyBlock_checked : ∀ state, Reaches .scalar ⟨64, by decide⟩ emptyBlock state →
    EndLinesChecked state := by
  have hnext : next .scalar ⟨64, by decide⟩ emptyBlock = some (.ok ⟨"A", [], []⟩, []) := by
    decide
  have hstates : ∀ state, Reaches .scalar ⟨64, by decide⟩ emptyBlock state →
      state = emptyBlock ∨ state = [] := by
    intro state hreach
    induction hreach with
    | start => exact .inl rfl
    | step h hstep ih =>
      rcases ih with rfl | rfl
      · rw [hnext] at hstep
        cases hstep
        exact .inr rfl
      · cases hstep
  intro state hreach front text label hmem hinput hfirst
  rcases hstates state hreach with rfl | rfl
  · have hfront : front = [] := by
      rw [show memmem BEGIN_MARKER emptyBlock = some 0 by decide] at hmem
      exact List.eq_nil_of_length_eq_zero (Option.some.inj hmem).symm
    subst hfront
    have htext : text = utf8 "A" ++ MARKER_END ++ [10] ++ endLine (utf8 "A") ++ [10] := by
      have := congrArg (List.drop BEGIN_MARKER.length) hinput
      rw [List.nil_append, List.drop_left] at this
      rw [← this]
      decide
    subst htext
    have hlabel : label = utf8 "A" := by
      rw [show firstLine (utf8 "A" ++ MARKER_END ++ [10] ++ endLine (utf8 "A") ++ [10]) =
        utf8 "A" ++ MARKER_END by decide] at hfirst
      exact (List.append_cancel_right hfirst).symm
    subst hlabel
    refine ⟨startsLine_of_forall (by simp), fun cursor hlines => ?_⟩
    have hafter : afterLine (utf8 "A" ++ MARKER_END ++ [10] ++ endLine (utf8 "A") ++ [10]) =
        endLine (utf8 "A") ++ [10] := by decide
    have hclosing : classify (firstLine (endLine (utf8 "A") ++ [10])) = .closing := by
      decide
    rw [hafter] at hlines
    cases hlines with
    | stop =>
      refine ⟨fun _ => by decide, fun body d hbody _ => ?_⟩
      rcases hbody with ⟨hblank, -⟩ | ⟨hother, -⟩
      · rw [hclosing] at hblank
        cases hblank
      · rw [hclosing] at hother
        cases hother
    | header hline =>
      rw [hclosing] at hline
      cases hline
  · cases hmem

theorem blocks_labelled_empty_block :
    ∃ before consumed, emptyBlock = before ++ consumed ++ [] ∧ emptyBlock = consumed ++ [] ∧
      StartsLine before ∧ Labelled (utf8 "A") consumed :=
  blocks_labelled .scalar ⟨64, by decide⟩ emptyBlock emptyBlock_checked emptyBlock [] ⟨"A", [], []⟩
    .start (by decide)

/-- "-----BEGIN A-----\n-----END B-----\n" is a block, and has no END line of label A. -/
theorem mismatched_empty_block :
    next .scalar ⟨64, by decide⟩ (beginLine (utf8 "A") ++ [10] ++ endLine (utf8 "B") ++ [10]) =
        some (.ok ⟨"A", [], []⟩, []) ∧
      ¬ Labelled (utf8 "A") (beginLine (utf8 "A") ++ [10] ++ endLine (utf8 "B") ++ [10]) := by
  refine ⟨by decide, ?_⟩
  rintro ⟨front, between, back, hconsumed, -⟩
  have hinside : endLine (utf8 "A") <:+:
      beginLine (utf8 "A") ++ [10] ++ endLine (utf8 "B") ++ [10] :=
    ⟨front ++ beginLine (utf8 "A") ++ between, back, hconsumed.symm⟩
  revert hinside
  decide

end Stdx.Encoding.Pem
