import Stdx.Singleflight.Orphans

/-!
# One execution at a time

A lookup and the insertion that follows it are two acquisitions of the lock,
and a completed execution removes its key whatever entry the key leads to.  As
long as no insertion and no removal meets the entry of another execution in
flight, at most one execution started since the last `forget` is in flight.  A
shared result always comes from an execution the caller found in flight.
-/

namespace Stdx.Singleflight

open Stdx.Foundation

variable {K V : Type*}

/-- The execution of the call started after the last `forget` of the key. -/
def StartedSince (events : List (Event K V)) (c : Nat) (key : K) : Prop :=
  ∃ pre post, events = pre ++ .insert c :: post ∧ .forget key ∉ post

theorem startedSince_concat {events : List (Event K V)} {event : Event K V} {c : Nat} {key : K}
    (h : StartedSince (events ++ [event]) c key) :
    event = .insert c ∨ (StartedSince events c key ∧ event ≠ .forget key) := by
  obtain ⟨pre, post, hevents, hpost⟩ := h
  rcases List.eq_nil_or_concat post with rfl | ⟨post', last, rfl⟩
  · left
    simpa using (List.append_inj' hevents rfl).2
  · right
    have hsplit : events ++ [event] = (pre ++ .insert c :: post') ++ [last] := by
      simpa using hevents
    obtain ⟨hinit, hlast⟩ := List.append_inj' hsplit rfl
    obtain rfl : event = last := by simpa using hlast
    simp only [List.concat_eq_append, List.mem_append, List.mem_singleton, not_or] at hpost
    exact ⟨⟨pre, post', hinit, hpost.1⟩, fun h => hpost.2 h.symm⟩

theorem StartedSince.concat {events : List (Event K V)} {event : Event K V} {c : Nat} {key : K}
    (h : StartedSince events c key) (hforget : event ≠ .forget key) :
    StartedSince (events ++ [event]) c key := by
  obtain ⟨pre, post, rfl, hpost⟩ := h
  refine ⟨pre, post ++ [event], by simp, ?_⟩
  simp only [List.mem_append, List.mem_singleton, not_or]
  exact ⟨hpost, fun h => hforget h.symm⟩

theorem startedSince_insert (events : List (Event K V)) (c : Nat) (key : K) :
    StartedSince (events ++ [.insert c]) c key :=
  ⟨events, [], rfl, List.not_mem_nil⟩

namespace Group

def Executes (g : Group K V) (c : Nat) (key : K) : Prop :=
  (∃ entry, g.entry c = some entry ∧ entry.key = key) ∧ (g.frame c).InFlight

def AtMostOne (events : List (Event K V)) (g : Group K V) : Prop :=
  ∀ key c d, g.Executes c key → g.Executes d key → StartedSince events c key →
    StartedSince events d key → c = d

/-- The key of the call does not lead to another call with an execution in flight. -/
def MeetsNoOther (g : Group K V) (c : Nat) : Prop :=
  ∀ entry e, g.entry c = some entry → g.inner entry.key = some e → e ≠ c →
    ¬ (g.frame e).InFlight

/-- A completion does not remove the entry of a different, running execution. -/
def RemovesOwn (g : Group K V) : Event K V → Prop
  | .remove c => g.MeetsNoOther c
  | _ => True

def Undisturbed (g : Group K V) : Event K V → Prop
  | .insert c | .remove c => g.MeetsNoOther c
  | _ => True

variable [DecidableEq K] {g h : Group K V} {event : Event K V} {events : List (Event K V)}

/-- The call looked its key up when the key led to the entry. -/
def LookedUp (events : List (Event K V)) (c e : Nat) : Prop :=
  ∃ pre post t key, events = pre ++ .lookup c :: post ∧ exec step new pre = some t ∧
    t.frame c = .lookup key ∧ t.inner key = some e

/-- A shared result is the value of an execution in flight at the lookup. -/
def SharedInFlight (events : List (Event K V)) (g : Group K V) : Prop :=
  ∀ c val, g.frame c = .done ⟨val, true⟩ → ∃ pre post t key e,
    events = pre ++ .lookup c :: post ∧ exec step new pre = some t ∧ t.frame c = .lookup key ∧
    t.Executes e key ∧ ∃ entry, g.entry e = some entry ∧ entry.val = some val

/-! ## At most one execution -/

theorem Moves.executes (hmoves : g.Moves event h) {c : Nat} {key : K}
    (hexec : h.Executes c key) : g.Executes c key ∨ event = .insert c := by
  obtain ⟨⟨entry, hentry, hkey⟩, hflight⟩ := hexec
  have stays (b : Nat) (frame : Frame K V) (h' : ((g.setFrame b frame).frame c).InFlight)
      (hentry' : g.entry c = some entry) (hframe : frame.InFlight → (g.frame b).InFlight) :
      g.Executes c key := by
    refine ⟨⟨entry, hentry', hkey⟩, ?_⟩
    rw [setFrame_frame] at h'
    split at h'
    · next hcb => exact hcb ▸ hframe h'
    · exact h'
  have writes {b : Nat} {old : Entry K V} {frame : Frame K V} (new : Entry K V)
      (h' : ((g.setFrame b frame).frame c).InFlight) (hold : g.entry b = some old)
      (hnew : new.key = old.key) (hentry' : (g.setEntry b new).entry c = some entry)
      (hframe : (g.frame b).InFlight) : g.Executes c key := by
    rw [setFrame_frame] at h'
    rw [setEntry_entry] at hentry'
    by_cases hcb : c = b
    · subst hcb
      obtain rfl : new = entry := by simpa using hentry'
      exact ⟨⟨old, hold, hnew ▸ hkey⟩, hframe⟩
    · rw [if_neg hcb] at h' hentry'
      exact ⟨⟨entry, hentry', hkey⟩, h'⟩
  cases hmoves with
  | @insert b entry' hframe hentry' =>
    by_cases hcb : c = b
    · exact .inr (by rw [hcb])
    · refine .inl ⟨⟨entry, hentry, hkey⟩, ?_⟩
      rw [setFrame_frame, if_neg hcb] at hflight
      exact hflight
  | @miss b key' hframe hinner =>
    rw [setFrame_frame] at hflight
    split at hflight
    · exact hflight.elim
    · next hcb =>
      rw [setFrame_entry, setEntry_entry, if_neg hcb] at hentry
      exact .inl ⟨⟨entry, hentry, hkey⟩, hflight⟩
  | @store b result old hframe hold =>
    exact .inl (writes { old with val := some result } hflight hold rfl hentry
      (by simp [hframe, Frame.InFlight]))
  | @notifyWaiters b result old hframe hold =>
    exact .inl (writes { old with notified := old.notified + 1 } hflight hold rfl hentry
      (by simp [hframe, Frame.InFlight]))
  | finish hframe => exact .inl (stays _ _ hflight hentry (by simp [hframe, Frame.InFlight]))
  | @remove b result old hframe hold =>
    exact .inl (stays b (.done ⟨result, false⟩) hflight hentry (by simp [Frame.InFlight]))
  | forget => exact .inl ⟨⟨entry, hentry, hkey⟩, hflight⟩
  | _ => exact .inl (stays _ _ hflight hentry (by simp [Frame.InFlight]))

theorem Moves.inner (hmoves : g.Moves event h) (key : K) :
    h.inner key = g.inner key ∨
      (∃ c entry, event = .insert c ∧ g.entry c = some entry ∧ g.frame c = .insert ∧
        entry.key = key ∧ h.inner key = some c) ∨
      (∃ c entry, event = .remove c ∧ g.entry c = some entry ∧ entry.key = key ∧
        h.inner key = none ∧ ¬ (h.frame c).InFlight) ∨
      (event = .forget key ∧ h.inner key = none) := by
  cases hmoves with
  | @insert c entry hframe hentry =>
    by_cases hkey : key = entry.key
    · refine .inr (.inl ⟨c, entry, rfl, hentry, hframe, hkey.symm, ?_⟩)
      rw [setFrame_inner, setInner_inner, if_pos hkey]
    · left
      rw [setFrame_inner, setInner_inner, if_neg hkey]
  | @remove c result entry hframe hentry =>
    by_cases hkey : key = entry.key
    · refine .inr (.inr (.inl ⟨c, entry, rfl, hentry, hkey.symm, ?_, ?_⟩))
      · rw [setFrame_inner, setInner_inner, if_pos hkey]
      · simp [Frame.InFlight]
    · left
      rw [setFrame_inner, setInner_inner, if_neg hkey]
  | @forget key' =>
    by_cases hkey : key = key'
    · exact .inr (.inr (.inr ⟨by rw [hkey], by rw [setInner_inner, if_pos hkey]⟩))
    · left
      rw [setInner_inner, if_neg hkey]
  | _ => exact .inl rfl

theorem inner_of_executes (hcond : Throughout step Undisturbed new events)
    (hrun : exec step new events = some g) (c : Nat) (key : K) (hexec : g.Executes c key)
    (hsince : StartedSince events c key) : g.inner key = some c := by
  refine run_rule (f := step) (C := Undisturbed) (P := fun events g => ∀ c key, g.Executes c key →
    StartedSince events c key → g.inner key = some c) ?_ ?_ hcond hrun c key hexec hsince
  · intro c key hexec
    simp [Executes, new, Frame.InFlight] at hexec
  · intro events g event h hrun ih hcond hstep c key hexec hsince
    have hmoves := moves_of_step hstep
    obtain rfl | ⟨hsince, hforget⟩ := startedSince_concat hsince
    · -- the execution that starts now
      cases hmoves with
      | @insert c entry hframe hentry =>
        obtain ⟨⟨entry', hentry', rfl⟩, -⟩ := hexec
        rw [setFrame_entry, setInner_entry, hentry] at hentry'
        obtain rfl : entry = entry' := by simpa using hentry'
        rw [setFrame_inner, setInner_inner, if_pos rfl]
    · have hbefore : g.Executes c key ∨ event = .insert c := hmoves.executes hexec
      obtain hexecg | rfl := hbefore
      · have hinner := ih c key hexecg hsince
        obtain hsame | ⟨d, entry, rfl, hentry, hframe, rfl, -⟩ |
          ⟨d, entry, rfl, hentry, rfl, -, hdone⟩ | ⟨rfl, -⟩ := hmoves.inner key
        · rw [hsame, hinner]
        · have hcd : c ≠ d := by
            rintro rfl
            simpa [hframe, Frame.InFlight] using hexecg.2
          exact absurd hexecg.2 (hcond entry c hentry hinner hcd)
        · have hcd : c ≠ d := by
            rintro rfl
            exact hdone hexec.2
          exact absurd hexecg.2 (hcond entry c hentry hinner hcd)
        · exact absurd rfl hforget
      · cases hmoves with
        | @insert c entry hframe hentry =>
          obtain ⟨⟨entry', hentry', rfl⟩, -⟩ := hexec
          rw [setFrame_entry, setInner_entry, hentry] at hentry'
          obtain rfl : entry = entry' := by simpa using hentry'
          rw [setFrame_inner, setInner_inner, if_pos rfl]

theorem atMostOne_of_exec (hcond : Throughout step Undisturbed new events)
    (hrun : exec step new events = some g) : g.AtMostOne events := by
  intro key c d hc hd hcsince hdsince
  have hinner := inner_of_executes hcond hrun c key hc hcsince
  rw [inner_of_executes hcond hrun d key hd hdsince] at hinner
  simpa using hinner.symm

theorem startedSince_of_inner (hrun : exec step new events = some g) (c : Nat) (key : K)
    (hinner : g.inner key = some c) : StartedSince events c key := by
  refine run_rule (f := step) (C := fun _ _ => True)
    (P := fun events g => ∀ c key, g.inner key = some c → StartedSince events c key) ?_ ?_
    (fun _ _ _ _ _ _ => trivial) hrun c key hinner
  · simp [new]
  · intro events g event h _ ih _ hstep c key hinner
    obtain hsame | ⟨d, entry, rfl, -, -, -, hd⟩ | ⟨d, entry, -, -, -, hnone, -⟩ | ⟨-, hnone⟩ :=
      (moves_of_step hstep).inner key
    · have hforget : event ≠ .forget key := by
        rintro rfl
        obtain rfl : g.setInner key none = h := by simpa [step] using hstep
        simp at hinner
      exact (ih c key (hsame ▸ hinner)).concat hforget
    · obtain rfl : d = c := by simpa [hd] using hinner
      exact startedSince_insert events d key
    · simp [hnone] at hinner
    · simp [hnone] at hinner

theorem Moves.disturbed (hmoves : g.Moves event h) (hrun : exec step new events = some g)
    (hevent : ¬ g.Undisturbed event) :
    ¬ h.AtMostOne (events ++ [event]) ∨ ¬ g.RemovesOwn event := by
  cases event with
  | insert c =>
    left
    intro hone
    have hother : ∃ entry e, g.entry c = some entry ∧ g.inner entry.key = some e ∧ e ≠ c ∧
        (g.frame e).InFlight := by
      simpa [Undisturbed, MeetsNoOther] using hevent
    obtain ⟨entry, e, hentry, hinner, hec, hflight⟩ := hother
    cases hmoves with
    | @insert _ entry' hframe hentry' =>
      obtain rfl : entry = entry' := by simpa [hentry] using hentry'
      have hsince := startedSince_of_inner hrun e entry.key hinner
      obtain ⟨old, hold, hkey, -⟩ := (wf_of_exec hrun).mapped entry.key e hinner
      have hone := hone entry.key c e ⟨⟨entry, hentry, rfl⟩, by simp [Frame.InFlight]⟩
        ⟨⟨old, hold, hkey⟩, by rw [setFrame_frame, if_neg hec]; exact hflight⟩
        (startedSince_insert events c entry.key) (hsince.concat (by simp))
      exact hec hone.symm
  | remove c => exact .inr hevent
  | _ => exact absurd trivial hevent

/-! ## Shared results -/

omit [DecidableEq K] in
theorem awaits_setFrame {c d e seen : Nat} {frame : Frame K V}
    (h : ((g.setFrame c frame).frame d).awaits = some (e, seen)) :
    (d = c ∧ frame.awaits = some (e, seen)) ∨ (g.frame d).awaits = some (e, seen) := by
  rw [setFrame_frame] at h
  split at h
  · next hdc => exact .inl ⟨hdc, h⟩
  · exact .inr h

theorem Moves.awaits (hmoves : g.Moves event h) {d e seen : Nat}
    (hd : (h.frame d).awaits = some (e, seen)) :
    (∃ n, (g.frame d).awaits = some (e, n)) ∨
      (∃ key, event = .lookup d ∧ g.frame d = .lookup key ∧ g.inner key = some e) := by
  cases hmoves with
  | @hit c key e' hframe hinner =>
    obtain ⟨rfl, hc⟩ | hd := awaits_setFrame hd
    · obtain ⟨rfl, -⟩ : e' = e ∧ 0 = seen := by simpa [Frame.awaits] using hc
      exact .inr ⟨key, rfl, hframe, hinner⟩
    · exact .inl ⟨seen, hd⟩
  | @notified c e' entry hframe hentry =>
    obtain ⟨rfl, hc⟩ | hd := awaits_setFrame hd
    · obtain ⟨rfl, -⟩ : e' = e ∧ entry.notified = seen := by simpa [Frame.awaits] using hc
      exact .inl ⟨0, by simp [hframe, Frame.awaits]⟩
    · exact .inl ⟨seen, hd⟩
  | @wait c e' n entry hframe hentry hval =>
    obtain ⟨rfl, hc⟩ | hd := awaits_setFrame hd
    · exact .inl ⟨seen, by simpa [hframe, Frame.awaits] using hc⟩
    · exact .inl ⟨seen, hd⟩
  | @wake c e' n entry hframe hentry hseen =>
    obtain ⟨rfl, hc⟩ | hd := awaits_setFrame hd
    · obtain ⟨rfl, -⟩ : e' = e ∧ 0 = seen := by simpa [Frame.awaits] using hc
      exact .inl ⟨n, by simp [hframe, Frame.awaits]⟩
    · exact .inl ⟨seen, hd⟩
  | forget => exact .inl ⟨seen, hd⟩
  | _ =>
    obtain ⟨rfl, hc⟩ | hd := awaits_setFrame hd
    · simp [Frame.awaits] at hc
    · exact .inl ⟨seen, hd⟩

theorem Moves.val (hmoves : g.Moves event h) (hwf : g.Wf) {e : Nat} {val : V}
    (hval : ∃ entry, g.entry e = some entry ∧ entry.val = some val) :
    ∃ entry, h.entry e = some entry ∧ entry.val = some val := by
  obtain ⟨entry, hentry, hstored⟩ := hval
  have hleads := hwf.leads e entry hentry
  cases hmoves with
  | @miss c key hframe hinner =>
    have hec : e ≠ c := by
      rintro rfl
      simp [hframe, Frame.Leads] at hleads
    exact ⟨entry, by rw [setFrame_entry, setEntry_entry, if_neg hec, hentry], hstored⟩
  | @store c result old hframe hold =>
    have hec : e ≠ c := by
      rintro rfl
      simp [hframe, Frame.Leads, hstored] at hleads
    exact ⟨entry, by rw [setFrame_entry, setEntry_entry, if_neg hec, hentry], hstored⟩
  | @notifyWaiters c result old hframe hold =>
    by_cases hec : e = c
    · subst hec
      obtain rfl : old = entry := by simpa [hold] using hentry
      exact ⟨{ old with notified := old.notified + 1 },
        by rw [setFrame_entry, setEntry_entry, if_pos rfl], hstored⟩
    · exact ⟨entry, by rw [setFrame_entry, setEntry_entry, if_neg hec, hentry], hstored⟩
  | _ => exact ⟨entry, hentry, hstored⟩

theorem Moves.shared (hmoves : g.Moves event h) {c : Nat} {val : V}
    (hdone : h.frame c = .done ⟨val, true⟩) :
    g.frame c = .done ⟨val, true⟩ ∨ ∃ e seen entry, (g.frame c).awaits = some (e, seen) ∧
      g.entry e = some entry ∧ entry.val = some val := by
  have other (k : Group K V) (b : Nat) (frame : Frame K V) (hk : k.frame = g.frame)
      (h' : (k.setFrame b frame).frame c = .done ⟨val, true⟩)
      (hframe : frame ≠ .done ⟨val, true⟩) : g.frame c = .done ⟨val, true⟩ := by
    rw [setFrame_frame] at h'
    split at h'
    · exact absurd h' hframe
    · rwa [hk] at h'
  cases hmoves with
  | @found b e seen entry val' hframe hentry hval =>
    rw [setFrame_frame] at hdone
    split at hdone
    · next hcb =>
      obtain rfl : val' = val := by simpa using hdone
      exact .inr ⟨e, seen, entry, by simp [hcb, hframe, Frame.awaits], hentry, hval⟩
    · exact .inl hdone
  | forget => exact .inl hdone
  | _ => exact .inl (other _ _ _ rfl hdone (by simp))

theorem Moves.stays_dropped (hmoves : g.Moves event h) {e : Nat} (hdropped : g.frame e = .dropped) :
    h.frame e = .dropped := by
  have other (k : Group K V) (b : Nat) (frame : Frame K V) (hk : k.frame = g.frame)
      (hb : g.frame b ≠ .dropped) : (k.setFrame b frame).frame e = .dropped := by
    have heb : e ≠ b := by
      rintro rfl
      exact hb hdropped
    rw [setFrame_frame, if_neg heb, hk, hdropped]
  cases hmoves with
  | forget => exact hdropped
  | call hframe => exact other _ _ _ rfl (by simp [hframe])
  | hit hframe _ => exact other _ _ _ rfl (by simp [hframe])
  | miss hframe _ => exact other _ _ _ rfl (by simp [hframe])
  | notified hframe _ => exact other _ _ _ rfl (by simp [hframe])
  | found hframe _ _ => exact other _ _ _ rfl (by simp [hframe])
  | wait hframe _ _ => exact other _ _ _ rfl (by simp [hframe])
  | wake hframe _ _ => exact other _ _ _ rfl (by simp [hframe])
  | insert hframe _ => exact other _ _ _ rfl (by simp [hframe])
  | finish hframe => exact other _ _ _ rfl (by simp [hframe])
  | store hframe _ => exact other _ _ _ rfl (by simp [hframe])
  | notifyWaiters hframe _ => exact other _ _ _ rfl (by simp [hframe])
  | remove hframe _ => exact other _ _ _ rfl (by simp [hframe])
  | dropLookup hframe => exact other _ _ _ rfl (by simp [hframe])
  | dropWaiting hframe => exact other _ _ _ rfl (by simp [hframe])
  | dropRunning hframe => exact other _ _ _ rfl (by simp [hframe])

theorem lookedUp_of_exec (hrun : exec step new events = some g) :
    (∀ c e seen, (g.frame c).awaits = some (e, seen) → LookedUp events c e) ∧
      ∀ c val, g.frame c = .done ⟨val, true⟩ → ∃ e, LookedUp events c e ∧
        ∃ entry, g.entry e = some entry ∧ entry.val = some val := by
  have longer {events : List (Event K V)} {event : Event K V} {c e : Nat}
      (h : LookedUp events c e) : LookedUp (events ++ [event]) c e := by
    obtain ⟨pre, post, t, key, rfl, hlookup⟩ := h
    exact ⟨pre, post ++ [event], t, key, by simp, hlookup⟩
  refine run_rule (f := step) (C := fun _ _ => True) (P := fun events g =>
    (∀ c e seen, (g.frame c).awaits = some (e, seen) → LookedUp events c e) ∧
      ∀ c val, g.frame c = .done ⟨val, true⟩ → ∃ e, LookedUp events c e ∧
        ∃ entry, g.entry e = some entry ∧ entry.val = some val) ?_ ?_
    (fun _ _ _ _ _ _ => trivial) hrun
  · simp [new, Frame.awaits]
  · intro events g event h hexec ih _ hstep
    have hmoves := moves_of_step hstep
    have hwf := wf_of_exec hexec
    constructor
    · intro c e seen hc
      obtain ⟨n, hn⟩ | ⟨key, rfl, hframe, hinner⟩ := hmoves.awaits hc
      · exact longer (ih.1 c e n hn)
      · exact ⟨events, [], g, key, rfl, hexec, hframe, hinner⟩
    · intro c val hdone
      obtain hdone | ⟨e, seen, entry, hawaits, hentry, hval⟩ := hmoves.shared hdone
      · obtain ⟨e, hlooked, hval⟩ := ih.2 c val hdone
        exact ⟨e, longer hlooked, hmoves.val hwf hval⟩
      · exact ⟨e, longer (ih.1 c e seen hawaits), hmoves.val hwf ⟨entry, hentry, hval⟩⟩

theorem sharedInFlight_of_exec (hrun : exec step new events = some g) :
    g.SharedInFlight events := by
  intro c val hdone
  obtain ⟨e, ⟨pre, post, t, key, rfl, hpre, hframe, hinner⟩, entry, hentry, hval⟩ :=
    (lookedUp_of_exec hrun).2 c val hdone
  refine ⟨pre, post, t, key, e, rfl, hpre, hframe, ?_, entry, hentry, hval⟩
  obtain ⟨found, hfound, hkey, hflight | hdropped⟩ := (wf_of_exec hpre).mapped key e hinner
  · exact ⟨⟨found, hfound, hkey⟩, hflight⟩
  · -- a dropped call never stores the value that was read
    have hafter : exec step t (.lookup c :: post) = some g := by
      rwa [exec_append, hpre, Option.bind_some] at hrun
    have hstill : g.frame e = .dropped :=
      run_invariant (P := fun g : Group K V => g.frame e = .dropped) hdropped
        (fun _ _ _ hd hstep => (moves_of_step hstep).stays_dropped hd) hafter
    have hleads := (wf_of_exec hrun).leads e entry hentry
    rw [hstill] at hleads
    simp [show entry.val = none from hleads] at hval

/-! ## Runs -/

/-- In every state of the run the executions and the shared results are as they
should be, and no completion removes the entry of another execution. -/
def Deduplicated (events : List (Event K V)) : Prop :=
  (∀ pre post t, events = pre ++ post → exec step new pre = some t →
    t.AtMostOne pre ∧ t.SharedInFlight pre) ∧
    Throughout step RemovesOwn new events

/-- A run deduplicates exactly when no insertion and no removal meets the entry
of another execution in flight. -/
theorem deduplicated_iff (hrun : exec step new events = some g) :
    Deduplicated events ↔ Throughout step Undisturbed new events := by
  refine ⟨fun ⟨hstates, hremoves⟩ pre event post t hevents hpre => ?_, fun hcond => ⟨?_, ?_⟩⟩
  · by_contra hevent
    have hall := hrun
    rw [hevents] at hall
    obtain ⟨t', u, hpre', hstep, -⟩ := exec_split hall
    obtain rfl : t = t' := by simpa [hpre] using hpre'
    have hu : exec step new (pre ++ [event]) = some u := exec_concat_eq_some.mpr ⟨t, hpre, hstep⟩
    obtain hone | hown := (moves_of_step hstep).disturbed hpre hevent
    · exact hone (hstates (pre ++ [event]) post u (by simp [hevents]) hu).1
    · exact hown (hremoves pre event post t hevents hpre)
  · intro pre post t hevents hpre
    rw [hevents] at hcond
    exact ⟨atMostOne_of_exec hcond.init hpre, sharedInFlight_of_exec hpre⟩
  · intro pre event post t hevents hpre
    have hevent := hcond pre event post t hevents hpre
    cases event with
    | remove c => exact hevent
    | _ => trivial

/-- The second caller waits for the execution of the first and shares its result. -/
theorem deduplicated_shared : ∃ g : Group Nat Nat,
    exec step new [.call 0 7, .call 1 7, .lookup 0, .insert 0, .lookup 1, .notified 1, .check 1,
      .finish 0 5, .store 0, .notifyWaiters 0, .wake 1, .notified 1, .check 1, .remove 0] = some g ∧
    g.frame 1 = .done ⟨5, true⟩ ∧
    Deduplicated ([.call 0 7, .call 1 7, .lookup 0, .insert 0, .lookup 1, .notified 1, .check 1,
      .finish 0 5, .store 0, .notifyWaiters 0, .wake 1, .notified 1, .check 1, .remove 0] :
        List (Event Nat Nat)) := by
  obtain ⟨g, hrun, hdone⟩ : ∃ g : Group Nat Nat, exec step new [.call 0 7, .call 1 7, .lookup 0,
      .insert 0, .lookup 1, .notified 1, .check 1, .finish 0 5, .store 0, .notifyWaiters 0,
      .wake 1, .notified 1, .check 1, .remove 0] = some g ∧ g.frame 1 = .done ⟨5, true⟩ :=
    ⟨_, rfl, rfl⟩
  refine ⟨g, hrun, hdone, (deduplicated_iff hrun).mpr ?_⟩
  iterate 3
    refine throughout_cons trivial fun u hu => ?_
    obtain rfl := Option.some.inj hu
  refine throughout_cons (fun entry e hentry hinner => ?_) fun u hu => ?_
  · obtain rfl := Option.some.inj hentry
    have hempty : (none : Option Nat) = some e := hinner
    simp at hempty
  obtain rfl := Option.some.inj hu
  iterate 9
    refine throughout_cons trivial fun u hu => ?_
    obtain rfl := Option.some.inj hu
  refine throughout_cons (fun entry e hentry hinner hother => ?_) fun _ _ => throughout_nil
  obtain rfl := Option.some.inj hentry
  exact absurd (Option.some.inj hinner).symm hother

/-- Two calls look the key up before either inserts its entry. -/
theorem duplicated_race : ¬ ∀ (events : List (Event Nat Nat)) (g : Group Nat Nat),
    exec step new events = some g → Deduplicated events := by
  intro hall
  have hrun : ∃ g : Group Nat Nat, exec step new [.call 0 7, .call 1 7, .lookup 0, .lookup 1,
    .insert 0, .insert 1] = some g := ⟨_, rfl⟩
  obtain ⟨g, hrun⟩ := hrun
  have hone := ((hall _ g hrun).1 _ [] g (by simp) hrun).1
  obtain rfl := Option.some.inj hrun
  have hzero := hone 7 0 1 ⟨⟨_, rfl, rfl⟩, trivial⟩ ⟨⟨_, rfl, rfl⟩, trivial⟩
    ⟨[.call 0 7, .call 1 7, .lookup 0, .lookup 1], [.insert 1], rfl, by simp⟩
    ⟨[.call 0 7, .call 1 7, .lookup 0, .lookup 1, .insert 0], [], rfl, by simp⟩
  simp at hzero

end Group

end Stdx.Singleflight
