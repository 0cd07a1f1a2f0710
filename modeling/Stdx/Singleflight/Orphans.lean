import Stdx.Singleflight.Group

/-!
# Entries that nobody will complete

An entry is referenced as long as the map or a waiting call holds it.  It stays
without a value for ever once the call that allocated it is dropped while `f`
runs; dropping a call anywhere else does no harm.
-/

namespace Stdx.Singleflight

open Stdx.Foundation

variable {K V : Type*}

def Frame.WillStore : Frame K V → Prop
  | .insert | .running | .store _ => True
  | _ => False

namespace Group

def Referenced (g : Group K V) (e : Nat) : Prop :=
  (∃ key, g.inner key = some e) ∨ ∃ c seen, (g.frame c).awaits = some (e, seen)

/-- Every referenced entry holds its value or will be given it. -/
def NoOrphan (g : Group K V) : Prop :=
  ∀ e, g.Referenced e → ∃ entry, g.entry e = some entry ∧
    (entry.val ≠ none ∨ (g.frame e).WillStore)

/-- The event is not the drop of a call whose entry is referenced while `f` runs. -/
def KeepsLeader (g : Group K V) : Event K V → Prop
  | .drop c => g.frame c = .running → ¬ g.Referenced c
  | _ => True

/-- A caller that waits for an entry with a value has a notification to come. -/
def Notice (g : Group K V) : Prop :=
  ∀ c e seen entry, g.frame c = .waiting e seen → g.entry e = some entry → entry.val ≠ none →
    seen < entry.notified ∨ ∃ result, g.frame e = .notify result

variable [DecidableEq K] {g h : Group K V} {event : Event K V}

theorem Moves.referenced (hmoves : g.Moves event h) {e : Nat} (href : h.Referenced e) :
    g.Referenced e ∨ event = .insert e := by
  have frames (c : Nat) (frame : Frame K V)
      (hframe : ∀ d seen, frame.awaits = some (d, seen) → g.Referenced d)
      (h' : ∃ b seen, ((g.setFrame c frame).frame b).awaits = some (e, seen)) :
      g.Referenced e := by
    obtain ⟨b, seen, hb⟩ := h'
    rw [setFrame_frame] at hb
    split at hb
    · exact hframe e seen hb
    · exact .inr ⟨b, seen, hb⟩
  have waited {c d : Nat} {m : Nat} (hd : (g.frame c).awaits = some (d, m)) : g.Referenced d :=
    .inr ⟨c, m, hd⟩
  cases hmoves with
  | @insert c entry hframe hentry =>
    obtain ⟨key, hkey⟩ | hframes := href
    · rw [setFrame_inner, setInner_inner] at hkey
      split at hkey
      · obtain rfl : c = e := by simpa using hkey
        exact .inr rfl
      · exact .inl (.inl ⟨key, hkey⟩)
    · exact .inl (frames c .running (by simp [Frame.awaits]) hframes)
  | @hit c key d hframe hinner =>
    obtain hkey | hframes := href
    · exact .inl (.inl hkey)
    · refine .inl (frames c _ (fun d' seen hd => ?_) hframes)
      obtain ⟨rfl, -⟩ : d = d' ∧ 0 = seen := by simpa [Frame.awaits] using hd
      exact .inl ⟨key, hinner⟩
  | @notified c d entry hframe hentry =>
    obtain hkey | hframes := href
    · exact .inl (.inl hkey)
    · refine .inl (frames c _ (fun d' seen hd => ?_) hframes)
      obtain ⟨rfl, -⟩ : d = d' ∧ entry.notified = seen := by simpa [Frame.awaits] using hd
      exact waited (c := c) (m := 0) (by simp [hframe, Frame.awaits])
  | @wait c d seen entry hframe hentry hval =>
    obtain hkey | hframes := href
    · exact .inl (.inl hkey)
    · refine .inl (frames c _ (fun d' m hd => ?_) hframes)
      exact waited (c := c) (m := m) (by simpa [hframe, Frame.awaits] using hd)
  | @wake c d seen entry hframe hentry hseen =>
    obtain hkey | hframes := href
    · exact .inl (.inl hkey)
    · refine .inl (frames c _ (fun d' m hd => ?_) hframes)
      obtain ⟨rfl, -⟩ : d = d' ∧ 0 = m := by simpa [Frame.awaits] using hd
      exact waited (c := c) (m := seen) (by simp [hframe, Frame.awaits])
  | @remove c result entry hframe hentry =>
    obtain ⟨key, hkey⟩ | hframes := href
    · rw [setFrame_inner, setInner_inner] at hkey
      split at hkey
      · simp at hkey
      · exact .inl (.inl ⟨key, hkey⟩)
    · exact .inl (frames c (.done ⟨result, false⟩) (by simp [Frame.awaits])
        hframes)
  | @forget key =>
    obtain ⟨k, hk⟩ | hframes := href
    · rw [setInner_inner] at hk
      split at hk
      · simp at hk
      · exact .inl (.inl ⟨k, hk⟩)
    · exact .inl (.inr hframes)
  | @miss c key hframe hinner =>
    exact .inl (href.elim .inl (frames c .insert (by simp [Frame.awaits])))
  | @store c result entry hframe hentry =>
    exact .inl (href.elim .inl
      (frames c (.notify result) (by simp [Frame.awaits])))
  | @notifyWaiters c result entry hframe hentry =>
    exact .inl (href.elim .inl
      (frames c (.remove result) (by simp [Frame.awaits])))
  | call _ => exact .inl (href.elim .inl (frames _ _ (by simp [Frame.awaits])))
  | found _ _ _ => exact .inl (href.elim .inl (frames _ _ (by simp [Frame.awaits])))
  | finish _ => exact .inl (href.elim .inl (frames _ _ (by simp [Frame.awaits])))
  | dropLookup _ => exact .inl (href.elim .inl (frames _ _ (by simp [Frame.awaits])))
  | dropWaiting _ => exact .inl (href.elim .inl (frames _ _ (by simp [Frame.awaits])))
  | dropRunning _ => exact .inl (href.elim .inl (frames _ _ (by simp [Frame.awaits])))

theorem Moves.dropped (hmoves : g.Moves event h) {e : Nat} (hdropped : h.frame e = .dropped) :
    g.frame e = .dropped ∨ event = .drop e := by
  have frames {c : Nat} {frame : Frame K V} {k : Group K V} (hk : k.frame = g.frame)
      (h' : (k.setFrame c frame).frame e = .dropped) (hframe : frame ≠ .dropped) :
      g.frame e = .dropped := by
    rw [setFrame_frame] at h'
    split at h'
    · exact absurd h' hframe
    · rwa [hk] at h'
  have drops {c : Nat} (h' : (g.setFrame c .dropped).frame e = .dropped) :
      g.frame e = .dropped ∨ (.drop c : Event K V) = .drop e := by
    rw [setFrame_frame] at h'
    split at h'
    · next hec => exact .inr (by rw [hec])
    · exact .inl h'
  cases hmoves with
  | forget => exact .inl hdropped
  | dropLookup _ => exact drops hdropped
  | dropWaiting _ => exact drops hdropped
  | dropRunning _ => exact drops hdropped
  | _ => exact .inl (frames rfl hdropped (by simp))

omit [DecidableEq K] in
theorem Wf.entry_of_referenced (hwf : g.Wf) {e : Nat} (href : g.Referenced e) :
    ∃ entry, g.entry e = some entry := by
  obtain ⟨key, hkey⟩ | ⟨c, seen, hc⟩ := href
  · obtain ⟨entry, hentry, _⟩ := hwf.mapped key e hkey
    exact ⟨entry, hentry⟩
  · obtain ⟨entry, hentry, _⟩ := hwf.awaited c e seen hc
    exact ⟨entry, hentry⟩

omit [DecidableEq K] in
theorem Wf.noOrphan_iff (hwf : g.Wf) :
    g.NoOrphan ↔ ∀ e, g.Referenced e → g.frame e ≠ .dropped := by
  refine ⟨fun hno e href hdropped => ?_, fun hno e href => ?_⟩
  · obtain ⟨entry, hentry, hheld⟩ := hno e href
    have hleads := hwf.leads e entry hentry
    rw [hdropped] at hleads hheld
    exact hheld.elim (fun hval => hval hleads) id
  · obtain ⟨entry, hentry⟩ := hwf.entry_of_referenced href
    refine ⟨entry, hentry, ?_⟩
    have hleads := hwf.leads e entry hentry
    have hlive := hno e href
    cases hframe : g.frame e with
    | insert => exact .inr trivial
    | running => exact .inr trivial
    | store result => exact .inr trivial
    | notify result =>
      rw [hframe] at hleads
      exact .inl (by simp [show entry.val = some result from hleads])
    | remove result =>
      rw [hframe] at hleads
      exact .inl (by simp [show entry.val = some result from hleads])
    | done call =>
      rw [hframe] at hleads
      exact .inl (by simp [show entry.val = some call.val from hleads.1])
    | dropped => exact absurd hframe hlive
    | _ => simp [hframe, Frame.Leads] at hleads

theorem Moves.noOrphan (hmoves : g.Moves event h) (hwf : g.Wf) (hno : g.NoOrphan)
    (hkeeps : g.KeepsLeader event) : h.NoOrphan := by
  rw [(hmoves.wf hwf).noOrphan_iff]
  rw [hwf.noOrphan_iff] at hno
  intro e href hdropped
  obtain hg | rfl := hmoves.dropped hdropped
  · obtain href | rfl := hmoves.referenced href
    · exact hno e href hg
    · cases hmoves with
      | insert hframe _ => simp [hg] at hframe
  · obtain hheld | hinsert := hmoves.referenced href
    · obtain ⟨entry, hentry⟩ := hwf.entry_of_referenced hheld
      have hleads := hwf.leads e entry hentry
      cases hmoves with
      | dropLookup hframe => simp [hframe, Frame.Leads] at hleads
      | dropWaiting hframe => simp [hframe, Frame.Leads] at hleads
      | dropRunning hframe => exact hkeeps hframe hheld
    · simp at hinsert

theorem Moves.orphan (hmoves : g.Moves event h) (hwf : g.Wf) (hkeeps : ¬ g.KeepsLeader event) :
    ¬ h.NoOrphan := by
  rw [(hmoves.wf hwf).noOrphan_iff]
  intro hno
  cases event with
  | drop c =>
    obtain ⟨hframe, href⟩ : g.frame c = .running ∧ g.Referenced c := by
      simpa [KeepsLeader] using hkeeps
    cases hmoves with
    | dropLookup hlookup => simp [hframe] at hlookup
    | dropWaiting hwaiting => simp [hframe] at hwaiting
    | dropRunning _ =>
      refine hno c ?_ (by simp)
      obtain hkey | ⟨b, seen, hb⟩ := href
      · exact .inl hkey
      · refine .inr ⟨b, seen, ?_⟩
        rw [setFrame_frame, if_neg]
        · exact hb
        · rintro rfl
          simp [hframe, Frame.awaits] at hb
  | _ => simp [KeepsLeader] at hkeeps

/-! ## No wake-up is lost -/

omit [DecidableEq K] in
theorem Notice.setFrame (hnotice : g.Notice) (c : Nat) (frame : Frame K V)
    (hframe : ∀ result, g.frame c ≠ .notify result)
    (hwaiting : ∀ e seen, frame = .waiting e seen → ∀ entry, g.entry e = some entry →
      entry.val = none) : (g.setFrame c frame).Notice := by
  intro d e seen entry hd hentry hval
  rw [setFrame_frame] at hd
  split at hd
  · exact absurd (hwaiting e seen hd entry hentry) hval
  · refine (hnotice d e seen entry hd hentry hval).imp_right fun ⟨result, hresult⟩ => ?_
    refine ⟨result, ?_⟩
    rw [setFrame_frame, if_neg]
    · exact hresult
    · rintro rfl
      exact hframe result hresult

omit [DecidableEq K] in
theorem Notice.setEntry_setFrame (hnotice : g.Notice) (c : Nat) (new : Entry K V)
    (frame : Frame K V) (hframe : frame.awaits = none)
    (hnew : ∀ d seen, d ≠ c → g.frame d = .waiting c seen → new.val ≠ none →
      seen < new.notified ∨ ∃ result, frame = .notify result) :
    ((g.setEntry c new).setFrame c frame).Notice := by
  intro d e seen entry hd hentry hval
  rw [setFrame_frame] at hd
  split at hd
  · simp [hd, Frame.awaits] at hframe
  · next hdc =>
    rw [setFrame_entry, setEntry_entry] at hentry
    rw [setFrame_frame]
    by_cases hec : e = c
    · obtain rfl : new = entry := by simpa [hec] using hentry
      rw [if_pos hec]
      exact hnew d seen hdc (hec ▸ hd) hval
    · rw [if_neg hec] at hentry ⊢
      exact hnotice d e seen entry hd hentry hval

theorem Moves.notice (hmoves : g.Moves event h) (hwf : g.Wf) (hnotice : g.Notice) : h.Notice := by
  cases hmoves with
  | @miss c key hframe hinner =>
    exact hnotice.setEntry_setFrame c _ _ rfl (by simp)
  | @wait c e seen entry hframe hentry hval =>
    refine hnotice.setFrame c _ (by simp [hframe]) ?_
    intro d m hd old hold
    obtain ⟨rfl, rfl⟩ : e = d ∧ seen = m := by simpa using hd
    obtain rfl : entry = old := by simpa [hentry] using hold
    exact hval
  | @store c result entry hframe hentry =>
    exact hnotice.setEntry_setFrame c _ _ rfl (fun _ _ _ _ _ => .inr ⟨result, rfl⟩)
  | @notifyWaiters c result entry hframe hentry =>
    refine hnotice.setEntry_setFrame c _ _ rfl (fun d seen _ hd _ => .inl ?_)
    obtain ⟨old, hold, hseen⟩ := hwf.awaited d c seen (by simp [hd, Frame.awaits])
    obtain rfl : entry = old := by simpa [hentry] using hold
    exact Nat.lt_succ_of_le hseen
  | @insert c entry hframe hentry => exact hnotice.setFrame c _ (by simp [hframe]) (by simp)
  | @remove c result entry hframe hentry =>
    exact hnotice.setFrame c _ (by simp [hframe]) (by simp)
  | forget => exact hnotice
  | call hframe => exact hnotice.setFrame _ _ (by simp [hframe]) (by simp)
  | hit hframe _ => exact hnotice.setFrame _ _ (by simp [hframe]) (by simp)
  | notified hframe _ => exact hnotice.setFrame _ _ (by simp [hframe]) (by simp)
  | found hframe _ _ => exact hnotice.setFrame _ _ (by simp [hframe]) (by simp)
  | wake hframe _ _ => exact hnotice.setFrame _ _ (by simp [hframe]) (by simp)
  | finish hframe => exact hnotice.setFrame _ _ (by simp [hframe]) (by simp)
  | dropLookup hframe => exact hnotice.setFrame _ _ (by simp [hframe]) (by simp)
  | dropWaiting hframe => exact hnotice.setFrame _ _ (by simp [hframe]) (by simp)
  | dropRunning hframe => exact hnotice.setFrame _ _ (by simp [hframe]) (by simp)

/-! ## Runs -/

theorem noOrphan_of_exec {events : List (Event K V)}
    (hkeeps : Throughout step KeepsLeader new events) (hrun : exec step new events = some g) :
    g.NoOrphan := by
  have hstart : (new : Group K V).NoOrphan := by
    rw [wf_new.noOrphan_iff]
    simp [new]
  refine run_rule (P := fun _ => NoOrphan) hstart ?_ hkeeps hrun
  intro events t event u hexec hno hcond hstep
  exact (moves_of_step hstep).noOrphan (wf_of_exec hexec) hno hcond

theorem notice_of_exec {events : List (Event K V)} (hrun : exec step new events = some g) :
    g.Notice := by
  have hstart : (new : Group K V).Notice := by simp [Notice, new]
  refine run_rule (C := fun _ _ => True) (P := fun _ => Notice) hstart ?_
    (fun _ _ _ _ _ _ => trivial) hrun
  intro events t event u hexec hnotice _ hstep
  exact (moves_of_step hstep).notice (wf_of_exec hexec) hnotice

/-- A run leaves no orphan in any of its states exactly when no call is dropped
while it runs `f` and its entry is referenced; and no run loses a wake-up. -/
theorem no_orphan_iff {events : List (Event K V)} (hrun : exec step new events = some g) :
    ((∀ pre post t, events = pre ++ post → exec step new pre = some t → t.NoOrphan) ↔
      Throughout step KeepsLeader new events) ∧ g.Notice := by
  refine ⟨⟨fun hno pre event post t hevents hpre => ?_, fun hkeeps pre post t hevents hpre => ?_⟩,
    notice_of_exec hrun⟩
  · by_contra hlost
    rw [hevents] at hrun
    obtain ⟨t', u, hpre', hstep, -⟩ := exec_split hrun
    obtain rfl : t = t' := by simpa [hpre] using hpre'
    refine (moves_of_step hstep).orphan (wf_of_exec hpre) hlost
      (hno (pre ++ [event]) post u (by simp [hevents]) ?_)
    exact exec_concat_eq_some.mpr ⟨t, hpre, hstep⟩
  · exact noOrphan_of_exec (by rw [hevents] at hkeeps; exact hkeeps.init) hpre

/-- A waiter is dropped, the leader is not. -/
theorem no_orphan_dropped_waiter : ∃ g : Group Nat Nat,
    exec step new [.call 0 7, .lookup 0, .insert 0, .call 1 7, .lookup 1, .notified 1, .check 1,
      .drop 1, .finish 0 5, .store 0] = some g ∧ g.NoOrphan ∧ g.Notice := by
  obtain ⟨g, hrun⟩ : ∃ g : Group Nat Nat, exec step new [.call 0 7, .lookup 0, .insert 0,
    .call 1 7, .lookup 1, .notified 1, .check 1, .drop 1, .finish 0 5, .store 0] = some g :=
    ⟨_, rfl⟩
  refine ⟨g, hrun, (no_orphan_iff hrun).1.mpr ?_ _ [] g (List.append_nil _).symm hrun,
    (no_orphan_iff hrun).2⟩
  iterate 7
    refine throughout_cons trivial fun u hu => ?_
    obtain rfl := Option.some.inj hu
  refine throughout_cons (fun hrunning => ?_) fun u hu => ?_
  · have hwaiting : (Frame.waiting 0 0 : Frame Nat Nat) = .running := hrunning
    simp at hwaiting
  obtain rfl := Option.some.inj hu
  iterate 2
    refine throughout_cons trivial fun u hu => ?_
    obtain rfl := Option.some.inj hu
  exact throughout_nil

/-- The leader is dropped while another caller waits for its entry. -/
theorem orphan_dropped_leader : ¬ ∀ (events : List (Event Nat Nat)) (g : Group Nat Nat),
    exec step new events = some g → g.NoOrphan := by
  intro hno
  have hrun := hno [.call 0 7, .lookup 0, .insert 0, .call 1 7, .lookup 1, .notified 1, .check 1,
    .drop 0] _ rfl
  obtain ⟨entry, hentry, hheld⟩ := hrun 0 (.inr ⟨1, 0, rfl⟩)
  obtain rfl : (⟨7, none, 0⟩ : Entry Nat Nat) = entry := Option.some.inj hentry
  exact hheld.elim (fun hval => hval rfl) id

end Group

end Stdx.Singleflight
