import Mathlib.Logic.Function.Basic
import Stdx.Foundation.Transition

/-!
# The group of calls in flight

Every call of `call_async` is a frame that moves from one atomic step to the
next.  A step is one acquisition of a lock, one creation of the `Notified`
future, one wake-up or the completion of `f`; the steps of all calls and the
calls of `forget` interleave in any order.  An entry is known by the call that
allocated it, since a call allocates at most one.
-/

namespace Stdx.Singleflight

open Stdx.Foundation

structure Call (V : Type*) where
  val : V
  shared : Bool
  deriving DecidableEq

structure Entry (K V : Type*) where
  key : K
  val : Option V
  notified : Nat

/-- Where a call of `call_async` stands.  `waiting` and `running` are its await
points; a future that is not yet polled stands at `lookup`. -/
inductive Frame (K V : Type*) where
  | idle
  | lookup (key : K)
  | loop (entry : Nat)
  | check (entry seen : Nat)
  | waiting (entry seen : Nat)
  | insert
  | running
  | store (result : V)
  | notify (result : V)
  | remove (result : V)
  | done (call : Call V)
  | dropped

structure Group (K V : Type*) where
  inner : K → Option Nat
  entry : Nat → Option (Entry K V)
  frame : Nat → Frame K V

inductive Event (K V : Type*) where
  | call (c : Nat) (key : K)
  | lookup (c : Nat)
  | notified (c : Nat)
  | check (c : Nat)
  | wake (c : Nat)
  | insert (c : Nat)
  | finish (c : Nat) (result : V)
  | store (c : Nat)
  | notifyWaiters (c : Nat)
  | remove (c : Nat)
  | forget (key : K)
  | drop (c : Nat)

variable {K V : Type*}

namespace Group

def new : Group K V where
  inner := fun _ => none
  entry := fun _ => none
  frame := fun _ => .idle

def setFrame (g : Group K V) (c : Nat) (frame : Frame K V) : Group K V :=
  { g with frame := Function.update g.frame c frame }

def setEntry (g : Group K V) (e : Nat) (entry : Entry K V) : Group K V :=
  { g with entry := Function.update g.entry e (some entry) }

@[simp]
theorem setFrame_inner (g : Group K V) (c : Nat) (frame : Frame K V) :
    (g.setFrame c frame).inner = g.inner :=
  rfl

@[simp]
theorem setFrame_entry (g : Group K V) (c : Nat) (frame : Frame K V) :
    (g.setFrame c frame).entry = g.entry :=
  rfl

@[simp]
theorem setFrame_frame (g : Group K V) (c d : Nat) (frame : Frame K V) :
    (g.setFrame c frame).frame d = if d = c then frame else g.frame d := by
  simp [setFrame, Function.update_apply]

@[simp]
theorem setEntry_inner (g : Group K V) (e : Nat) (entry : Entry K V) :
    (g.setEntry e entry).inner = g.inner :=
  rfl

@[simp]
theorem setEntry_entry (g : Group K V) (e d : Nat) (entry : Entry K V) :
    (g.setEntry e entry).entry d = if d = e then some entry else g.entry d := by
  simp [setEntry, Function.update_apply]

@[simp]
theorem setEntry_frame (g : Group K V) (e : Nat) (entry : Entry K V) :
    (g.setEntry e entry).frame = g.frame :=
  rfl

variable [DecidableEq K]

def setInner (g : Group K V) (key : K) (e : Option Nat) : Group K V :=
  { g with inner := Function.update g.inner key e }

@[simp]
theorem setInner_inner (g : Group K V) (key k : K) (e : Option Nat) :
    (g.setInner key e).inner k = if k = key then e else g.inner k := by
  simp [setInner, Function.update_apply]

@[simp]
theorem setInner_entry (g : Group K V) (key : K) (e : Option Nat) :
    (g.setInner key e).entry = g.entry :=
  rfl

@[simp]
theorem setInner_frame (g : Group K V) (key : K) (e : Option Nat) :
    (g.setInner key e).frame = g.frame :=
  rfl

def lookup (g : Group K V) (c : Nat) (key : K) : Group K V :=
  match g.inner key with
  | some e => g.setFrame c (.loop e)
  | none => (g.setEntry c ⟨key, none, 0⟩).setFrame c .insert

/-- `if let Some(val) = entry.val.lock().unwrap().clone()` -/
def check (g : Group K V) (c e seen : Nat) (entry : Entry K V) : Group K V :=
  match entry.val with
  | some val => g.setFrame c (.done ⟨val, true⟩)
  | none => g.setFrame c (.waiting e seen)

def step (g : Group K V) : Event K V → Option (Group K V)
  | .call c key =>
    match g.frame c with
    | .idle => some (g.setFrame c (.lookup key))
    | _ => none
  | .lookup c =>
    match g.frame c with
    | .lookup key => some (g.lookup c key)
    | _ => none
  | .notified c =>
    match g.frame c with
    | .loop e => (g.entry e).map fun entry => g.setFrame c (.check e entry.notified)
    | _ => none
  | .check c =>
    match g.frame c with
    | .check e seen => (g.entry e).map fun entry => g.check c e seen entry
    | _ => none
  | .wake c =>
    match g.frame c with
    | .waiting e seen =>
      (g.entry e).bind fun entry =>
        if seen < entry.notified then some (g.setFrame c (.loop e)) else none
    | _ => none
  | .insert c =>
    match g.frame c with
    | .insert =>
      (g.entry c).map fun entry => (g.setInner entry.key (some c)).setFrame c .running
    | _ => none
  | .finish c result =>
    match g.frame c with
    | .running => some (g.setFrame c (.store result))
    | _ => none
  | .store c =>
    match g.frame c with
    | .store result =>
      (g.entry c).map fun entry =>
        (g.setEntry c { entry with val := some result }).setFrame c (.notify result)
    | _ => none
  | .notifyWaiters c =>
    match g.frame c with
    | .notify result =>
      (g.entry c).map fun entry =>
        (g.setEntry c { entry with notified := entry.notified + 1 }).setFrame c (.remove result)
    | _ => none
  | .remove c =>
    match g.frame c with
    | .remove result =>
      (g.entry c).map fun entry =>
        (g.setInner entry.key none).setFrame c (.done ⟨result, false⟩)
    | _ => none
  | .forget key => some (g.setInner key none)
  | .drop c =>
    match g.frame c with
    | .lookup _ => some (g.setFrame c .dropped)
    | .waiting _ _ => some (g.setFrame c .dropped)
    | .running => some (g.setFrame c .dropped)
    | _ => none

/-! ## What a step does -/

inductive Moves (g : Group K V) : Event K V → Group K V → Prop where
  | call {c key} : g.frame c = .idle → Moves g (.call c key) (g.setFrame c (.lookup key))
  | hit {c key e} : g.frame c = .lookup key → g.inner key = some e →
      Moves g (.lookup c) (g.setFrame c (.loop e))
  | miss {c key} : g.frame c = .lookup key → g.inner key = none →
      Moves g (.lookup c) ((g.setEntry c ⟨key, none, 0⟩).setFrame c .insert)
  | notified {c e entry} : g.frame c = .loop e → g.entry e = some entry →
      Moves g (.notified c) (g.setFrame c (.check e entry.notified))
  | found {c e seen entry val} : g.frame c = .check e seen → g.entry e = some entry →
      entry.val = some val → Moves g (.check c) (g.setFrame c (.done ⟨val, true⟩))
  | wait {c e seen entry} : g.frame c = .check e seen → g.entry e = some entry →
      entry.val = none → Moves g (.check c) (g.setFrame c (.waiting e seen))
  | wake {c e seen entry} : g.frame c = .waiting e seen → g.entry e = some entry →
      seen < entry.notified → Moves g (.wake c) (g.setFrame c (.loop e))
  | insert {c entry} : g.frame c = .insert → g.entry c = some entry →
      Moves g (.insert c) ((g.setInner entry.key (some c)).setFrame c .running)
  | finish {c result} : g.frame c = .running →
      Moves g (.finish c result) (g.setFrame c (.store result))
  | store {c result entry} : g.frame c = .store result → g.entry c = some entry →
      Moves g (.store c)
        ((g.setEntry c { entry with val := some result }).setFrame c (.notify result))
  | notifyWaiters {c result entry} : g.frame c = .notify result → g.entry c = some entry →
      Moves g (.notifyWaiters c)
        ((g.setEntry c { entry with notified := entry.notified + 1 }).setFrame c (.remove result))
  | remove {c result entry} : g.frame c = .remove result → g.entry c = some entry →
      Moves g (.remove c)
        ((g.setInner entry.key none).setFrame c (.done ⟨result, false⟩))
  | forget {key} : Moves g (.forget key) (g.setInner key none)
  | dropLookup {c key} : g.frame c = .lookup key → Moves g (.drop c) (g.setFrame c .dropped)
  | dropWaiting {c e seen} : g.frame c = .waiting e seen →
      Moves g (.drop c) (g.setFrame c .dropped)
  | dropRunning {c} : g.frame c = .running → Moves g (.drop c) (g.setFrame c .dropped)

theorem moves_of_step {g h : Group K V} {event : Event K V} (hstep : g.step event = some h) :
    g.Moves event h := by
  cases event with
  | call c key =>
    cases hframe : g.frame c <;> simp [step, hframe] at hstep
    subst hstep
    exact .call hframe
  | lookup c =>
    cases hframe : g.frame c with
    | lookup key =>
      simp only [step, hframe, Option.some.injEq] at hstep
      subst hstep
      cases hinner : g.inner key with
      | none =>
        simp only [lookup, hinner]
        exact .miss hframe hinner
      | some e =>
        simp only [lookup, hinner]
        exact .hit hframe hinner
    | _ => simp [step, hframe] at hstep
  | notified c =>
    cases hframe : g.frame c <;> simp [step, hframe] at hstep
    obtain ⟨entry, hentry, rfl⟩ := hstep
    exact .notified hframe hentry
  | check c =>
    cases hframe : g.frame c <;> simp [step, hframe] at hstep
    obtain ⟨entry, hentry, rfl⟩ := hstep
    cases hval : entry.val with
    | none =>
      simp only [check, hval]
      exact .wait hframe hentry hval
    | some val =>
      simp only [check, hval]
      exact .found hframe hentry hval
  | wake c =>
    cases hframe : g.frame c with
    | waiting e seen =>
      simp only [step, hframe] at hstep
      obtain ⟨entry, hentry, hmove⟩ := Option.bind_eq_some_iff.mp hstep
      by_cases hseen : seen < entry.notified
      · obtain rfl : g.setFrame c (.loop e) = h := by simpa [hseen] using hmove
        exact .wake hframe hentry hseen
      · simp [hseen] at hmove
    | _ => simp [step, hframe] at hstep
  | insert c =>
    cases hframe : g.frame c <;> simp [step, hframe] at hstep
    obtain ⟨entry, hentry, rfl⟩ := hstep
    exact .insert hframe hentry
  | finish c result =>
    cases hframe : g.frame c <;> simp [step, hframe] at hstep
    subst hstep
    exact .finish hframe
  | store c =>
    cases hframe : g.frame c <;> simp [step, hframe] at hstep
    obtain ⟨entry, hentry, rfl⟩ := hstep
    exact .store hframe hentry
  | notifyWaiters c =>
    cases hframe : g.frame c <;> simp [step, hframe] at hstep
    obtain ⟨entry, hentry, rfl⟩ := hstep
    exact .notifyWaiters hframe hentry
  | remove c =>
    cases hframe : g.frame c <;> simp [step, hframe] at hstep
    obtain ⟨entry, hentry, rfl⟩ := hstep
    exact .remove hframe hentry
  | forget key =>
    obtain rfl : g.setInner key none = h := by simpa [step] using hstep
    exact .forget
  | drop c =>
    cases hframe : g.frame c <;> simp [step, hframe] at hstep <;> subst hstep
    · exact .dropLookup hframe
    · exact .dropWaiting hframe
    · exact .dropRunning hframe

end Group

/-! ## What every reachable state keeps -/

/-- The value of an entry, by where the call that allocated it stands. -/
def Frame.Leads (val : Option V) : Frame K V → Prop
  | .insert | .running | .store _ | .dropped => val = none
  | .notify result | .remove result => val = some result
  | .done call => val = some call.val ∧ call.shared = false
  | _ => False

def Frame.awaits : Frame K V → Option (Nat × Nat)
  | .loop e => some (e, 0)
  | .check e seen | .waiting e seen => some (e, seen)
  | _ => none

/-- From the insertion of its entry to its removal an execution is in flight. -/
def Frame.InFlight : Frame K V → Prop
  | .running | .store _ | .notify _ | .remove _ => True
  | _ => False

namespace Group

structure Wf (g : Group K V) : Prop where
  leads : ∀ e entry, g.entry e = some entry → (g.frame e).Leads entry.val
  mapped : ∀ key e, g.inner key = some e → ∃ entry, g.entry e = some entry ∧
    entry.key = key ∧ ((g.frame e).InFlight ∨ g.frame e = .dropped)
  awaited : ∀ c e seen, (g.frame c).awaits = some (e, seen) →
    ∃ entry, g.entry e = some entry ∧ seen ≤ entry.notified

theorem wf_new : (new : Group K V).Wf where
  leads := by simp [new]
  mapped := by simp [new]
  awaited := by simp [new, Frame.awaits]

variable {g h : Group K V}

theorem Wf.entry_eq_none (hwf : g.Wf) {c : Nat} (hframe : ∀ val, ¬ (g.frame c).Leads val) :
    g.entry c = none := by
  cases hentry : g.entry c with
  | none => rfl
  | some entry => exact absurd (hwf.leads c entry hentry) (hframe _)

theorem Wf.not_mapped (hwf : g.Wf) {c : Nat} (hentry : g.entry c = none) (key : K) :
    g.inner key ≠ some c := by
  intro hinner
  obtain ⟨entry, hsome, _⟩ := hwf.mapped key c hinner
  simp [hentry] at hsome

theorem Wf.setFrame (hwf : g.Wf) (c : Nat) (frame : Frame K V)
    (hleads : ∀ entry, g.entry c = some entry → frame.Leads entry.val)
    (hmapped : ∀ key, g.inner key = some c → frame.InFlight ∨ frame = .dropped)
    (hawaits : ∀ e seen, frame.awaits = some (e, seen) →
      ∃ entry, g.entry e = some entry ∧ seen ≤ entry.notified) :
    (g.setFrame c frame).Wf where
  leads e entry hentry := by
    rw [setFrame_frame]
    split
    · next hec => exact hleads entry (hec ▸ hentry)
    · exact hwf.leads e entry hentry
  mapped key e hinner := by
    obtain ⟨entry, hentry, hkey, hflight⟩ := hwf.mapped key e hinner
    refine ⟨entry, hentry, hkey, ?_⟩
    rw [setFrame_frame]
    split
    · next hec => exact hmapped key (hec ▸ hinner)
    · exact hflight
  awaited d e seen hd := by
    rw [setFrame_frame] at hd
    split at hd
    · exact hawaits e seen hd
    · exact hwf.awaited d e seen hd

theorem Wf.setFrame_of_none (hwf : g.Wf) {c : Nat} (frame : Frame K V)
    (hframe : ∀ val, ¬ (g.frame c).Leads val)
    (hawaits : ∀ e seen, frame.awaits = some (e, seen) →
      ∃ entry, g.entry e = some entry ∧ seen ≤ entry.notified) :
    (g.setFrame c frame).Wf := by
  have hentry := hwf.entry_eq_none hframe
  refine hwf.setFrame c frame (fun entry h => ?_) (fun key h => ?_) hawaits
  · simp [hentry] at h
  · exact absurd h (hwf.not_mapped hentry key)

theorem Wf.setEntry_setFrame (hwf : g.Wf) (c : Nat) (entry : Entry K V) (frame : Frame K V)
    (hleads : frame.Leads entry.val) (hawaits : frame.awaits = none)
    (hmapped : ∀ key, g.inner key = some c → entry.key = key ∧ frame.InFlight)
    (hnotified : ∀ old, g.entry c = some old → old.notified ≤ entry.notified) :
    ((g.setEntry c entry).setFrame c frame).Wf where
  leads e new hnew := by
    rw [setFrame_entry, setEntry_entry] at hnew
    rw [setFrame_frame]
    by_cases hec : e = c
    · rw [if_pos hec, Option.some.injEq] at hnew
      rw [if_pos hec, ← hnew]
      exact hleads
    · rw [if_neg hec] at hnew
      rw [if_neg hec]
      exact hwf.leads e new hnew
  mapped key e hinner := by
    rw [setFrame_entry, setEntry_entry, setFrame_frame]
    by_cases hec : e = c
    · obtain ⟨hkey, hflight⟩ := hmapped key (hec ▸ hinner)
      exact ⟨entry, if_pos hec, hkey, .inl (by rwa [if_pos hec])⟩
    · rw [if_neg hec, if_neg hec]
      exact hwf.mapped key e hinner
  awaited d e seen hd := by
    rw [setFrame_frame] at hd
    split at hd
    · simp [hawaits] at hd
    · obtain ⟨old, hold, hseen⟩ := hwf.awaited d e seen hd
      rw [setFrame_entry, setEntry_entry]
      by_cases hec : e = c
      · exact ⟨entry, if_pos hec, Nat.le_trans hseen (hnotified old (hec ▸ hold))⟩
      · exact ⟨old, by rwa [if_neg hec], hseen⟩

variable [DecidableEq K]

theorem Wf.setInner (hwf : g.Wf) (key : K) (o : Option Nat)
    (ho : ∀ e, o = some e → ∃ entry, g.entry e = some entry ∧ entry.key = key ∧
      (g.frame e).InFlight) : (g.setInner key o).Wf where
  leads := hwf.leads
  mapped k e hinner := by
    rw [setInner_inner] at hinner
    split at hinner
    · next hk =>
      obtain ⟨entry, hentry, hkey, hflight⟩ := ho e hinner
      exact ⟨entry, hentry, hkey.trans hk.symm, .inl hflight⟩
    · exact hwf.mapped k e hinner
  awaited := hwf.awaited

theorem Moves.wf {event : Event K V} (hmoves : g.Moves event h) (hwf : g.Wf) : h.Wf := by
  cases hmoves with
  | @call c key hframe =>
    exact hwf.setFrame_of_none _ (by simp [hframe, Frame.Leads]) (by simp [Frame.awaits])
  | @hit c key e hframe hinner =>
    refine hwf.setFrame_of_none _ (by simp [hframe, Frame.Leads]) ?_
    intro d seen hd
    obtain ⟨rfl, rfl⟩ : e = d ∧ 0 = seen := by simpa [Frame.awaits] using hd
    obtain ⟨entry, hentry, _⟩ := hwf.mapped key e hinner
    exact ⟨entry, hentry, Nat.zero_le _⟩
  | @miss c key hframe hinner =>
    have hnone := hwf.entry_eq_none (c := c) (by simp [hframe, Frame.Leads])
    exact hwf.setEntry_setFrame c _ _ rfl rfl (fun k hk => absurd hk (hwf.not_mapped hnone k))
      (by simp [hnone])
  | @notified c e entry hframe hentry =>
    refine hwf.setFrame_of_none _ (by simp [hframe, Frame.Leads]) ?_
    intro d seen hd
    obtain ⟨rfl, rfl⟩ : e = d ∧ entry.notified = seen := by simpa [Frame.awaits] using hd
    exact ⟨entry, hentry, Nat.le_refl _⟩
  | @found c e seen entry val hframe hentry hval =>
    exact hwf.setFrame_of_none _ (by simp [hframe, Frame.Leads]) (by simp [Frame.awaits])
  | @wait c e seen entry hframe hentry hval =>
    refine hwf.setFrame_of_none _ (by simp [hframe, Frame.Leads]) ?_
    intro d n hd
    exact hwf.awaited c d n (by simpa [hframe, Frame.awaits] using hd)
  | @wake c e seen entry hframe hentry hseen =>
    refine hwf.setFrame_of_none _ (by simp [hframe, Frame.Leads]) ?_
    intro d n hd
    obtain ⟨rfl, rfl⟩ : e = d ∧ 0 = n := by simpa [Frame.awaits] using hd
    exact ⟨entry, hentry, Nat.zero_le _⟩
  | @insert c entry hframe hentry =>
    have hleads := hwf.leads c entry hentry
    rw [hframe] at hleads
    have hrunning := hwf.setFrame c .running (fun e he => ?_) (fun _ _ => .inl trivial)
      (by simp [Frame.awaits])
    · refine hrunning.setInner entry.key (some c) (fun e he => ?_)
      obtain rfl : c = e := by simpa using he
      exact ⟨entry, hentry, rfl, by simp [Frame.InFlight]⟩
    · obtain rfl : entry = e := by simpa [hentry] using he
      exact hleads
  | @finish c result hframe =>
    refine hwf.setFrame c _ (fun entry hentry => ?_) (fun _ _ => .inl trivial)
      (by simp [Frame.awaits])
    have hleads := hwf.leads c entry hentry
    rwa [hframe] at hleads
  | @store c result entry hframe hentry =>
    refine hwf.setEntry_setFrame c _ _ rfl rfl (fun key hkey => ?_) (by simp [hentry])
    obtain ⟨old, hold, hkey', _⟩ := hwf.mapped key c hkey
    obtain rfl : entry = old := by simpa [hentry] using hold
    exact ⟨hkey', trivial⟩
  | @notifyWaiters c result entry hframe hentry =>
    have hleads := hwf.leads c entry hentry
    rw [hframe] at hleads
    refine hwf.setEntry_setFrame c _ _ hleads rfl (fun key hkey => ?_) (by simp [hentry])
    obtain ⟨old, hold, hkey', _⟩ := hwf.mapped key c hkey
    obtain rfl : entry = old := by simpa [hentry] using hold
    exact ⟨hkey', trivial⟩
  | @remove c result entry hframe hentry =>
    have hleads := hwf.leads c entry hentry
    rw [hframe] at hleads
    refine (hwf.setInner entry.key none (by simp)).setFrame c _ (fun e he => ?_)
      (fun key hkey => ?_) (by simp [Frame.awaits])
    · obtain rfl : entry = e := by simpa [hentry] using he
      exact ⟨hleads, rfl⟩
    · rw [setInner_inner] at hkey
      split at hkey
      · simp at hkey
      · next hne =>
        obtain ⟨old, hold, hkey', _⟩ := hwf.mapped key c hkey
        obtain rfl : entry = old := by simpa [hentry] using hold
        exact absurd hkey'.symm hne
  | @forget key => exact hwf.setInner key none (by simp)
  | @dropLookup c key hframe =>
    exact hwf.setFrame_of_none _ (by simp [hframe, Frame.Leads]) (by simp [Frame.awaits])
  | @dropWaiting c e seen hframe =>
    exact hwf.setFrame_of_none _ (by simp [hframe, Frame.Leads]) (by simp [Frame.awaits])
  | @dropRunning c hframe =>
    refine hwf.setFrame c _ (fun entry hentry => ?_) (fun _ _ => .inr rfl)
      (by simp [Frame.awaits])
    have hleads := hwf.leads c entry hentry
    rwa [hframe] at hleads

theorem wf_of_exec {events : List (Event K V)} (hrun : exec step new events = some g) : g.Wf :=
  run_invariant wf_new (fun _ _ _ hwf hstep => (moves_of_step hstep).wf hwf) hrun

end Group

end Stdx.Singleflight
