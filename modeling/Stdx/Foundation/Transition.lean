import Mathlib.Data.List.Induction

/-!
# Runs of a transition function

`step s l` is the state after the event `l`, or `none` where the event is not
possible.  A run takes a list of events one by one.  `Throughout` asks for a
condition on every event of a run and the state it meets; `run_rule` is the
induction every invariant of a run is proved by.
-/

namespace Stdx.Foundation

variable {σ ℓ : Type*}

@[grind =]
def exec (step : σ → ℓ → Option σ) : σ → List ℓ → Option σ
  | s, [] => some s
  | s, l :: ls => (step s l).bind fun t => exec step t ls

/-- Every event of the run meets the condition in the state it finds. -/
def Throughout (step : σ → ℓ → Option σ) (cond : σ → ℓ → Prop) (s : σ) (ls : List ℓ) : Prop :=
  ∀ pre l post t, ls = pre ++ l :: post → exec step s pre = some t → cond t l

variable {f : σ → ℓ → Option σ} {C : σ → ℓ → Prop} {s t u : σ} {l : ℓ} {ls ms : List ℓ}

@[simp]
theorem exec_nil : exec f s [] = some s :=
  rfl

theorem exec_append : exec f s (ls ++ ms) = (exec f s ls).bind fun t => exec f t ms := by
  induction ls generalizing s with
  | nil => rfl
  | cons l ls ih =>
    simp only [List.cons_append, exec]
    cases f s l with
    | none => rfl
    | some t => exact ih

theorem exec_concat : exec f s (ls ++ [l]) = (exec f s ls).bind fun t => f t l := by
  rw [exec_append]
  congr 1
  funext t
  simp [exec]

theorem exec_concat_eq_some :
    exec f s (ls ++ [l]) = some u ↔ ∃ t, exec f s ls = some t ∧ f t l = some u := by
  rw [exec_concat, Option.bind_eq_some_iff]

theorem exec_split {pre post : List ℓ} (h : exec f s (pre ++ l :: post) = some u) :
    ∃ t t', exec f s pre = some t ∧ f t l = some t' ∧ exec f t' post = some u := by
  rw [exec_append] at h
  obtain ⟨t, hpre, hrest⟩ := Option.bind_eq_some_iff.mp h
  obtain ⟨t', hl, hpost⟩ := Option.bind_eq_some_iff.mp hrest
  exact ⟨t, t', hpre, hl, hpost⟩

theorem Throughout.init (h : Throughout f C s (ls ++ ms)) : Throughout f C s ls :=
  fun pre l post t hls hpre => h pre l (post ++ ms) t (by simp [hls]) hpre

theorem Throughout.last (h : Throughout f C s (ls ++ [l])) (hrun : exec f s ls = some t) : C t l :=
  h ls l [] t rfl hrun

theorem throughout_nil : Throughout f C s [] :=
  fun pre l post _ h => by simp at h

theorem throughout_cons (hfirst : C s l) (hrest : ∀ t, f s l = some t → Throughout f C t ls) :
    Throughout f C s (l :: ls) := by
  intro pre k post t hls hpre
  cases pre with
  | nil =>
    obtain ⟨rfl, -⟩ := List.cons.inj hls
    obtain rfl := Option.some.inj hpre
    exact hfirst
  | cons first pre =>
    obtain ⟨rfl, rfl⟩ := List.cons.inj hls
    obtain ⟨u, hu, hpre'⟩ := Option.bind_eq_some_iff.mp hpre
    exact hrest u hu pre k post t rfl hpre'

theorem throughout_concat (h : Throughout f C s ls)
    (hlast : ∀ t, exec f s ls = some t → C t l) : Throughout f C s (ls ++ [l]) := by
  intro pre k post t hls hpre
  rcases List.eq_nil_or_concat post with rfl | ⟨post', last, rfl⟩
  · obtain ⟨rfl, hl⟩ := List.append_inj' hls rfl
    obtain rfl : l = k := by simpa using hl
    exact hlast t hpre
  · have hls' : ls ++ [l] = (pre ++ k :: post') ++ [last] := by simpa using hls
    exact h pre k post' t (List.append_inj' hls' rfl).1 hpre

/-- What holds at the start and is carried on by every event, given the events
before it, holds at the end of the run. -/
theorem run_rule {P : List ℓ → σ → Prop} (hstart : P [] s)
    (hstep : ∀ ls t l u, exec f s ls = some t → P ls t → C t l → f t l = some u →
      P (ls ++ [l]) u)
    (hcond : Throughout f C s ls) (hrun : exec f s ls = some t) : P ls t := by
  induction ls using List.reverseRecOn generalizing t with
  | nil =>
    obtain rfl : s = t := by simpa using hrun
    exact hstart
  | append_singleton ls l ih =>
    obtain ⟨mid, hmid, hl⟩ := exec_concat_eq_some.mp hrun
    exact hstep ls mid l t hmid (ih hcond.init hmid) (hcond.last hmid) hl

theorem run_invariant {P : σ → Prop} (hstart : P s)
    (hstep : ∀ t l u, P t → f t l = some u → P u) (hrun : exec f s ls = some t) : P t :=
  run_rule (C := fun _ _ => True) (P := fun _ => P) hstart
    (fun _ t l u _ ht _ h => hstep t l u ht h) (fun _ _ _ _ _ _ => trivial) hrun

end Stdx.Foundation
