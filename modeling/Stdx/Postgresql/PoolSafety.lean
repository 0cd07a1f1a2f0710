import Mathlib.Algebra.Order.BigOperators.Group.List
import Mathlib.Algebra.Order.Ring.Nat
import Stdx.Postgresql.Pool

/-!
# What holds of the pool in every state

Every step of a task keeps the number of permits and the places of the
connections; from that, over every interleaving, the pool never holds more
connections than its size, and a connection is in one place only.  A connection
returns to the idle list when its checkout is dropped; a row stream taken
through `Deref` does not hold the checkout.
-/

namespace Stdx.Postgresql

open Stdx.Foundation

def Site.spare : Site → Nat
  | .first | .recheck => 0
  | .acquired => 1

def Task.conn? : Task → Option Connection
  | .dead _ conn | .surplus conn | .checkedOut conn _ _ | .returning conn | .pushing conn
  | .discarding conn | .fillPush _ conn => some conn
  | _ => none

def Task.spare : Task → Nat
  | .pop site | .dead site _ => site.spare
  | .deadPermit site => site.spare + 1
  | .surplus _ | .connecting | .fillConnect _ => 1
  | _ => 0

def Task.conns (task : Task) : List Nat :=
  (task.conn?.map Connection.id).toList

def Task.permits (task : Task) : Nat :=
  task.conns.length + task.spare

def Task.AfterFlag : Task → Prop
  | .closeSemaphore | .closeIdle | .closeNotify | .closed => True
  | _ => False

def Task.AfterClear : Task → Prop
  | .closeNotify | .closed => True
  | _ => False

def PoolInner.idleIds (p : PoolInner) : List Nat :=
  p.idle.map fun entry => entry.conn.id

/-! ## What a step of a task can do -/

inductive TaskStep (cfg : PoolConfig) (p : PoolInner) :
    Task → Action → Task → PoolInner → Prop where
  | start : TaskStep cfg p .get .run (if p.closed then .finished else .pop .first) p
  | pop (site : Site) : TaskStep cfg p (.pop site) .run (popIdle p site).1 (popIdle p site).2
  | dropDead (site : Site) (conn : Connection) :
    TaskStep cfg p (.dead site conn) .run (.deadPermit site) p
  | releaseDead (site : Site) :
    TaskStep cfg p (.deadPermit site) .run (.pop site) p.releasePermit
  | enable : TaskStep cfg p .notified .run .recheck p
  | recheck : TaskStep cfg p .recheck .run (if p.closed then .finished else .pop .recheck) p
  | wake : TaskStep cfg p .select .wake (.pop .first) p
  | giveUp (action : Action) : TaskStep cfg p .select action .finished p
  | acquire (hpermits : p.permits ≠ 0) :
    TaskStep cfg p .select .acquire (.pop .acquired) p.acquirePermit
  | surplus (conn : Connection) :
    TaskStep cfg p (.surplus conn) .run (.checkedOut conn .handle 0) p.releasePermit
  | connect : TaskStep cfg p .connecting .connected (.checkedOut ⟨p.nextId, p.now⟩ .handle 0)
      { p with nextId := p.nextId + 1 }
  | giveBack (action : Action) : TaskStep cfg p .connecting action .finished p.releasePermit
  | execute (conn : Connection) (streams : Nat) :
    TaskStep cfg p (.checkedOut conn .handle streams) .execute (.checkedOut conn .handle streams)
      (p.enqueue conn.id .other)
  | openStream (conn : Connection) (streams : Nat) :
    TaskStep cfg p (.checkedOut conn .handle streams) .openStream
      (.checkedOut conn .handle (streams + 1)) (p.enqueue conn.id .other)
  | borrowStream (conn : Connection) (streams : Nat) :
    TaskStep cfg p (.checkedOut conn .handle streams) .borrowStream
      (.checkedOut conn .handle streams)
      { p.enqueue conn.id .other with borrowed := conn.id :: p.borrowed }
  | dropHandle (conn : Connection) (streams : Nat) :
    TaskStep cfg p (.checkedOut conn .handle streams) .dropHandle (release conn .released streams) p
  | begin (conn : Connection) (streams : Nat) :
    TaskStep cfg p (.checkedOut conn .handle streams) .begin
      (.checkedOut conn (.beginning (p.ticket conn.id)) streams) (p.enqueue conn.id .begin)
  | begun (conn : Connection) (ticket streams : Nat) (hreply : p.reply conn.id ticket = some true) :
    TaskStep cfg p (.checkedOut conn (.beginning ticket) streams) .run
      (.checkedOut conn .transaction streams) p
  | beginFailed (conn : Connection) (ticket streams : Nat)
      (hreply : p.reply conn.id ticket = some false) :
    TaskStep cfg p (.checkedOut conn (.beginning ticket) streams) .run
      (release conn .released streams) p
  | cancelBegin (conn : Connection) (ticket streams : Nat) :
    TaskStep cfg p (.checkedOut conn (.beginning ticket) streams) .cancel
      (release conn .released streams) p
  | executeInside (conn : Connection) (streams : Nat) :
    TaskStep cfg p (.checkedOut conn .transaction streams) .execute
      (.checkedOut conn .transaction streams) (p.enqueue conn.id .other)
  | openStreamInside (conn : Connection) (streams : Nat) :
    TaskStep cfg p (.checkedOut conn .transaction streams) .openStream
      (.checkedOut conn .transaction (streams + 1)) (p.enqueue conn.id .other)
  | commit (conn : Connection) (streams : Nat) :
    TaskStep cfg p (.checkedOut conn .transaction streams) .commit
      (.checkedOut conn (.ending (p.ticket conn.id)) streams) (p.enqueue conn.id .commit)
  | rollback (conn : Connection) (streams : Nat) :
    TaskStep cfg p (.checkedOut conn .transaction streams) .rollback
      (.checkedOut conn (.ending (p.ticket conn.id)) streams) (p.enqueue conn.id .rollback)
  | dropTransaction (conn : Connection) (streams : Nat) :
    TaskStep cfg p (.checkedOut conn .transaction streams) .dropHandle
      (release conn .released streams) (p.enqueue conn.id .rollback)
  | ended (conn : Connection) (ticket streams : Nat) :
    TaskStep cfg p (.checkedOut conn (.ending ticket) streams) .run
      (release conn .released streams) p
  | cancelEnd (conn : Connection) (ticket streams : Nat) :
    TaskStep cfg p (.checkedOut conn (.ending ticket) streams) .cancel
      (release conn .released streams) (p.enqueue conn.id .rollback)
  | closeStream (conn : Connection) (holder : Holder) (streams : Nat) :
    TaskStep cfg p (.checkedOut conn holder (streams + 1)) .closeStream
      (release conn holder streams) p
  | checkConn (conn : Connection) : TaskStep cfg p (.returning conn) .run
      (if p.closed || p.broken conn.id then .discarding conn else .pushing conn) p
  | refusePush (conn : Connection) : TaskStep cfg p (.pushing conn) .run (.discarding conn) p
  | push (conn : Connection) (hopen : p.closed = false) :
    TaskStep cfg p (.pushing conn) .run .notifyOne (p.push conn)
  | discard (conn : Connection) :
    TaskStep cfg p (.discarding conn) .run (.dropConn conn) p.releasePermit
  | dropConn (conn : Connection) : TaskStep cfg p (.dropConn conn) .run .finished p
  | notifyOne : TaskStep cfg p .notifyOne .run .finished p
  | setFlag : TaskStep cfg p .closeFlag .run .closeSemaphore { p with closed := true }
  | closeSemaphore :
    TaskStep cfg p .closeSemaphore .run .closeIdle { p with semaphoreClosed := true }
  | clearIdle : TaskStep cfg p .closeIdle .run .closeNotify
      { p with idle := [], permits := p.permits + p.idle.length }
  | notifyAll : TaskStep cfg p .closeNotify .run .closed p
  | reap : TaskStep cfg p .reap .run (if p.closed then .finished else .reapIdle p.now) p
  | reapIdle (now : Nat) : TaskStep cfg p (.reapIdle now) .run .reap { p with
      idle := (reapIdle cfg now p.idle).1
      permits := p.permits + (reapIdle cfg now p.idle).2.length }
  | filled (action : Action) (count : Nat) : TaskStep cfg p (.fill count) action .reap p
  | fillAcquire (count : Nat) (hpermits : p.permits ≠ 0) :
    TaskStep cfg p (.fill (count + 1)) .acquire (.fillConnect count) p.acquirePermit
  | fillConnect (count : Nat) : TaskStep cfg p (.fillConnect count) .connected
      (.fillPush count ⟨p.nextId, p.now⟩) { p with nextId := p.nextId + 1 }
  | fillRefused (count : Nat) : TaskStep cfg p (.fillConnect count) .refused .reap p.releasePermit
  | fillDiscard (count : Nat) (conn : Connection) :
    TaskStep cfg p (.fillPush count conn) .run (.fill count) p.releasePermit
  | fillPush (count : Nat) (conn : Connection) (hopen : p.closed = false) :
    TaskStep cfg p (.fillPush count conn) .run (.fill count) (p.push conn)

variable {cfg : PoolConfig} {p p' : PoolInner} {task task' : Task} {action : Action}
  {conn : Connection} {holder : Holder} {streams : Nat}

theorem taskStep_of_stepGet (h : stepGet p task action = some (task', p')) :
    TaskStep cfg p task action task' p' := by
  revert h
  fun_cases stepGet p task action
  case case2 site =>
    intro h
    obtain ⟨rfl, rfl⟩ := Prod.ext_iff.mp (Option.some.inj h)
    exact .pop site
  case case11 | case17 => simp
  case case12 hopen hpermits =>
    rintro ⟨⟩
    exact .acquire hpermits
  all_goals
    rintro ⟨⟩
    constructor

theorem taskStep_of_stepHolder (h : stepHolder p conn streams holder action = some (task', p')) :
    TaskStep cfg p (.checkedOut conn holder streams) action task' p' := by
  revert h
  fun_cases stepHolder p conn streams holder action
  case case6 ticket =>
    intro h
    obtain ⟨ok, hreply, heq⟩ := Option.map_eq_some_iff.mp h
    obtain ⟨rfl, rfl⟩ := Prod.ext_iff.mp heq
    cases ok with
    | true => exact .begun conn ticket streams hreply
    | false => exact .beginFailed conn ticket streams hreply
  case case13 ticket =>
    intro h
    obtain ⟨ok, -, heq⟩ := Option.map_eq_some_iff.mp h
    obtain ⟨rfl, rfl⟩ := Prod.ext_iff.mp heq
    exact .ended conn ticket streams
  case case15 => simp
  all_goals
    rintro ⟨⟩
    constructor

theorem taskStep_of_closeStream (h : closeStream conn holder streams = some task') :
    TaskStep cfg p (.checkedOut conn holder streams) .closeStream task' p := by
  cases streams with
  | zero => simp [closeStream] at h
  | succ streams =>
    obtain rfl : release conn holder streams = task' := by simpa [closeStream] using h
    exact .closeStream conn holder streams

theorem taskStep_of_stepReturn (h : stepReturn p task = some (task', p')) :
    TaskStep cfg p task .run task' p' := by
  revert h
  fun_cases stepReturn p task
  case case2 conn =>
    cases hclosed : p.closed with
    | true =>
      rintro ⟨⟩
      exact .refusePush conn
    | false =>
      rintro ⟨⟩
      exact .push conn hclosed
  case case6 => simp
  all_goals
    rintro ⟨⟩
    constructor

theorem taskStep_of_stepClose (h : stepClose p task = some (task', p')) :
    TaskStep cfg p task .run task' p' := by
  revert h
  fun_cases stepClose p task
  case case5 => simp
  all_goals
    rintro ⟨⟩
    constructor

theorem taskStep_of_stepReap (h : stepReap cfg p task = some (task', p')) :
    TaskStep cfg p task .run task' p' := by
  revert h
  fun_cases stepReap cfg p task
  case case3 => simp
  all_goals
    rintro ⟨⟩
    constructor

theorem taskStep_of_stepFill (h : stepFill p task action = some (task', p')) :
    TaskStep cfg p task action task' p' := by
  revert h
  fun_cases stepFill p task action
  case case3 | case8 => simp
  case case4 count hopen hpermits =>
    rintro ⟨⟩
    exact .fillAcquire count hpermits
  case case7 count conn =>
    cases hclosed : p.closed with
    | true =>
      rintro ⟨⟩
      exact .fillDiscard count conn
    | false =>
      rintro ⟨⟩
      exact .fillPush count conn hclosed
  all_goals
    rintro ⟨⟩
    constructor

theorem taskStep_of_stepTask (h : stepTask cfg p task action = some (task', p')) :
    TaskStep cfg p task action task' p' := by
  revert h
  fun_cases stepTask cfg p task action
  case case1 conn holder streams =>
    intro h
    obtain ⟨task, hclose, heq⟩ := Option.map_eq_some_iff.mp h
    obtain ⟨rfl, rfl⟩ := Prod.ext_iff.mp heq
    exact taskStep_of_closeStream hclose
  case case2 => exact taskStep_of_stepHolder
  case case3 => exact taskStep_of_stepFill
  case case4 => exact taskStep_of_stepFill
  case case5 => exact taskStep_of_stepFill
  case case6 =>
    intro h
    obtain h | ⟨-, h⟩ := Option.or_eq_some_iff.mp h
    · exact taskStep_of_stepGet h
    · split at h
      · next hrun =>
        rw [hrun]
        obtain h | ⟨-, h⟩ := Option.or_eq_some_iff.mp h
        · exact taskStep_of_stepReturn h
        · obtain h | ⟨-, h⟩ := Option.or_eq_some_iff.mp h
          · exact taskStep_of_stepClose h
          · exact taskStep_of_stepReap h
      · simp at h

/-! ## What a step keeps -/

structure Keeps (p : PoolInner) (task : Task) (p' : PoolInner) (task' : Task) : Prop where
  permits : p'.permits + p'.idle.length + task'.permits =
    p.permits + p.idle.length + task.permits
  place : ∀ c, p'.idleIds.count c + task'.conns.count c ≤
      p.idleIds.count c + task.conns.count c ∨
    c = p.nextId ∧ p'.nextId = c + 1 ∧ p'.idleIds = p.idleIds ∧ task'.conns = [c]
  nextId : p.nextId ≤ p'.nextId
  closed : p.closed = true → p'.closed = true
  emptied : p.closed = true → p.idle = [] → p'.idle = []
  flag : task'.AfterFlag → p'.closed = true ∨ task.AfterFlag
  clear : task'.AfterClear → p'.idle = [] ∧ task.AfterFlag ∨ task.AfterClear

theorem Task.AfterClear.flag (h : task.AfterClear) : task.AfterFlag := by
  cases task <;> simp_all [Task.AfterClear, Task.AfterFlag]

theorem Keeps.of_place
    (hpermits : p'.permits + p'.idle.length + task'.permits =
      p.permits + p.idle.length + task.permits)
    (hplace : ∀ c, p'.idleIds.count c + task'.conns.count c ≤
      p.idleIds.count c + task.conns.count c)
    (hnext : p'.nextId = p.nextId) (hclosed : p'.closed = p.closed)
    (hempty : p.closed = true → p.idle = [] → p'.idle = []) (htask : ¬ task'.AfterFlag) :
    Keeps p task p' task' where
  permits := hpermits
  place c := .inl (hplace c)
  nextId := Nat.le_of_eq hnext.symm
  closed h := by rw [hclosed, h]
  emptied := hempty
  flag h := absurd h htask
  clear h := absurd h.flag htask

theorem Keeps.of_idle (hidle : p'.idle = p.idle)
    (hpermits : p'.permits + task'.permits = p.permits + task.permits)
    (hconns : task'.conns = task.conns ∨ task'.conns = []) (hnext : p'.nextId = p.nextId)
    (hclosed : p'.closed = p.closed) (htask : ¬ task'.AfterFlag) : Keeps p task p' task' := by
  refine .of_place ?_ (fun c => ?_) hnext hclosed (fun _ h => by rw [hidle, h]) htask
  · rw [hidle]
    omega
  · rw [PoolInner.idleIds, PoolInner.idleIds, hidle]
    obtain h | h := hconns <;> simp [h]

theorem Keeps.quiet (hidle : p'.idle = p.idle) (hpermits : p'.permits = p.permits)
    (hnext : p'.nextId = p.nextId) (hclosed : p'.closed = p.closed)
    (hconns : task'.conns = task.conns) (hspare : task'.spare = task.spare)
    (htask : ¬ task'.AfterFlag) : Keeps p task p' task' :=
  .of_idle hidle (by simp only [Task.permits, hconns, hspare, hpermits]) (.inl hconns) hnext
    hclosed htask

/-- The new connection takes the next identifier. -/
theorem Keeps.connected (hconns : task.conns = []) (hspare : task.spare = 1)
    (hconns' : task'.conns = [p.nextId]) (hspare' : task'.spare = 0) (htask : ¬ task'.AfterFlag) :
    Keeps p task { p with nextId := p.nextId + 1 } task' where
  permits := by simp [Task.permits, hconns, hspare, hconns', hspare']
  place c := by
    by_cases hc : c = p.nextId
    · exact .inr ⟨hc, by rw [hc], rfl, by rw [hc, hconns']⟩
    · left
      have hfresh : task'.conns.count c = 0 :=
        List.count_eq_zero.mpr (by simpa [hconns'] using hc)
      rw [hfresh]
      exact Nat.le_add_right _ _
  nextId := Nat.le_succ _
  closed := id
  emptied _ h := h
  flag h := absurd h htask
  clear h := absurd h.flag htask

@[simp]
theorem conns_release : (release conn holder streams).conns = [conn.id] := by
  unfold release
  split <;> rfl

@[simp]
theorem spare_release : (release conn holder streams).spare = 0 := by
  unfold release
  split <;> rfl

theorem not_afterFlag_release : ¬ (release conn holder streams).AfterFlag := by
  unfold release
  split <;> simp [Task.AfterFlag]

theorem idle_of_getLast? {idle : List IdleConn} {entry : IdleConn}
    (h : idle.getLast? = some entry) : idle = idle.dropLast ++ [entry] :=
  (List.dropLast_append_getLast? entry h).symm

theorem keeps_popIdle (site : Site) :
    Keeps p (.pop site) (popIdle p site).2 (popIdle p site).1 := by
  cases hlast : p.idle.getLast? with
  | none =>
    simp only [popIdle, hlast]
    refine .of_idle rfl ?_ (.inr ?_) rfl rfl ?_ <;> cases site <;>
      simp [Site.empty, Task.permits, Task.conns, Task.conn?, Task.spare, Site.spare,
        Task.AfterFlag]
  | some entry =>
    have hidle := idle_of_getLast? hlast
    simp only [popIdle, hlast]
    generalize htask : (if p.broken entry.conn.id then Task.dead site entry.conn
        else site.found entry.conn) = task
    obtain ⟨hconns, hspare, hflag⟩ : task.conns = [entry.conn.id] ∧ task.spare = site.spare ∧
        ¬ task.AfterFlag := by
      rw [← htask]
      split <;> cases site <;> simp [Site.found, Task.conns, Task.conn?, Task.spare, Site.spare,
        Task.AfterFlag]
    refine .of_place ?_ (fun c => ?_) rfl rfl (fun _ h => by simp [h]) hflag
    · have hlength := congrArg List.length hidle
      simp only [List.length_append, List.length_singleton] at hlength
      simp only [Task.permits, hconns, hspare, List.length_singleton]
      change _ = p.permits + p.idle.length + (0 + site.spare)
      omega
    · have hcount := congrArg (fun l => (l.map fun e : IdleConn => e.conn.id).count c) hidle
      simp only [List.map_append, List.count_append, List.map_singleton] at hcount
      change (p.idle.dropLast.map _).count c + task.conns.count c ≤ (p.idle.map _).count c + 0
      rw [hconns]
      omega

theorem keeps_push (htask : task.conn? = some conn) (hspare : task.spare = 0)
    (hconns : task'.conns = []) (hspare' : task'.spare = 0) (hflag : ¬ task'.AfterFlag)
    (hopen : p.closed = false) : Keeps p task (p.push conn) task' := by
  have htask' : task.conns = [conn.id] := by simp [Task.conns, htask]
  refine .of_place ?_ (fun c => ?_) rfl rfl (fun h => by simp [hopen] at h) hflag
  · simp [PoolInner.push, Task.permits, htask', hconns, hspare, hspare']
    omega
  · simp [PoolInner.push, PoolInner.idleIds, htask', hconns]

theorem keepAtLeast_perm (min : Nat) (keep expired : List IdleConn) :
    ((keepAtLeast min keep expired).1 ++ (keepAtLeast min keep expired).2).Perm
      (keep ++ expired) := by
  induction expired generalizing keep with
  | nil => exact .refl _
  | cons entry expired ih =>
    simp only [keepAtLeast]
    split
    · exact (ih (keep ++ [entry])).trans (by simp)
    · exact .refl _

theorem reapIdle_perm (now : Nat) (idle : List IdleConn) :
    ((reapIdle cfg now idle).1 ++ (reapIdle cfg now idle).2).Perm idle := by
  refine (keepAtLeast_perm _ _ _).trans ?_
  refine (List.Perm.append_left _ (List.reverse_perm _)).trans ?_
  exact List.perm_append_comm.trans (List.filter_append_perm _ idle)

theorem TaskStep.keeps (h : TaskStep cfg p task action task' p') : Keeps p task p' task' := by
  cases h with
  | start | recheck | checkConn | reap =>
    split <;> exact .quiet rfl rfl rfl rfl rfl rfl (by simp [Task.AfterFlag])
  | pop site => exact keeps_popIdle site
  | dropDead site conn =>
    exact .of_idle rfl (by simp [Task.permits, Task.conns, Task.conn?, Task.spare, Nat.add_comm])
      (.inr rfl) rfl rfl (by simp [Task.AfterFlag])
  | releaseDead site =>
    refine .of_idle rfl ?_ (.inl rfl) rfl rfl (by simp [Task.AfterFlag])
    simp only [PoolInner.releasePermit, Task.permits, Task.conns, Task.conn?, Task.spare,
      Option.map_none, Option.toList_none, List.length_nil]
    omega
  | acquire hpermits =>
    refine .of_idle rfl ?_ (.inl rfl) rfl rfl (by simp [Task.AfterFlag])
    change p.permits - 1 + 1 = p.permits + 0
    omega
  | fillAcquire count hpermits =>
    refine .of_idle rfl ?_ (.inl rfl) rfl rfl (by simp [Task.AfterFlag])
    change p.permits - 1 + 1 = p.permits + 0
    omega
  | surplus | giveBack | fillRefused =>
    exact .of_idle rfl rfl (.inl rfl) rfl rfl (by simp [Task.AfterFlag])
  | discard | fillDiscard =>
    exact .of_idle rfl rfl (.inr rfl) rfl rfl (by simp [Task.AfterFlag])
  | connect | fillConnect => exact .connected rfl rfl rfl rfl (by simp [Task.AfterFlag])
  | dropHandle | beginFailed | cancelBegin | dropTransaction | ended | cancelEnd | closeStream =>
    exact .quiet rfl rfl rfl rfl conns_release spare_release not_afterFlag_release
  | push conn hopen => exact keeps_push rfl rfl rfl rfl (by simp [Task.AfterFlag]) hopen
  | fillPush count conn hopen => exact keeps_push rfl rfl rfl rfl (by simp [Task.AfterFlag]) hopen
  | setFlag =>
    exact {
      permits := rfl
      place := fun _ => .inl (Nat.le_refl _)
      nextId := Nat.le_refl _
      closed := fun _ => rfl
      emptied := fun _ h => h
      flag := fun _ => .inl rfl
      clear := fun h => h.elim }
  | closeSemaphore =>
    exact {
      permits := rfl
      place := fun _ => .inl (Nat.le_refl _)
      nextId := Nat.le_refl _
      closed := id
      emptied := fun _ h => h
      flag := fun _ => .inr trivial
      clear := fun h => h.elim }
  | clearIdle =>
    exact {
      permits := rfl
      place := fun _ => .inl (Nat.zero_le _)
      nextId := Nat.le_refl _
      closed := id
      emptied := fun _ _ => rfl
      flag := fun _ => .inr trivial
      clear := fun _ => .inl ⟨rfl, trivial⟩ }
  | notifyAll =>
    exact {
      permits := rfl
      place := fun _ => .inl (Nat.le_refl _)
      nextId := Nat.le_refl _
      closed := id
      emptied := fun _ h => h
      flag := fun _ => .inr trivial
      clear := fun _ => .inr trivial }
  | reapIdle now =>
    have hperm := @reapIdle_perm cfg now p.idle
    refine .of_place ?_ (fun c => ?_) rfl rfl (fun _ hidle => ?_) (by simp [Task.AfterFlag])
    · have hlength := hperm.length_eq
      rw [List.length_append] at hlength
      simp only [Task.permits, Task.conns, Task.conn?, Task.spare]
      omega
    · have hcount := (hperm.map fun e : IdleConn => e.conn.id).count_eq c
      rw [List.map_append, List.count_append] at hcount
      simp only [PoolInner.idleIds, Task.conns, Task.conn?]
      omega
    · have hnil := hperm.length_eq
      rw [List.length_append, hidle, List.length_nil] at hnil
      simp only [hidle]
      exact List.eq_nil_of_length_eq_zero (by omega)
  | _ => exact .quiet rfl rfl rfl rfl rfl rfl (by simp [Task.AfterFlag])

/-! ## Streams taken through `Deref` -/

def Task.stores? : Task → Option Connection
  | .pushing conn | .fillPush _ conn => some conn
  | _ => none

/-- How a step of a task changes the idle list and the borrowed streams. -/
def Stores (p : PoolInner) (task : Task) (p' : PoolInner) : Prop :=
  (p'.idle ⊆ p.idle ∧ p'.borrowed = p.borrowed) ∨
    (∃ conn, task.stores? = some conn ∧ p.closed = false ∧ p' = p.push conn) ∨
    ∃ c ∈ task.conns, p'.idle = p.idle ∧ p'.borrowed = c :: p.borrowed

theorem Stores.quiet (hidle : p'.idle = p.idle) (hborrowed : p'.borrowed = p.borrowed) :
    Stores p task p' :=
  .inl ⟨fun _ h => hidle ▸ h, hborrowed⟩

theorem TaskStep.stores (h : TaskStep cfg p task action task' p') : Stores p task p' := by
  cases h with
  | pop site =>
    unfold popIdle
    split
    · exact .quiet rfl rfl
    · exact .inl ⟨List.dropLast_subset _, rfl⟩
  | borrowStream conn streams =>
    exact .inr (.inr ⟨conn.id, by simp [Task.conns, Task.conn?], rfl, rfl⟩)
  | push conn hopen | fillPush count conn hopen => exact .inr (.inl ⟨conn, rfl, hopen, rfl⟩)
  | clearIdle => exact .inl ⟨List.nil_subset _, rfl⟩
  | reapIdle now =>
    exact .inl ⟨fun entry h => (reapIdle_perm now p.idle).subset (List.mem_append_left _ h), rfl⟩
  | _ => exact .quiet rfl rfl

/-! ## The whole pool -/

theorem sum_map_set {α : Type*} (w : α → Nat) {xs : List α} {i : Nat} {x y : α}
    (hx : xs[i]? = some x) : ((xs.set i y).map w).sum + w x = (xs.map w).sum + w y := by
  induction xs generalizing i with
  | nil => simp at hx
  | cons z zs ih =>
    cases i with
    | zero =>
      obtain rfl : z = x := by simpa using hx
      simp only [List.set_cons_zero, List.map_cons, List.sum_cons]
      omega
    | succ i =>
      have hrest := ih (i := i) (by simpa using hx)
      simp only [List.set_cons_succ, List.map_cons, List.sum_cons]
      omega

namespace Pool

def pooled (g : Pool) : Nat :=
  g.inner.idle.length + (g.tasks.map fun task => task.conns.length).sum

def permits (g : Pool) : Nat :=
  g.inner.permits + g.inner.idle.length + (g.tasks.map Task.permits).sum

def places (g : Pool) (c : Nat) : Nat :=
  g.inner.idleIds.count c + (g.tasks.map fun task => task.conns.count c).sum

structure Inv (cfg : PoolConfig) (g : Pool) : Prop where
  permits : g.permits = cfg.poolSize
  places : ∀ c, g.places c ≤ 1
  fresh : ∀ c, g.inner.nextId ≤ c → g.places c = 0
  flag : ∀ task ∈ g.tasks, task.AfterFlag → g.inner.closed = true
  clear : ∀ task ∈ g.tasks, task.AfterClear → g.inner.idle = []

theorem inv_fromConfig : Inv cfg (fromConfig cfg) where
  permits := rfl
  places := fun _ => Nat.zero_le _
  fresh := fun _ _ => rfl
  flag := by simp [fromConfig, Task.AfterFlag]
  clear := by simp [fromConfig, Task.AfterClear]

variable {g h : Pool} {event : Event}

theorem Inv.setTask (hinv : Inv cfg g) {i : Nat} (htask : g.tasks[i]? = some task)
    (hkeeps : Keeps g.inner task p' task') : Inv cfg ⟨p', g.tasks.set i task'⟩ where
  permits := by
    have hsum := sum_map_set Task.permits htask (y := task')
    have hbefore := hinv.permits
    have hstep := hkeeps.permits
    simp only [Pool.permits] at hbefore ⊢
    omega
  places c := by
    have hsum := sum_map_set (fun task => task.conns.count c) htask (y := task')
    have hbefore := hinv.places c
    simp only [Pool.places] at hbefore ⊢
    obtain hplace | ⟨hc, -, hidle, hconns⟩ := hkeeps.place c
    · omega
    · have hfresh := hinv.fresh c (Nat.le_of_eq hc.symm)
      simp only [Pool.places] at hfresh
      simp only [hconns, List.count_singleton_self] at hsum
      rw [hidle]
      omega
  fresh c hc := by
    have hsum := sum_map_set (fun task => task.conns.count c) htask (y := task')
    have hbefore := hinv.fresh c (Nat.le_trans hkeeps.nextId hc)
    simp only [Pool.places] at hbefore ⊢
    obtain hplace | ⟨-, hnext, -, -⟩ := hkeeps.place c
    · omega
    · change p'.nextId ≤ c at hc
      omega
  flag t ht hflag := by
    obtain ht | rfl := List.mem_or_eq_of_mem_set ht
    · exact hkeeps.closed (hinv.flag t ht hflag)
    · obtain hclosed | hbefore := hkeeps.flag hflag
      · exact hclosed
      · exact hkeeps.closed (hinv.flag task (List.mem_of_getElem? htask) hbefore)
  clear t ht hclear := by
    obtain ht | rfl := List.mem_or_eq_of_mem_set ht
    · exact hkeeps.emptied (hinv.flag t ht hclear.flag) (hinv.clear t ht hclear)
    · obtain ⟨hidle, -⟩ | hbefore := hkeeps.clear hclear
      · exact hidle
      · have hmem := List.mem_of_getElem? htask
        exact hkeeps.emptied (hinv.flag task hmem hbefore.flag) (hinv.clear task hmem hbefore)

theorem Inv.spawn (hinv : Inv cfg g) (hconns : task.conns = []) (hspare : task.spare = 0)
    (hflag : ¬ task.AfterFlag) : Inv cfg { g with tasks := g.tasks ++ [task] } where
  permits := by
    rw [← hinv.permits]
    simp [Pool.permits, Task.permits, hconns, hspare]
  places c := by
    refine le_of_eq_of_le ?_ (hinv.places c)
    simp [Pool.places, hconns]
  fresh c hc := by
    refine Eq.trans ?_ (hinv.fresh c hc)
    simp [Pool.places, hconns]
  flag t ht h := by
    obtain ht | rfl := List.mem_append.mp ht |>.imp_right List.mem_singleton.mp
    · exact hinv.flag t ht h
    · exact absurd h hflag
  clear t ht h := by
    obtain ht | rfl := List.mem_append.mp ht |>.imp_right List.mem_singleton.mp
    · exact hinv.clear t ht h
    · exact absurd h.flag hflag

theorem Inv.inner (hinv : Inv cfg g) (hidle : p'.idle = g.inner.idle)
    (hpermits : p'.permits = g.inner.permits) (hnext : p'.nextId = g.inner.nextId)
    (hclosed : p'.closed = g.inner.closed) : Inv cfg { g with inner := p' } where
  permits := by
    rw [← hinv.permits]
    simp [Pool.permits, hidle, hpermits]
  places c := by
    refine le_of_eq_of_le ?_ (hinv.places c)
    simp [Pool.places, PoolInner.idleIds, hidle]
  fresh c hc := by
    refine Eq.trans ?_ (hinv.fresh c (hnext ▸ hc))
    simp [Pool.places, PoolInner.idleIds, hidle]
  flag t ht h := hclosed.trans (hinv.flag t ht h)
  clear t ht h := hidle.trans (hinv.clear t ht h)

theorem serve_inner {conn : Nat} {answer : Answer} (h : serve p conn answer = some p') :
    p'.idle = p.idle ∧ p'.permits = p.permits ∧ p'.nextId = p.nextId ∧ p'.closed = p.closed ∧
      p'.borrowed = p.borrowed := by
  unfold serve at h
  split at h
  · simp at h
  · split at h
    · simp at h
    · obtain rfl := Option.some.inj h
      exact ⟨rfl, rfl, rfl, rfl, rfl⟩

theorem step_task {i : Nat} (hstep : step cfg g (.task i action) = some h) :
    ∃ task task' p', g.tasks[i]? = some task ∧
      stepTask cfg g.inner task action = some (task', p') ∧ h = ⟨p', g.tasks.set i task'⟩ := by
  obtain ⟨task, htask, hmap⟩ := Option.bind_eq_some_iff.mp hstep
  obtain ⟨⟨task', p'⟩, hmove, rfl⟩ := Option.map_eq_some_iff.mp hmap
  exact ⟨task, task', p', htask, hmove, rfl⟩

theorem Inv.step (hinv : Inv cfg g) (hstep : step cfg g event = some h) : Inv cfg h := by
  cases event with
  | get =>
    obtain rfl := Option.some.inj hstep
    exact hinv.spawn rfl rfl (by simp [Task.AfterFlag])
  | close =>
    obtain rfl := Option.some.inj hstep
    exact hinv.spawn rfl rfl (by simp [Task.AfterFlag])
  | task i action =>
    obtain ⟨task, task', p', htask, hmove, rfl⟩ := step_task hstep
    exact hinv.setTask htask (taskStep_of_stepTask hmove).keeps
  | tick time =>
    obtain rfl := Option.some.inj hstep
    exact hinv.inner rfl rfl rfl rfl
  | «break» conn =>
    obtain rfl := Option.some.inj hstep
    exact hinv.inner rfl rfl rfl rfl
  | serve conn answer =>
    obtain ⟨p', hserve, rfl⟩ := Option.map_eq_some_iff.mp hstep
    obtain ⟨hidle, hpermits, hnext, hclosed, -⟩ := serve_inner hserve
    exact hinv.inner hidle hpermits hnext hclosed
  | endBorrowed conn =>
    obtain rfl := Option.some.inj hstep
    exact hinv.inner rfl rfl rfl rfl

theorem inv_of_exec {events : List Event}
    (hrun : exec (step cfg) (fromConfig cfg) events = some g) :
    Inv cfg g :=
  run_invariant inv_fromConfig (fun _ _ _ hinv hstep => hinv.step hstep) hrun

/-- The event puts a connection into the idle list while a stream taken through
`Deref` still reads from it. -/
def StoresBorrowed (g : Pool) : Event → Prop
  | .task i .run => ∃ task conn, g.tasks[i]? = some task ∧ task.stores? = some conn ∧
      g.inner.closed = false ∧ conn.id ∈ g.inner.borrowed
  | _ => False

/-- No unfinished stream taken through `Deref` reads from an idle connection. -/
def Unborrowed (g : Pool) : Prop :=
  ∀ entry ∈ g.inner.idle, entry.conn.id ∉ g.inner.borrowed

theorem Inv.not_mem_conns (hinv : Inv cfg g) {entry : IdleConn} (hentry : entry ∈ g.inner.idle)
    {task : Task} (htask : task ∈ g.tasks) : entry.conn.id ∉ task.conns := by
  intro hmem
  have hidle : 0 < g.inner.idleIds.count entry.conn.id :=
    List.count_pos_iff.mpr (List.mem_map_of_mem hentry)
  have htasks : task.conns.count entry.conn.id ≤
      (g.tasks.map fun task => task.conns.count entry.conn.id).sum :=
    List.single_le_sum (by simp) _ (List.mem_map_of_mem htask)
  have hcount : 0 < task.conns.count entry.conn.id := List.count_pos_iff.mpr hmem
  have hplaces := hinv.places entry.conn.id
  simp only [Pool.places] at hplaces
  omega

theorem mem_idle_push {entry : IdleConn} (h : entry ∈ (p.push conn).idle) :
    entry ∈ p.idle ∨ entry.conn = conn := by
  obtain h | h := List.mem_append.mp h
  · exact .inl h
  · exact .inr (by rw [List.mem_singleton.mp h])

theorem unborrowed_step (hinv : Inv cfg g) (hun : g.Unborrowed)
    (hcond : ¬ g.StoresBorrowed event) (hstep : Pool.step cfg g event = some h) :
    h.Unborrowed := by
  cases event with
  | get =>
    obtain rfl := Option.some.inj hstep
    exact hun
  | close =>
    obtain rfl := Option.some.inj hstep
    exact hun
  | task i action =>
    obtain ⟨task, task', p', htask, hmove, rfl⟩ := step_task hstep
    intro entry hentry
    obtain ⟨hidle, hborrowed⟩ | ⟨conn, hstores, hopen, rfl⟩ | ⟨c, hc, hidle, hborrowed⟩ :=
      (taskStep_of_stepTask hmove).stores
    · rw [hborrowed]
      exact hun entry (hidle hentry)
    · obtain hold | rfl := mem_idle_push hentry
      · exact hun entry hold
      · intro hmem
        have hrun : action = .run := by
          cases task <;> cases action <;>
            simp_all [Task.stores?, stepTask, stepGet, stepFill]
        subst hrun
        exact hcond ⟨task, entry.conn, htask, hstores, hopen, hmem⟩
    · rw [hborrowed, List.mem_cons, not_or]
      rw [hidle] at hentry
      refine ⟨?_, hun entry hentry⟩
      rintro rfl
      exact hinv.not_mem_conns hentry (List.mem_of_getElem? htask) hc
  | tick time =>
    obtain rfl := Option.some.inj hstep
    exact hun
  | «break» conn =>
    obtain rfl := Option.some.inj hstep
    exact hun
  | serve conn answer =>
    obtain ⟨p', hserve, rfl⟩ := Option.map_eq_some_iff.mp hstep
    obtain ⟨hidle, -, -, -, hborrowed⟩ := serve_inner hserve
    intro entry hentry
    rw [hborrowed]
    exact hun entry (hidle ▸ hentry)
  | endBorrowed conn =>
    obtain rfl := Option.some.inj hstep
    exact fun entry hentry hmem => hun entry hentry (List.mem_of_mem_erase hmem)

/-- The pool never grows beyond its size, no permit is lost or doubled, every
connection is in one place, what is idle is used by nobody and stays away once
`close` has returned. -/
structure Safe (cfg : PoolConfig) (g : Pool) : Prop where
  size : g.pooled ≤ cfg.poolSize
  permits : g.permits = cfg.poolSize
  places : ∀ c, g.places c ≤ 1
  unused : ∀ entry ∈ g.inner.idle, entry.conn.id ∉ g.inner.borrowed ∧
    ∀ task ∈ g.tasks, entry.conn.id ∉ task.conns
  closed : .closed ∈ g.tasks → g.inner.idle = []

theorem pooled_le_permits (g : Pool) : g.pooled ≤ g.permits := by
  have hsum : (g.tasks.map fun task => task.conns.length).sum ≤ (g.tasks.map Task.permits).sum :=
    List.sum_le_sum fun task _ => Nat.le_add_right _ _
  simp only [pooled, Pool.permits]
  omega

theorem Inv.safe (hinv : Inv cfg g) (hun : g.Unborrowed) : Safe cfg g where
  size := hinv.permits ▸ g.pooled_le_permits
  permits := hinv.permits
  places := hinv.places
  unused entry hentry := ⟨hun entry hentry, fun _ htask => hinv.not_mem_conns hentry htask⟩
  closed h := hinv.clear _ h trivial

theorem unborrowed_of_exec {events : List Event}
    (hcond : Throughout (Pool.step cfg) (fun g event => ¬ g.StoresBorrowed event) (fromConfig cfg)
      events)
    (hrun : exec (Pool.step cfg) (fromConfig cfg) events = some g) : g.Unborrowed := by
  refine run_rule (P := fun _ => Unborrowed) (fun _ h => by simp [fromConfig] at h) ?_ hcond hrun
  intro events t event u hexec hun hcond hstep
  exact unborrowed_step (inv_of_exec hexec) hun hcond hstep

theorem borrowed_step (hevent : g.StoresBorrowed event) (hstep : Pool.step cfg g event = some h) :
    ¬ h.Unborrowed := by
  cases event with
  | task i action =>
    cases action with
    | run =>
      obtain ⟨task, conn, htask, hstores, hopen, hmem⟩ := hevent
      obtain ⟨t, task', p', ht, hmove, rfl⟩ := step_task hstep
      obtain rfl : task = t := by simpa [htask] using ht
      have hpush : p' = g.inner.push conn := by
        cases task with
        | pushing c =>
          obtain rfl : c = conn := by simpa [Task.stores?] using hstores
          simp only [stepTask, stepGet, stepReturn, hopen] at hmove
          simpa using (Prod.ext_iff.mp (Option.some.inj hmove)).2.symm
        | fillPush count c =>
          obtain rfl : c = conn := by simpa [Task.stores?] using hstores
          simp only [stepTask, stepFill, hopen] at hmove
          simpa using (Prod.ext_iff.mp (Option.some.inj hmove)).2.symm
        | _ => simp [Task.stores?] at hstores
      subst hpush
      exact fun hun => hun ⟨conn, g.inner.now⟩
        (List.mem_append_right _ (List.mem_singleton_self _)) hmem
    | _ => exact hevent.elim
  | _ => exact hevent.elim

/-- Over every interleaving the pool is safe in all states exactly when no
connection is put back while a stream taken through `Deref` reads from it. -/
theorem safe_iff {events : List Event}
    (hrun : exec (Pool.step cfg) (fromConfig cfg) events = some g) :
    (∀ pre post t, events = pre ++ post →
      exec (Pool.step cfg) (fromConfig cfg) pre = some t → Safe cfg t) ↔
      Throughout (Pool.step cfg) (fun g event => ¬ g.StoresBorrowed event) (fromConfig cfg)
        events := by
  refine ⟨fun hsafe pre event post t hevents hpre hevent => ?_,
    fun hcond pre post t hevents hpre => ?_⟩
  · rw [hevents] at hrun
    obtain ⟨t', u, hpre', hstep, -⟩ := exec_split hrun
    obtain rfl : t = t' := by simpa [hpre] using hpre'
    have hu := hsafe (pre ++ [event]) post u (by simp [hevents])
      (exec_concat_eq_some.mpr ⟨t, hpre, hstep⟩)
    exact borrowed_step hevent hstep fun entry hentry => (hu.unused entry hentry).1
  · rw [hevents] at hcond
    exact (inv_of_exec hpre).safe (unborrowed_of_exec hcond.init hpre)

theorem not_storesBorrowed (h : g.inner.borrowed = []) : ¬ g.StoresBorrowed event := by
  cases event with
  | task i action =>
    cases action with
    | run =>
      rintro ⟨task, conn, -, -, -, hmem⟩
      rw [h] at hmem
      exact List.not_mem_nil hmem
    | _ => exact id
  | _ => exact id

/-- A row stream outlives the handle; once it ends the connection is put back. -/
theorem safe_returned : ∃ t, exec (Pool.step ⟨2, 0, 10, 10⟩) (fromConfig ⟨2, 0, 10, 10⟩)
    [.get, .task 1 .run, .task 1 .run, .task 1 .run, .task 1 .run, .task 1 .run, .task 1 .acquire,
      .task 1 .run, .task 1 .connected, .task 1 .openStream, .task 1 .dropHandle,
      .task 1 .closeStream, .task 1 .run, .task 1 .run] = some t ∧
    t.inner.idle = [⟨⟨0, 0⟩, 0⟩] ∧ Safe ⟨2, 0, 10, 10⟩ t := by
  have hexec : ∃ t, exec (Pool.step ⟨2, 0, 10, 10⟩) (fromConfig ⟨2, 0, 10, 10⟩)
      [.get, .task 1 .run, .task 1 .run, .task 1 .run, .task 1 .run, .task 1 .run,
        .task 1 .acquire, .task 1 .run, .task 1 .connected, .task 1 .openStream,
        .task 1 .dropHandle, .task 1 .closeStream, .task 1 .run, .task 1 .run] = some t ∧
      t.inner.idle = [⟨⟨0, 0⟩, 0⟩] := ⟨_, rfl, rfl⟩
  obtain ⟨t, ht, hidle⟩ := hexec
  refine ⟨t, ht, hidle, (safe_iff ht).mpr ?_ _ [] t (List.append_nil _).symm ht⟩
  iterate 14
    refine throughout_cons (not_storesBorrowed rfl) fun u hu => ?_
    obtain rfl := Option.some.inj hu
  exact throughout_nil

/-- A stream taken through `Deref` outlives the handle. -/
theorem unsafe_borrowed : ¬ ∀ (cfg : PoolConfig) (events : List Event) (g : Pool),
    exec (Pool.step cfg) (fromConfig cfg) events = some g → Safe cfg g := by
  intro hsafe
  have hrun := hsafe ⟨2, 0, 10, 10⟩ [.get, .task 1 .run, .task 1 .run, .task 1 .run, .task 1 .run,
    .task 1 .run, .task 1 .acquire, .task 1 .run, .task 1 .connected, .task 1 .borrowStream,
    .task 1 .dropHandle, .task 1 .run, .task 1 .run] _ rfl
  exact (hrun.unused ⟨⟨0, 0⟩, 0⟩ (List.mem_singleton_self _)).1 (List.mem_singleton_self _)

end Pool

end Stdx.Postgresql
