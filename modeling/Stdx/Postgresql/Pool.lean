import Mathlib.Logic.Function.Basic
import Stdx.Foundation.Transition

/-!
# The connection pool

Every call of `Pool::get`, every checkout, every `close` and the reaper is a
task that moves from one atomic step to the next; the tasks interleave in any
order.  A step is one atomic load or store, one critical section, one change of
the semaphore's permits or the resumption of an await point, so a connection and
the permit it came with are dropped in two steps.  A checkout stands for the
`Arc<Checkout>` with its holders: the handle, future or transaction that owns
it and the row streams that keep it alive.
-/

namespace Stdx.Postgresql

open Stdx.Foundation

structure Connection where
  id : Nat
  created : Nat
  deriving DecidableEq

structure IdleConn where
  conn : Connection
  idleSince : Nat
  deriving DecidableEq

structure PoolConfig where
  poolSize : Nat
  minConnections : Nat
  idleTimeout : Nat
  maxLifetime : Nat

inductive Statement where
  | begin
  | commit
  | rollback
  | other
  deriving DecidableEq

/-- How a request ends: the server runs it, or refuses to prepare or bind it and runs
nothing. -/
inductive Answer where
  | done
  | failed
  | refused
  deriving DecidableEq

/-- What the owner of a checkout is doing.  A ticket is the position of its
request among all requests queued on the connection. -/
inductive Holder where
  | released
  | handle
  | beginning (ticket : Nat)
  | transaction
  | ending (ticket : Nat)
  deriving DecidableEq

/-- The three calls of `pop_idle` in `Pool::get`; the last has a permit in hand. -/
inductive Site where
  | first
  | recheck
  | acquired
  deriving DecidableEq

inductive Task where
  | get
  | pop (site : Site)
  | dead (site : Site) (conn : Connection)
  | deadPermit (site : Site)
  | notified
  | recheck
  | select
  | surplus (conn : Connection)
  | connecting
  | checkedOut (conn : Connection) (holder : Holder) (streams : Nat)
  | returning (conn : Connection)
  | pushing (conn : Connection)
  | discarding (conn : Connection)
  | dropConn (conn : Connection)
  | notifyOne
  | closeFlag
  | closeSemaphore
  | closeIdle
  | closeNotify
  | closed
  | reap
  | reapIdle (now : Nat)
  | fill (count : Nat)
  | fillConnect (count : Nat)
  | fillPush (count : Nat) (conn : Connection)
  | finished
  deriving DecidableEq

/-- `idle` is the vector of idle connections, its last element on top.
`borrowed` lists the connections of the unfinished row streams that were taken
through `Deref` and hold no checkout.  `executed` are the requests the server
has answered, with the answers, and `queued` those it has not. -/
structure PoolInner where
  idle : List IdleConn
  permits : Nat
  semaphoreClosed : Bool
  closed : Bool
  broken : Nat → Bool
  nextId : Nat
  now : Nat
  borrowed : List Nat
  executed : Nat → List (Statement × Answer)
  queued : Nat → List Statement

structure Pool where
  inner : PoolInner
  tasks : List Task

/-- What may happen to a task; `run` is its next step where there is only one. -/
inductive Action where
  | run
  | cancel
  | wake
  | acquire
  | timeout
  | connected
  | refused
  | openStream
  | closeStream
  | borrowStream
  | execute
  | begin
  | commit
  | rollback
  | dropHandle
  deriving DecidableEq

inductive Event where
  | get
  | close
  | task (i : Nat) (action : Action)
  | tick (time : Nat)
  | break (conn : Nat)
  | serve (conn : Nat) (answer : Answer)
  | endBorrowed (conn : Nat)
  deriving DecidableEq

/-! ## The shared state -/

namespace PoolInner

def releasePermit (p : PoolInner) : PoolInner :=
  { p with permits := p.permits + 1 }

def acquirePermit (p : PoolInner) : PoolInner :=
  { p with permits := p.permits - 1 }

def enqueue (p : PoolInner) (conn : Nat) (statement : Statement) : PoolInner :=
  { p with queued := Function.update p.queued conn (p.queued conn ++ [statement]) }

def ticket (p : PoolInner) (conn : Nat) : Nat :=
  (p.executed conn).length + (p.queued conn).length

/-- What the future of a queued request resolves to: the server's answer, or an
error once the connection is broken. -/
def reply (p : PoolInner) (conn ticket : Nat) : Option Bool :=
  match (p.executed conn)[ticket]? with
  | some (_, answer) => some (answer = .done)
  | none => if p.broken conn then some false else none

def push (p : PoolInner) (conn : Connection) : PoolInner :=
  { p with idle := p.idle ++ [⟨conn, p.now⟩] }

end PoolInner

/-- `now.duration_since(idle_since) > idle_timeout || .. > max_lifetime` -/
def isExpired (cfg : PoolConfig) (now : Nat) (entry : IdleConn) : Bool :=
  now - entry.idleSince > cfg.idleTimeout || now - entry.conn.created > cfg.maxLifetime

/-- `while keep.len() < min { keep.push(expired.pop()) }`, on the expired
connections from the last to the first. -/
def keepAtLeast (min : Nat) : List IdleConn → List IdleConn → List IdleConn × List IdleConn
  | keep, [] => (keep, [])
  | keep, entry :: expired =>
    if keep.length < min then keepAtLeast min (keep ++ [entry]) expired
    else (keep, entry :: expired)

/-- The critical section of the reaper: the connections kept and those dropped. -/
def reapIdle (cfg : PoolConfig) (now : Nat) (idle : List IdleConn) :
    List IdleConn × List IdleConn :=
  keepAtLeast cfg.minConnections (idle.filter fun entry => !isExpired cfg now entry)
    (idle.filter (isExpired cfg now)).reverse

/-! ## The steps of a task -/

def Site.empty : Site → Task
  | .first => .notified
  | .recheck => .select
  | .acquired => .connecting

def Site.found (conn : Connection) : Site → Task
  | .first | .recheck => .checkedOut conn .handle 0
  | .acquired => .surplus conn

def popIdle (p : PoolInner) (site : Site) : Task × PoolInner :=
  match p.idle.getLast? with
  | none => (site.empty, p)
  | some entry =>
    (if p.broken entry.conn.id then .dead site entry.conn else site.found entry.conn,
      { p with idle := p.idle.dropLast })

/-- A holder lets go: the last one runs `Checkout::drop`. -/
def release (conn : Connection) (holder : Holder) (streams : Nat) : Task :=
  if holder = .released ∧ streams = 0 then .returning conn else .checkedOut conn holder streams

def stepGet (p : PoolInner) : Task → Action → Option (Task × PoolInner)
  | .get, .run => some (if p.closed then .finished else .pop .first, p)
  | .pop site, .run => some (popIdle p site)
  | .dead site _, .run => some (.deadPermit site, p)
  | .deadPermit site, .run => some (.pop site, p.releasePermit)
  | .notified, .run => some (.recheck, p)
  | .recheck, .run => some (if p.closed then .finished else .pop .recheck, p)
  | .select, .wake => some (.pop .first, p)
  | .select, .timeout => some (.finished, p)
  | .select, .cancel => some (.finished, p)
  | .select, .acquire =>
    if p.semaphoreClosed then some (.finished, p)
    else if p.permits = 0 then none
    else some (.pop .acquired, p.acquirePermit)
  | .surplus conn, .run => some (.checkedOut conn .handle 0, p.releasePermit)
  | .connecting, .connected =>
    some (.checkedOut ⟨p.nextId, p.now⟩ .handle 0, { p with nextId := p.nextId + 1 })
  | .connecting, .refused => some (.finished, p.releasePermit)
  | .connecting, .cancel => some (.finished, p.releasePermit)
  | _, _ => none

/-- The owner of a checkout: `PooledConnection`, the future of `begin`,
`Transaction` and the futures of `commit` and `rollback`. -/
def stepHolder (p : PoolInner) (conn : Connection) (streams : Nat) :
    Holder → Action → Option (Task × PoolInner)
  | .handle, .execute =>
    some (.checkedOut conn .handle streams, p.enqueue conn.id .other)
  | .handle, .openStream =>
    some (.checkedOut conn .handle (streams + 1), p.enqueue conn.id .other)
  | .handle, .borrowStream =>
    some (.checkedOut conn .handle streams,
      { p.enqueue conn.id .other with borrowed := conn.id :: p.borrowed })
  | .handle, .dropHandle => some (release conn .released streams, p)
  | .handle, .begin =>
    some (.checkedOut conn (.beginning (p.ticket conn.id)) streams, p.enqueue conn.id .begin)
  | .beginning ticket, .run =>
    (p.reply conn.id ticket).map fun ok =>
      (if ok then .checkedOut conn .transaction streams else release conn .released streams, p)
  | .beginning _, .cancel => some (release conn .released streams, p)
  | .transaction, .execute =>
    some (.checkedOut conn .transaction streams, p.enqueue conn.id .other)
  | .transaction, .openStream =>
    some (.checkedOut conn .transaction (streams + 1), p.enqueue conn.id .other)
  | .transaction, .commit =>
    some (.checkedOut conn (.ending (p.ticket conn.id)) streams, p.enqueue conn.id .commit)
  | .transaction, .rollback =>
    some (.checkedOut conn (.ending (p.ticket conn.id)) streams, p.enqueue conn.id .rollback)
  | .transaction, .dropHandle =>
    some (release conn .released streams, p.enqueue conn.id .rollback)
  | .ending ticket, .run =>
    (p.reply conn.id ticket).map fun _ => (release conn .released streams, p)
  | .ending _, .cancel => some (release conn .released streams, p.enqueue conn.id .rollback)
  | _, _ => none

/-- A row stream that keeps the checkout alive ends or is dropped. -/
def closeStream (conn : Connection) (holder : Holder) : Nat → Option Task
  | 0 => none
  | streams + 1 => some (release conn holder streams)

/-- `Checkout::drop` and `push_idle`. -/
def stepReturn (p : PoolInner) : Task → Option (Task × PoolInner)
  | .returning conn =>
    some (if p.closed || p.broken conn.id then .discarding conn else .pushing conn, p)
  | .pushing conn =>
    some (if p.closed then (.discarding conn, p) else (.notifyOne, p.push conn))
  | .discarding conn => some (.dropConn conn, p.releasePermit)
  | .dropConn _ => some (.finished, p)
  | .notifyOne => some (.finished, p)
  | _ => none

def stepClose (p : PoolInner) : Task → Option (Task × PoolInner)
  | .closeFlag => some (.closeSemaphore, { p with closed := true })
  | .closeSemaphore => some (.closeIdle, { p with semaphoreClosed := true })
  | .closeIdle => some (.closeNotify, { p with idle := [], permits := p.permits + p.idle.length })
  | .closeNotify => some (.closed, p)
  | _ => none

def stepReap (cfg : PoolConfig) (p : PoolInner) : Task → Option (Task × PoolInner)
  | .reap => some (if p.closed then .finished else .reapIdle p.now, p)
  | .reapIdle now =>
    some (.reap, { p with
      idle := (reapIdle cfg now p.idle).1
      permits := p.permits + (reapIdle cfg now p.idle).2.length })
  | _ => none

/-- `Pool::from_config`: the reaper starts once `min_connections` are tried. -/
def stepFill (p : PoolInner) : Task → Action → Option (Task × PoolInner)
  | .fill 0, .run => some (.reap, p)
  | .fill (count + 1), .acquire =>
    if p.semaphoreClosed then some (.reap, p)
    else if p.permits = 0 then none
    else some (.fillConnect count, p.acquirePermit)
  | .fillConnect count, .connected =>
    some (.fillPush count ⟨p.nextId, p.now⟩, { p with nextId := p.nextId + 1 })
  | .fillConnect _, .refused => some (.reap, p.releasePermit)
  | .fillPush count conn, .run =>
    some (.fill count, if p.closed then p.releasePermit else p.push conn)
  | _, _ => none

def stepTask (cfg : PoolConfig) (p : PoolInner) : Task → Action → Option (Task × PoolInner)
  | .checkedOut conn holder streams, action =>
    if action = .closeStream then (closeStream conn holder streams).map fun task => (task, p)
    else stepHolder p conn streams holder action
  | .fill count, action => stepFill p (.fill count) action
  | .fillConnect count, action => stepFill p (.fillConnect count) action
  | .fillPush count conn, action => stepFill p (.fillPush count conn) action
  | task, action =>
    (stepGet p task action).or
      (if action = .run then (stepReturn p task).or ((stepClose p task).or (stepReap cfg p task))
        else none)

def serve (p : PoolInner) (conn : Nat) (answer : Answer) : Option PoolInner :=
  match p.queued conn with
  | [] => none
  | statement :: rest =>
    if p.broken conn then none
    else some { p with
      executed := Function.update p.executed conn (p.executed conn ++ [(statement, answer)])
      queued := Function.update p.queued conn rest }

namespace Pool

def fromConfig (cfg : PoolConfig) : Pool where
  inner :=
    { idle := [], permits := cfg.poolSize, semaphoreClosed := false, closed := false,
      broken := fun _ => false, nextId := 0, now := 0, borrowed := [],
      executed := fun _ => [], queued := fun _ => [] }
  tasks := [.fill cfg.minConnections]

def step (cfg : PoolConfig) (g : Pool) : Event → Option Pool
  | .get => some { g with tasks := g.tasks ++ [.get] }
  | .close => some { g with tasks := g.tasks ++ [.closeFlag] }
  | .task i action =>
    g.tasks[i]?.bind fun task =>
      (stepTask cfg g.inner task action).map fun (task', inner) =>
        ⟨inner, g.tasks.set i task'⟩
  | .tick time => some { g with inner := { g.inner with now := g.inner.now + time } }
  | .break conn =>
    some { g with inner := { g.inner with broken := Function.update g.inner.broken conn true } }
  | .serve conn answer => (serve g.inner conn answer).map fun inner => { g with inner := inner }
  | .endBorrowed conn =>
    some { g with inner := { g.inner with borrowed := g.inner.borrowed.erase conn } }

end Pool

end Stdx.Postgresql
