import Stdx.Foundation.Transition
import Stdx.Postgresql.Frontend

/-!
# The statement cache

The bookkeeping of `Actor` for named statements, caching enabled, beside the statements the
server holds.  An event carries a query and what the peer does in the two attempts it may
take: whether a write goes through, whether the server accepts the `Parse`, and its replies.
A handler whose replies run out is still waiting, so the event is not yet possible.  What a
row holds and what a statement describes play no part.
-/

namespace Stdx.Postgresql

open Stdx.Foundation

/-- `format!("s{}", counter)` is `s` and the decimal digits. -/
def statementName (counter : UInt64) : Bytes :=
  0x73 :: (Nat.toDigits 10 counter.toNat).map fun digit => UInt8.ofNat digit.toNat

structure CachedStatement where
  sql : Bytes
  oids : List UInt32
  name : UInt64
  deriving DecidableEq

structure Query where
  sql : Bytes
  oids : List UInt32
  values : Bytes
  maxRows : Int32

def CachedStatement.matches (cached : CachedStatement) (query : Query) : Bool :=
  cached.sql = query.sql && cached.oids = query.oids

/-! ## The map -/

def swapRemoveIndex {α : Type} (entries : List α) (i : Nat) : List α :=
  match entries.getLast? with
  | none => []
  | some last => (entries.set i last).dropLast

abbrev Cache := List (Nat × CachedStatement)

namespace Cache

def get (cache : Cache) (hash : Nat) : Option CachedStatement :=
  (cache.find? fun entry => entry.1 = hash).map Prod.snd

def swapRemove (cache : Cache) (hash : Nat) : Option CachedStatement × Cache :=
  match cache.findIdx? fun entry => entry.1 = hash with
  | none => (none, cache)
  | some i => ((cache[i]?).map Prod.snd, swapRemoveIndex cache i)

/-- A present key keeps its place; the value it had is returned. -/
def insert (cache : Cache) (hash : Nat) (cached : CachedStatement) :
    Option CachedStatement × Cache :=
  match cache.findIdx? fun entry => entry.1 = hash with
  | none => (none, cache ++ [(hash, cached)])
  | some i => ((cache[i]?).map Prod.snd, cache.set i (hash, cached))

def names (cache : Cache) : List UInt64 :=
  cache.map fun entry => entry.2.name

end Cache

/-! ## The state -/

structure Session where
  cacheSize : Nat
  enabled : 0 < cacheSize
  cache : Cache
  pendingCloses : List UInt64
  statementCounter : UInt64
  broken : Bool
  /-- What the server holds. -/
  opened : List UInt64

def Session.new (cacheSize : Nat) (enabled : 0 < cacheSize) : Session :=
  ⟨cacheSize, enabled, [], [], 0, false, []⟩

/-- A server that has read these `Close` messages. -/
def Session.closed (s : Session) (names : List UInt64) : Session :=
  { s with opened := s.opened.filter fun name => name ∉ names }

def Session.parsed (s : Session) (name : UInt64) (accepted : Bool) : Session :=
  if accepted then { s with opened := s.opened.insert name } else s

def evictFrom (cacheSize : Nat) : Nat → Cache → List UInt64 → Cache × List UInt64
  | 0, cache, pendingCloses => (cache, pendingCloses)
  | fuel + 1, cache, pendingCloses =>
    if cacheSize < cache.length then
      match cache[0]? with
      | none => (cache, pendingCloses)
      | some entry =>
        evictFrom cacheSize fuel (swapRemoveIndex cache 0) (pendingCloses ++ [entry.2.name])
    else (cache, pendingCloses)

def Session.evict (s : Session) : Session :=
  let evicted := evictFrom s.cacheSize s.cache.length s.cache s.pendingCloses
  { s with cache := evicted.1, pendingCloses := evicted.2 }

/-! ## Requests -/

/-- `a?; b` over the write buffer. -/
def andThen (first : Bytes × Except Error Unit) (next : Bytes → Bytes × Except Error Unit) :
    Bytes × Except Error Unit :=
  match first.2 with
  | .ok () => next first.1
  | .error err => (first.1, .error err)

def encodeCloses (buf : Bytes) : List UInt64 → Bytes × Except Error Unit
  | [] => (buf, .ok ())
  | name :: names =>
    andThen (Frontend.close buf 0x53 (statementName name)) fun buf => encodeCloses buf names

def encodePrepare (closes : List UInt64) (name : UInt64) (query : Query) :
    Bytes × Except Error Unit :=
  andThen (encodeCloses [] closes) fun buf =>
    andThen (Frontend.parse buf (statementName name) query.sql query.oids) fun buf =>
      andThen (Frontend.describe buf 0x53 (statementName name)) Frontend.sync

def encodeBind (buf : Bytes) (name : UInt64) (query : Query) : Bytes × Except Error Unit :=
  match Frontend.bindStart buf [] (statementName name) query.oids.length with
  | (buf, .error err) => (buf, .error err)
  | (buf, .ok lenPos) => Frontend.bindFinish (buf ++ query.values) .binary lenPos

def encodeExecute (closes : List UInt64) (name : UInt64) (query : Query) :
    Bytes × Except Error Unit :=
  andThen (encodeCloses [] closes) fun buf =>
    andThen (encodeBind buf name query) fun buf =>
      andThen (Frontend.execute buf [] query.maxRows) Frontend.sync

/-! ## Replies -/

inductive Reply where
  | parseComplete
  | dataRow
  | copyInResponse
  | copyOutResponse
  | readyForQuery
  | serverError (db : DbError)
  /-- The read fails: an I/O or a protocol error. -/
  | failure (err : Error)
  | other

def prepareReplies : List Reply → Option DbError → Option (Except Error Unit)
  | [], _ => none
  | .readyForQuery :: _, none => some (.ok ())
  | .readyForQuery :: _, some db => some (.error (.server db))
  | .serverError db :: replies, _ => prepareReplies replies (some db)
  | .failure err :: _, _ => some (.error err)
  | _ :: replies, pendingError => prepareReplies replies pendingError

def abortReplies (report : Error) : List Reply → Option (Error × Bool)
  | [] => none
  | .readyForQuery :: _ => some (report, false)
  | .failure err :: _ => some (err, true)
  | _ :: replies => abortReplies report replies

def abortUnexpectedCopy (copyIn flushed : Bool) (replies : List Reply) : Option (Error × Bool) :=
  if copyIn && !flushed then some (.io, true)
  else
    abortReplies (.decode (if copyIn then
        "COPY ... FROM STDIN cannot be run as a parameterized query; use copy_in!"
      else "COPY ... TO STDOUT cannot be run as a parameterized query; use copy_out!")) replies

/-- How an attempt ends: the error with whether a row was sent, and whether the connection
is broken. -/
structure Ending where
  result : Except (Error × Bool) Unit
  broken : Bool

def executeReplies (copyFlushed : Bool) : List Reply → Option DbError → Bool → Option Ending
  | [], _, _ => none
  | .dataRow :: replies, pendingError, _ => executeReplies copyFlushed replies pendingError true
  | .copyInResponse :: replies, _, rowsSent =>
    (abortUnexpectedCopy true copyFlushed replies).map fun aborted =>
      ⟨.error (aborted.1, rowsSent), aborted.2⟩
  | .copyOutResponse :: replies, _, rowsSent =>
    (abortUnexpectedCopy false copyFlushed replies).map fun aborted =>
      ⟨.error (aborted.1, rowsSent), aborted.2⟩
  | .readyForQuery :: _, none, _ => some ⟨.ok (), false⟩
  | .readyForQuery :: _, some db, rowsSent => some ⟨.error (.server db, rowsSent), false⟩
  | .serverError db :: replies, _, rowsSent => executeReplies copyFlushed replies (some db) rowsSent
  | .failure err :: _, _, rowsSent => some ⟨.error (err, rowsSent), true⟩
  | .parseComplete :: replies, pendingError, rowsSent =>
    executeReplies copyFlushed replies pendingError rowsSent
  | .other :: replies, pendingError, rowsSent =>
    executeReplies copyFlushed replies pendingError rowsSent

/-! ## Queries -/

/-- The peer during `prepare`.  Where the write fails, `written` of the closes have gone out. -/
structure Exchange where
  flushed : Bool
  written : Nat
  parsed : Bool
  replies : List Reply

structure Execution where
  flushed : Bool
  written : Nat
  copyFlushed : Bool
  replies : List Reply

structure Attempt where
  exchange : Exchange
  execution : Execution

def prepare (s : Session) (name : UInt64) (query : Query) (peer : Exchange) :
    Option (Except Error Unit × Session) :=
  let closes := s.pendingCloses
  let s := { s with pendingCloses := [] }
  match (encodePrepare closes name query).2 with
  | .error err => some (.error err, s)
  | .ok () =>
    if peer.flushed then
      (prepareReplies peer.replies none).map fun result =>
        (result, (s.closed closes).parsed name peer.parsed)
    else some (.error .io, (s.closed (closes.take peer.written)).parsed name peer.parsed)

def execute (s : Session) (name : UInt64) (query : Query) (peer : Execution) :
    Option (Except (Error × Bool) Unit × Session) :=
  let closes := s.pendingCloses
  let s := { s with pendingCloses := [] }
  match (encodeExecute closes name query).2 with
  | .error err => some (.error (err, false), s)
  | .ok () =>
    if peer.flushed then
      (executeReplies peer.copyFlushed peer.replies none false).map fun ending =>
        (ending.result, { s.closed closes with broken := s.broken || ending.broken })
    else
      some (.error (.io, false), { s.closed (closes.take peer.written) with broken := true })

section

variable (key : Bytes → List UInt32 → Nat)

def Session.lookup (s : Session) (query : Query) : Option CachedStatement :=
  (s.cache.get (key query.sql query.oids)).filter fun cached => cached.matches query

def Session.touch (s : Session) (query : Query) : Session :=
  let hash := key query.sql query.oids
  match s.cache.swapRemove hash with
  | (none, _) => s
  | (some cached, cache) => { s with cache := (cache.insert hash cached).2 }

def Session.remember (s : Session) (query : Query) (name : UInt64) : Session :=
  let inserted := s.cache.insert (key query.sql query.oids) ⟨query.sql, query.oids, name⟩
  let s := { s with cache := inserted.2 }
  match inserted.1 with
  | none => s.evict
  | some old => { s with pendingCloses := s.pendingCloses ++ [old.name] }.evict

def attemptQuery (s : Session) (query : Query) (peer : Attempt) :
    Option (Except (Error × Bool) Unit × Session) :=
  match s.lookup key query with
  | some cached => execute (s.touch key query) cached.name query peer.execution
  | none =>
    let name := s.statementCounter + 1
    match prepare { s with statementCounter := name } name query peer.exchange with
    | none => none
    | some (.error err, s) => some (.error (err, false), s)
    | some (.ok (), s) => execute (s.remember key query name) name query peer.execution

def isRetryablePlanError (code : String) : Bool :=
  code = "0A000" || code = "26000"

def shouldRetry (attempt : Nat) (rowsSent : Bool) (error : Error) : Bool :=
  attempt = 1 && !rowsSent &&
    match error with
    | .server db => isRetryablePlanError db.code
    | _ => false

/-- The stale statement is dropped and its close queued. -/
def Session.forget (s : Session) (query : Query) : Session :=
  let removed := s.cache.swapRemove (key query.sql query.oids)
  match removed.1 with
  | none => { s with cache := removed.2 }
  | some old => { s with cache := removed.2, pendingCloses := s.pendingCloses ++ [old.name] }

structure Request where
  query : Query
  first : Attempt
  second : Attempt

def handleQuery (s : Session) (request : Request) :
    Option (Except (Error × Bool) Unit × Session) :=
  match attemptQuery key s request.query request.first with
  | some (.error (err, rowsSent), s) =>
    if shouldRetry 1 rowsSent err then
      attemptQuery key (s.forget key request.query) request.query request.second
    else some (.error (err, rowsSent), s)
  | result => result

def serveRequest (s : Session) (request : Request) : Option Session :=
  if s.broken then some s else (handleQuery key s request).map Prod.snd

end

end Stdx.Postgresql
