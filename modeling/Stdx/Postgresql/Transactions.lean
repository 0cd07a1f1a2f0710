import Stdx.Postgresql.PoolSafety

/-!
# Transactions of pooled connections

What a connection's session will be once its queued requests have run is a fold
over them.  `Transaction` queues a `ROLLBACK` whenever it is dropped unfinished,
but it exists only once `BEGIN` has been answered: a future of `begin` that is
dropped before leaves a `BEGIN` in the queue and nothing that ends it.  Nor does
anything end the block when the server refuses to prepare the `COMMIT` or the
`ROLLBACK`: the transaction counts as finished either way.
-/

namespace Stdx.Postgresql

open Stdx.Foundation

/-- Whether the session is inside a transaction block after a request.  A `COMMIT` that
fails ends the block like one that is done; a failed `BEGIN` opens none, and what the
server refuses changes nothing. -/
def runStatement (inside : Bool) : Statement × Answer → Bool
  | (.begin, .done) => true
  | (.commit, .done) | (.commit, .failed) => false
  | (.rollback, .done) | (.rollback, .failed) => false
  | _ => inside

def runStatements (inside : Bool) (statements : List Statement) (answers : List Answer) : Bool :=
  (statements.zip answers).foldl runStatement inside

namespace PoolInner

def session (p : PoolInner) (c : Nat) : Bool :=
  (p.executed c).foldl runStatement false

/-- Executed in order, and whatever comes of them, the queued requests leave no transaction
open. -/
def Settled (p : PoolInner) (c : Nat) : Prop :=
  ∀ answers : List Answer, answers.length = (p.queued c).length → .refused ∉ answers →
    runStatements (p.session c) (p.queued c) answers = false

end PoolInner

def mayOpen (inside : Bool) (statements : List Statement) : Bool :=
  statements.foldl (fun inside statement => runStatement inside (statement, .done)) inside

theorem runStatement_le {a b : Bool} {answer : Answer} (statement : Statement) (hab : a ≤ b)
    (hends : answer = .refused → a = true → statement ≠ .commit ∧ statement ≠ .rollback) :
    runStatement a (statement, answer) ≤ runStatement b (statement, .done) := by
  cases statement <;> cases answer <;> cases a <;> simp_all [runStatement]

theorem mayOpen_mono {a b : Bool} (statements : List Statement) (hab : a ≤ b) :
    mayOpen a statements ≤ mayOpen b statements := by
  induction statements generalizing a b with
  | nil => exact hab
  | cons statement statements ih => exact ih (runStatement_le statement hab (by simp))

theorem runStatements_le_mayOpen {a b : Bool} (statements : List Statement)
    (answers : List Answer) (hlength : answers.length = statements.length)
    (hrun : .refused ∉ answers) (hab : a ≤ b) :
    runStatements a statements answers ≤ mayOpen b statements := by
  induction statements generalizing a b answers with
  | nil => exact hab
  | cons statement statements ih =>
    cases answers with
    | nil => simp at hlength
    | cons answer answers =>
      have hstep := runStatement_le statement hab fun h => absurd (h ▸ List.mem_cons_self) hrun
      have hrest : .refused ∉ answers := fun h => hrun (List.mem_cons_of_mem _ h)
      exact ih answers (by simpa using hlength) hrest hstep

theorem runStatements_replicate (inside : Bool) (statements : List Statement) :
    runStatements inside statements (List.replicate statements.length .done) =
      mayOpen inside statements := by
  induction statements generalizing inside with
  | nil => rfl
  | cons statement statements ih =>
    simp only [runStatements, mayOpen, List.length_cons, List.replicate_succ,
      List.zip_cons_cons, List.foldl_cons] at ih ⊢
    exact ih _

theorem settled_iff (p : PoolInner) (c : Nat) :
    p.Settled c ↔ mayOpen (p.session c) (p.queued c) = false := by
  refine ⟨fun h => ?_, fun h answers hlength hrun => ?_⟩
  · rw [← runStatements_replicate]
    exact h _ (by simp) (by simp [List.mem_replicate])
  · have hle := runStatements_le_mayOpen (p.queued c) answers hlength hrun (le_refl (p.session c))
    rw [h] at hle
    exact Bool.eq_false_of_le_false hle

theorem mayOpen_others {inside : Bool} {statements : List Statement}
    (h : ∀ statement ∈ statements, statement = .other) :
    mayOpen inside statements = inside := by
  induction statements with
  | nil => rfl
  | cons statement statements ih =>
    obtain rfl := h statement (List.mem_cons_self ..)
    exact ih fun s hs => h s (List.mem_cons_of_mem _ hs)

/-! ## What holds of every connection -/

/-- The future of `begin` waits for the answer to this request. -/
inductive Beginning (p : PoolInner) (c ticket : Nat) : Prop where
  | waiting (pre post : List Statement) : p.queued c = pre ++ .begin :: post →
      (p.executed c).length + pre.length = ticket → mayOpen (p.session c) pre = false →
      (∀ statement ∈ post, statement = .other) → Beginning p c ticket
  | answered (answer : Answer) : (p.executed c)[ticket]? = some (.begin, answer) →
      (answer ≠ .done → p.Settled c) → Beginning p c ticket

/-- A connection that is not broken has no transaction open or to come. -/
def Outside (p : PoolInner) (c : Nat) : Prop :=
  p.broken c = false → p.Settled c

def Fine (p : PoolInner) : Task → Prop
  | .checkedOut conn (.beginning ticket) _ =>
    p.broken conn.id = false → Beginning p conn.id ticket
  | .checkedOut _ .transaction _ => True
  | task => ∀ conn, task.conn? = some conn → Outside p conn.id

structure SameSession (p p' : PoolInner) (c : Nat) : Prop where
  executed : p'.executed c = p.executed c
  queued : p'.queued c = p.queued c
  broken : p'.broken c = p.broken c

variable {cfg : PoolConfig} {p p' : PoolInner} {task task' : Task} {action : Action}
  {conn : Connection} {holder : Holder} {streams c ticket : Nat}

theorem SameSession.refl (p : PoolInner) (c : Nat) : SameSession p p c :=
  ⟨rfl, rfl, rfl⟩

theorem SameSession.settled (h : SameSession p p' c) : p'.Settled c ↔ p.Settled c := by
  simp only [PoolInner.Settled, PoolInner.session, h.executed, h.queued]

theorem SameSession.outside (h : SameSession p p' c) (hout : Outside p c) : Outside p' c :=
  fun hbroken => h.settled.mpr (hout (h.broken ▸ hbroken))

theorem SameSession.beginning (h : SameSession p p' c) (hbegin : Beginning p c ticket) :
    Beginning p' c ticket := by
  cases hbegin with
  | waiting pre post hqueued hticket hclosed hpost =>
    refine .waiting pre post (h.queued.trans hqueued) (h.executed ▸ hticket) ?_ hpost
    rwa [PoolInner.session, h.executed]
  | answered answer hexecuted hopened =>
    exact .answered answer (h.executed ▸ hexecuted) fun hnot => h.settled.mpr (hopened hnot)

theorem SameSession.fine (h : ∀ c ∈ task.conns, SameSession p p' c) (hfine : Fine p task) :
    Fine p' task := by
  have hconn (conn : Connection) (hc : task.conn? = some conn) : SameSession p p' conn.id :=
    h conn.id (by simp [Task.conns, hc])
  cases task with
  | checkedOut conn holder streams =>
    cases holder with
    | beginning ticket =>
      intro hbroken
      exact (hconn conn rfl).beginning (hfine ((hconn conn rfl).broken ▸ hbroken))
    | transaction => trivial
    | _ => exact fun conn hc => (hconn conn hc).outside (hfine conn hc)
  | _ => exact fun conn hc => (hconn conn hc).outside (hfine conn hc)

theorem outside_enqueue_other (h : Outside p c) : Outside (p.enqueue c .other) c := by
  intro hbroken
  have hsettled := (settled_iff p c).mp (h hbroken)
  refine (settled_iff _ c).mpr ?_
  simpa [PoolInner.enqueue, PoolInner.session, mayOpen, runStatement] using hsettled

theorem outside_enqueue_end {statement : Statement}
    (h : statement = .commit ∨ statement = .rollback) :
    Outside (p.enqueue c statement) c := by
  intro hbroken
  refine (settled_iff _ c).mpr ?_
  obtain rfl | rfl := h <;> simp [PoolInner.enqueue, mayOpen, runStatement]

theorem beginning_enqueue (h : Outside p c) (hbroken : p.broken c = false) :
    Beginning (p.enqueue c .begin) c (p.ticket c) := by
  refine .waiting (p.queued c) [] ?_ rfl ((settled_iff p c).mp (h hbroken)) (by simp)
  simp [PoolInner.enqueue]

theorem sameSession_enqueue {d : Nat} {statement : Statement} (h : d ≠ c) :
    SameSession p (p.enqueue c statement) d :=
  ⟨rfl, Function.update_of_ne h _ _, rfl⟩

/-! ## The server runs a request -/

/-- The server refuses the request that would end the open transaction. -/
def RefusesEnd (p : PoolInner) (c : Nat) (answer : Answer) : Prop :=
  answer = .refused ∧ p.session c = true ∧
    ((p.queued c).head? = some .commit ∨ (p.queued c).head? = some .rollback)

variable {answer : Answer}

theorem serve_eq_some (h : serve p c answer = some p') :
    ∃ statement rest, p.queued c = statement :: rest ∧ p.broken c = false ∧
      p' = { p with
        executed := Function.update p.executed c (p.executed c ++ [(statement, answer)])
        queued := Function.update p.queued c rest } := by
  unfold serve at h
  split at h
  · simp at h
  · next statement rest hqueued =>
    split at h
    · simp at h
    · next hbroken =>
      exact ⟨statement, rest, hqueued, by simpa using hbroken, (Option.some.inj h).symm⟩

theorem sameSession_serve {d : Nat} (h : serve p c answer = some p') (hd : d ≠ c) :
    SameSession p p' d := by
  obtain ⟨statement, rest, -, -, rfl⟩ := serve_eq_some h
  exact ⟨Function.update_of_ne hd _ _, Function.update_of_ne hd _ _, rfl⟩

theorem serve_le {statement : Statement} {rest : List Statement}
    (hqueued : p.queued c = statement :: rest) (hends : ¬ RefusesEnd p c answer) :
    runStatement (p.session c) (statement, answer) ≤
      runStatement (p.session c) (statement, .done) := by
  refine runStatement_le statement (le_refl _) fun hrefused hinside => ?_
  refine ⟨?_, ?_⟩ <;> rintro rfl
  · exact hends ⟨hrefused, hinside, .inl (by rw [hqueued, List.head?_cons])⟩
  · exact hends ⟨hrefused, hinside, .inr (by rw [hqueued, List.head?_cons])⟩

theorem settled_serve (h : serve p c answer = some p') (hends : ¬ RefusesEnd p c answer)
    (hsettled : p.Settled c) : p'.Settled c := by
  obtain ⟨statement, rest, hqueued, -, rfl⟩ := serve_eq_some h
  have hle := mayOpen_mono rest (serve_le hqueued hends)
  rw [settled_iff] at hsettled ⊢
  rw [hqueued] at hsettled
  change mayOpen (p.session c) (statement :: rest) = false at hsettled
  have hrest : mayOpen (runStatement (p.session c) (statement, .done)) rest = false := hsettled
  rw [hrest] at hle
  simpa [PoolInner.session] using Bool.eq_false_of_le_false hle

theorem beginning_serve (h : serve p c answer = some p') (hends : ¬ RefusesEnd p c answer)
    (hbegin : Beginning p c ticket) : Beginning p' c ticket := by
  have hserved := settled_serve h hends
  obtain ⟨statement, rest, hqueued, -, rfl⟩ := serve_eq_some h
  cases hbegin with
  | waiting pre post hbefore hticket hclosed hpost =>
    cases pre with
    | nil =>
      -- the server answers `BEGIN` itself
      obtain ⟨rfl, rfl⟩ : statement = .begin ∧ rest = post := by
        simpa [hqueued] using hbefore
      refine .answered answer ?_ fun hopened => ?_
      · simp only [List.length_nil, Nat.add_zero] at hticket
        simp [hticket]
      · change p.session c = false at hclosed
        rw [settled_iff]
        have hsession : (p.executed c).foldl runStatement false = false := hclosed
        cases answer with
        | done => exact absurd rfl hopened
        | failed => simp [PoolInner.session, runStatement, hsession, mayOpen_others hpost]
        | refused => simp [PoolInner.session, runStatement, hsession, mayOpen_others hpost]
    | cons first pre =>
      obtain ⟨rfl, rfl⟩ : statement = first ∧ rest = pre ++ .begin :: post := by
        simpa [hqueued] using hbefore
      refine .waiting pre post (by simp) ?_ ?_ hpost
      · simp only [List.length_cons] at hticket
        simp
        omega
      · have hle := mayOpen_mono pre (serve_le hqueued hends)
        have hrest : mayOpen (runStatement (p.session c) (statement, .done)) pre = false :=
          hclosed
        rw [hrest] at hle
        simpa [PoolInner.session] using Bool.eq_false_of_le_false hle
  | answered earlier hexecuted hopened =>
    refine .answered earlier ?_ fun hnot => hserved (hopened hnot)
    obtain ⟨hlt, -⟩ := List.getElem?_eq_some_iff.mp hexecuted
    simpa [List.getElem?_append_left hlt] using hexecuted

theorem outside_serve {d : Nat} (h : serve p c answer = some p')
    (hends : ¬ RefusesEnd p c answer) (hout : Outside p d) : Outside p' d := by
  by_cases hd : d = c
  · subst hd
    obtain ⟨statement, rest, -, hbroken, -⟩ := serve_eq_some h
    exact fun _ => settled_serve h hends (hout hbroken)
  · exact (sameSession_serve h hd).outside hout

theorem fine_serve (h : serve p c answer = some p') (hends : ¬ RefusesEnd p c answer)
    (hfine : Fine p task) : Fine p' task := by
  cases task with
  | checkedOut conn holder streams =>
    cases holder with
    | beginning ticket =>
      intro hbroken
      by_cases hc : conn.id = c
      · obtain ⟨statement, rest, -, hopen, -⟩ := serve_eq_some h
        rw [hc]
        have hbegin := hfine (hc ▸ hopen)
        rw [hc] at hbegin
        exact beginning_serve h hends hbegin
      · have hsame := sameSession_serve h hc
        exact hsame.beginning (hfine (hsame.broken ▸ hbroken))
    | transaction => trivial
    | _ => exact fun conn hc => outside_serve h hends (hfine conn hc)
  | _ => exact fun conn hc => outside_serve h hends (hfine conn hc)

/-! ## The steps of a task -/

/-- The event drops a future of `begin` before it has failed. -/
def AbandonsBegin (p : PoolInner) : Task → Action → Prop
  | .checkedOut conn (.beginning ticket) _, .cancel =>
    p.broken conn.id = false ∧ p.reply conn.id ticket ≠ some false
  | _, _ => False

structure SessionStep (p : PoolInner) (task : Task) (p' : PoolInner) (task' : Task) : Prop where
  fine : Fine p' task'
  others : ∀ c, c ∉ task.conns → SameSession p p' c
  idle : ∀ entry ∈ p'.idle, entry ∈ p.idle ∨ Outside p' entry.conn.id
  nextId : p.nextId ≤ p'.nextId

theorem SessionStep.quiet (hsame : ∀ c, SameSession p p' c) (hidle : p'.idle ⊆ p.idle)
    (hnext : p.nextId ≤ p'.nextId) (hfine : Fine p task') : SessionStep p task p' task' where
  fine := SameSession.fine (fun c _ => hsame c) hfine
  others c _ := hsame c
  idle _ hentry := .inl (hidle hentry)
  nextId := hnext

theorem SessionStep.enqueue {statement : Statement} (hqueue : p' = p.enqueue conn.id statement)
    (hfine : Fine p' task') : SessionStep p (.checkedOut conn holder streams) p' task' where
  fine := hfine
  others c hc := by
    subst hqueue
    exact sameSession_enqueue (by simpa [Task.conns, Task.conn?] using hc)
  idle entry hentry := by
    subst hqueue
    exact .inl hentry
  nextId := by
    subst hqueue
    exact Nat.le_refl _

theorem fine_checkedOut (h : Outside p conn.id)
    (hholder : ∀ ticket, holder ≠ .beginning ticket) :
    Fine p (.checkedOut conn holder streams) := by
  cases holder with
  | beginning ticket => exact absurd rfl (hholder ticket)
  | transaction => trivial
  | _ =>
    intro c hc
    obtain rfl : conn = c := by simpa [Task.conn?] using hc
    exact h

theorem fine_release (h : Fine p (.checkedOut conn holder streams)) (n : Nat) :
    Fine p (release conn holder n) := by
  unfold release
  split
  · next hholder =>
    obtain ⟨rfl, -⟩ := hholder
    exact h
  · cases holder <;> exact h

theorem fine_released (h : Outside p conn.id) (n : Nat) : Fine p (release conn .released n) := by
  have hfine : Fine p (.checkedOut conn .released 0) := fine_checkedOut h (by simp)
  exact fine_release hfine n

theorem Beginning.reply_false (h : Beginning p c ticket) (hbroken : p.broken c = false)
    (hreply : p.reply c ticket = some false) : p.Settled c := by
  cases h with
  | waiting pre post hqueued hticket hclosed hpost =>
    have hnone : (p.executed c)[ticket]? = none := List.getElem?_eq_none (by omega)
    simp [PoolInner.reply, hnone, hbroken] at hreply
  | answered answer hexecuted hopened =>
    refine hopened ?_
    simpa [PoolInner.reply, hexecuted] using hreply

theorem SessionStep.plain (hidle : p'.idle ⊆ p.idle) (hexecuted : p'.executed = p.executed)
    (hqueued : p'.queued = p.queued) (hbroken : p'.broken = p.broken)
    (hnext : p.nextId ≤ p'.nextId) (hfine : Fine p task') : SessionStep p task p' task' :=
  .quiet (fun c => ⟨by rw [hexecuted], by rw [hqueued], by rw [hbroken]⟩) hidle hnext hfine

theorem fine_of_conn?_eq_none (h : task.conn? = none) : Fine p task := by
  cases task with
  | checkedOut conn holder streams => simp [Task.conn?] at h
  | _ => simp [Fine, Task.conn?] at h ⊢

theorem session_push (hfine : Fine p task) (hconn : task.conn? = some conn)
    (htask : task.stores? = some conn) (htask' : task'.conn? = none) :
    SessionStep p task (p.push conn) task' where
  fine := fine_of_conn?_eq_none htask'
  others c _ := ⟨rfl, rfl, rfl⟩
  idle entry hentry := by
    refine (Pool.mem_idle_push hentry).imp_right fun heq => ?_
    have hout : Outside p conn.id := by
      cases task with
      | checkedOut conn holder streams => simp [Task.stores?] at htask
      | _ => exact hfine conn hconn
    rw [heq]
    exact hout
  nextId := Nat.le_refl _

theorem session_popIdle (site : Site) (hidle : ∀ entry ∈ p.idle, Outside p entry.conn.id) :
    SessionStep p (.pop site) (popIdle p site).2 (popIdle p site).1 := by
  cases hlast : p.idle.getLast? with
  | none =>
    simp only [popIdle, hlast]
    exact .plain (fun _ h => h) rfl rfl rfl (Nat.le_refl _)
      (fine_of_conn?_eq_none (by cases site <;> rfl))
  | some entry =>
    simp only [popIdle, hlast]
    refine .plain (List.dropLast_subset _) rfl rfl rfl (Nat.le_refl _) ?_
    have hout := hidle entry (List.mem_of_getLast? hlast)
    have hconn (c : Connection) (hc : entry.conn = c) : Outside p c.id := hc ▸ hout
    split
    · exact fun c hc => hconn c (by simpa [Task.conn?] using hc)
    · cases site <;> exact fun c hc => hconn c (Option.some.inj hc)

theorem session_released (hout : Outside p conn.id) :
    SessionStep p (.checkedOut conn holder streams) p (release conn .released streams) :=
  .quiet (SameSession.refl p) (fun _ h => h) (Nat.le_refl _) (fine_released hout streams)

theorem TaskStep.session (h : TaskStep cfg p task action task' p') (hfine : Fine p task)
    (hidle : ∀ entry ∈ p.idle, Outside p entry.conn.id)
    (hfresh : ∀ c, p.nextId ≤ c → Outside p c) (hcond : ¬ AbandonsBegin p task action) :
    SessionStep p task p' task' := by
  cases h with
  | start | recheck | reap =>
    exact .plain (fun _ h => h) rfl rfl rfl (Nat.le_refl _)
      (fine_of_conn?_eq_none (by split <;> rfl))
  | pop site => exact session_popIdle site hidle
  | surplus conn =>
    exact .plain (fun _ h => h) rfl rfl rfl (Nat.le_refl _)
      (fine_checkedOut (hfine conn rfl) (by simp))
  | connect =>
    exact .plain (fun _ h => h) rfl rfl rfl (Nat.le_succ _)
      (fine_checkedOut (hfresh p.nextId (Nat.le_refl _)) (by simp))
  -- a query of the handle, whose stream keeps the checkout or borrows the connection
  | execute conn streams | openStream conn streams =>
    exact .enqueue rfl (fine_checkedOut (outside_enqueue_other (hfine conn rfl)) (by simp))
  | borrowStream conn streams =>
    have hout := outside_enqueue_other (hfine conn rfl)
    exact {
      fine := fine_checkedOut hout (by simp)
      others := fun c hc => by
        have hc' : c ≠ conn.id := by simpa [Task.conns, Task.conn?] using hc
        have hsame := @sameSession_enqueue p conn.id c .other hc'
        exact ⟨hsame.executed, hsame.queued, hsame.broken⟩
      idle := fun _ hentry => .inl hentry
      nextId := Nat.le_refl _ }
  | dropHandle conn streams => exact session_released (hfine conn rfl)
  | begin conn streams =>
    exact .enqueue rfl fun hbroken => beginning_enqueue (hfine conn rfl) hbroken
  | begun conn ticket streams hreply =>
    exact .quiet (SameSession.refl p) (fun _ h => h) (Nat.le_refl _) trivial
  | beginFailed conn ticket streams hreply =>
    exact session_released fun hbroken => (hfine hbroken).reply_false hbroken hreply
  | cancelBegin conn ticket streams =>
    refine session_released fun hbroken => (hfine hbroken).reply_false hbroken ?_
    by_contra hreply
    exact hcond ⟨hbroken, hreply⟩
  | executeInside | openStreamInside => exact .enqueue rfl trivial
  | commit conn streams =>
    exact .enqueue rfl (fine_checkedOut (outside_enqueue_end (.inl rfl)) (by simp))
  | rollback conn streams =>
    exact .enqueue rfl (fine_checkedOut (outside_enqueue_end (.inr rfl)) (by simp))
  -- what is dropped before the end enqueues a rollback
  | dropTransaction conn streams =>
    exact .enqueue rfl (fine_released (outside_enqueue_end (.inr rfl)) streams)
  | cancelEnd conn ticket streams =>
    exact .enqueue rfl (fine_released (outside_enqueue_end (.inr rfl)) streams)
  | ended conn ticket streams => exact session_released (hfine conn rfl)
  | closeStream conn holder streams =>
    exact .quiet (SameSession.refl p) (fun _ h => h) (Nat.le_refl _) (fine_release hfine streams)
  | checkConn conn =>
    refine .plain (fun _ h => h) rfl rfl rfl (Nat.le_refl _) ?_
    split <;> exact hfine
  | refusePush conn => exact .plain (fun _ h => h) rfl rfl rfl (Nat.le_refl _) hfine
  | push conn hopen | fillPush count conn hopen => exact session_push hfine rfl rfl rfl
  | clearIdle =>
    exact .plain (List.nil_subset _) rfl rfl rfl (Nat.le_refl _) (fine_of_conn?_eq_none rfl)
  | reapIdle now =>
    exact .plain (fun _ h => (reapIdle_perm now p.idle).subset (List.mem_append_left _ h))
      rfl rfl rfl (Nat.le_refl _) (fine_of_conn?_eq_none rfl)
  | fillConnect count =>
    refine .plain (fun _ h => h) rfl rfl rfl (Nat.le_succ _) fun conn hconn => ?_
    obtain rfl : (⟨p.nextId, p.now⟩ : Connection) = conn := by simpa [Task.conn?] using hconn
    exact hfresh p.nextId (Nat.le_refl _)
  | _ => exact .plain (fun _ h => h) rfl rfl rfl (Nat.le_refl _) (fine_of_conn?_eq_none rfl)

/-! ## Runs -/

namespace Pool

variable {g h : Pool} {event : Event}

theorem Inv.not_mem_other (hinv : Inv cfg g) {i j : Nat} (htask : g.tasks[i]? = some task)
    (hother : g.tasks[j]? = some task') (hij : i ≠ j) (hc : c ∈ task.conns) :
    c ∉ task'.conns := by
  intro hc'
  have hsum := sum_map_set (fun task => task.conns.count c) htask (y := .finished)
  have hkept : (g.tasks.set i .finished)[j]? = some task' := by
    rw [List.getElem?_set_ne hij, hother]
  have hle : task'.conns.count c ≤
      ((g.tasks.set i .finished).map fun task => task.conns.count c).sum :=
    List.single_le_sum (by simp) _ (List.mem_map_of_mem (List.mem_of_getElem? hkept))
  have hone : 0 < task.conns.count c := List.count_pos_iff.mpr hc
  have hone' : 0 < task'.conns.count c := List.count_pos_iff.mpr hc'
  have hfinished : Task.finished.conns.count c = 0 := rfl
  have hplaces := hinv.places c
  simp only [Pool.places] at hplaces
  omega

theorem Inv.lt_nextId (hinv : Inv cfg g) (htask : task ∈ g.tasks) (hc : c ∈ task.conns) :
    c < g.inner.nextId := by
  by_contra hle
  have hfresh := hinv.fresh c (Nat.le_of_not_lt hle)
  have hle' : task.conns.count c ≤ (g.tasks.map fun task => task.conns.count c).sum :=
    List.single_le_sum (by simp) _ (List.mem_map_of_mem htask)
  have hone : 0 < task.conns.count c := List.count_pos_iff.mpr hc
  simp only [Pool.places] at hfresh
  omega

structure Sessions (g : Pool) : Prop where
  tasks : ∀ task ∈ g.tasks, Fine g.inner task
  idle : ∀ entry ∈ g.inner.idle, Outside g.inner entry.conn.id
  fresh : ∀ c, g.inner.nextId ≤ c → g.inner.executed c = [] ∧ g.inner.queued c = []

theorem sessions_fromConfig : Sessions (fromConfig cfg) where
  tasks task htask := by
    obtain rfl := List.mem_singleton.mp htask
    exact fine_of_conn?_eq_none rfl
  idle entry hentry := by simp [fromConfig] at hentry
  fresh _ _ := ⟨rfl, rfl⟩

theorem Sessions.outside_fresh (hs : Sessions g) (hc : g.inner.nextId ≤ c) :
    Outside g.inner c := by
  obtain ⟨hexecuted, hqueued⟩ := hs.fresh c hc
  intro _
  rw [settled_iff, PoolInner.session, hexecuted, hqueued]
  rfl

/-- The event drops a future of `begin` before it has failed, or refuses the end of an open
transaction. -/
def LosesEnd (g : Pool) : Event → Prop
  | .task i action => ∃ task, g.tasks[i]? = some task ∧ AbandonsBegin g.inner task action
  | .serve conn answer => RefusesEnd g.inner conn answer
  | _ => False

theorem Sessions.spawn (hs : Sessions g) (hconn : task.conn? = none) :
    Sessions { g with tasks := g.tasks ++ [task] } where
  tasks t ht := by
    obtain ht | rfl := List.mem_append.mp ht |>.imp_right List.mem_singleton.mp
    · exact hs.tasks t ht
    · exact fine_of_conn?_eq_none hconn
  idle := hs.idle
  fresh := hs.fresh

theorem Sessions.setTask (hs : Sessions g) (hinv : Inv cfg g) {i : Nat}
    (htask : g.tasks[i]? = some task) (hstep : SessionStep g.inner task p' task') :
    Sessions ⟨p', g.tasks.set i task'⟩ where
  tasks t ht := by
    obtain ⟨j, hj⟩ := List.getElem?_of_mem ht
    by_cases hij : i = j
    · subst hij
      obtain ⟨hlt, -⟩ := List.getElem?_eq_some_iff.mp htask
      obtain rfl : task' = t := by simpa [List.getElem?_set_self hlt] using hj
      exact hstep.fine
    · have hold : g.tasks[j]? = some t := by
        rwa [List.getElem?_set_ne hij] at hj
      refine SameSession.fine (fun c hc => hstep.others c fun hmem => ?_)
        (hs.tasks t (List.mem_of_getElem? hold))
      exact hinv.not_mem_other htask hold hij hmem hc
  idle entry hentry := by
    obtain hold | hout := hstep.idle entry hentry
    · refine (hstep.others entry.conn.id ?_).outside (hs.idle entry hold)
      exact hinv.not_mem_conns hold (List.mem_of_getElem? htask)
    · exact hout
  fresh c hc := by
    have hle : g.inner.nextId ≤ c := Nat.le_trans hstep.nextId hc
    have hsame := hstep.others c fun hmem =>
      absurd (hinv.lt_nextId (List.mem_of_getElem? htask) hmem) (Nat.not_lt.mpr hle)
    obtain ⟨hexecuted, hqueued⟩ := hs.fresh c hle
    exact ⟨hsame.executed.trans hexecuted, hsame.queued.trans hqueued⟩

theorem Sessions.same (hs : Sessions g) (hsame : ∀ c, SameSession g.inner p' c)
    (hidle : p'.idle = g.inner.idle) (hnext : p'.nextId = g.inner.nextId) :
    Sessions { g with inner := p' } where
  tasks t ht := SameSession.fine (fun c _ => hsame c) (hs.tasks t ht)
  idle entry hentry := (hsame _).outside (hs.idle entry (hidle ▸ hentry))
  fresh c hc := by
    obtain ⟨hexecuted, hqueued⟩ := hs.fresh c (hnext ▸ hc)
    exact ⟨(hsame c).executed.trans hexecuted, (hsame c).queued.trans hqueued⟩

theorem Sessions.break (hs : Sessions g) (conn : Nat) : Sessions
    { g with inner := { g.inner with broken := Function.update g.inner.broken conn true } } where
  tasks t ht := by
    have hfine := hs.tasks t ht
    have breaks {d : Nat} (hout : Outside g.inner d) : Outside
        { g.inner with broken := Function.update g.inner.broken conn true } d := by
      intro hbroken
      by_cases hd : d = conn
      · simp [hd] at hbroken
      · exact hout (by simpa [Function.update_of_ne hd] using hbroken)
    cases t with
    | checkedOut c holder streams =>
      cases holder with
      | beginning ticket =>
        intro hbroken
        by_cases hd : c.id = conn
        · simp [hd] at hbroken
        · have hopen : g.inner.broken c.id = false := by
            simpa [Function.update_of_ne hd] using hbroken
          obtain ⟨pre, post, hqueued, hticket, hclosed, hpost⟩ | ⟨answer, hexecuted, hopened⟩ :=
            hfine hopen
          · exact .waiting pre post hqueued hticket hclosed hpost
          · exact .answered answer hexecuted hopened
      | transaction => trivial
      | _ => exact fun c hc => breaks (hfine c hc)
    | _ => exact fun c hc => breaks (hfine c hc)
  idle entry hentry := by
    intro hbroken
    by_cases hd : entry.conn.id = conn
    · simp [hd] at hbroken
    · exact hs.idle entry hentry (by simpa [Function.update_of_ne hd] using hbroken)
  fresh := hs.fresh

theorem Sessions.step (hs : Sessions g) (hinv : Inv cfg g) (hcond : ¬ g.LosesEnd event)
    (hstep : Pool.step cfg g event = some h) : Sessions h := by
  cases event with
  | get =>
    obtain rfl := Option.some.inj hstep
    exact hs.spawn rfl
  | close =>
    obtain rfl := Option.some.inj hstep
    exact hs.spawn rfl
  | task i action =>
    obtain ⟨task, task', p', htask, hmove, rfl⟩ := step_task hstep
    have hfine := hs.tasks task (List.mem_of_getElem? htask)
    refine hs.setTask hinv htask ((taskStep_of_stepTask hmove).session hfine hs.idle
      (fun c hc => hs.outside_fresh hc) fun habandon => ?_)
    exact hcond ⟨task, htask, habandon⟩
  | tick time =>
    obtain rfl := Option.some.inj hstep
    exact hs.same (fun c => ⟨rfl, rfl, rfl⟩) rfl rfl
  | «break» conn =>
    obtain rfl := Option.some.inj hstep
    exact hs.break conn
  | serve conn answer =>
    obtain ⟨p', hserve, rfl⟩ := Option.map_eq_some_iff.mp hstep
    obtain ⟨hidle, -, hnext, -, -⟩ := serve_inner hserve
    refine ⟨fun t ht => fine_serve hserve hcond (hs.tasks t ht), fun entry hentry => ?_,
      fun c hc => ?_⟩
    · exact outside_serve hserve hcond (hs.idle entry (hidle ▸ hentry))
    · obtain ⟨hexecuted, hqueued⟩ := hs.fresh c (hnext ▸ hc)
      have hcne : c ≠ conn := by
        rintro rfl
        obtain ⟨statement, rest, hcons, -⟩ := serve_eq_some hserve
        simp [hqueued] at hcons
      have hsame := sameSession_serve hserve hcne
      exact ⟨hsame.executed.trans hexecuted, hsame.queued.trans hqueued⟩
  | endBorrowed conn =>
    obtain rfl := Option.some.inj hstep
    exact hs.same (fun c => ⟨rfl, rfl, rfl⟩) rfl rfl

/-- As long as no future of `begin` is dropped before it has failed and the server refuses no
request that ends an open transaction, the requests queued on a connection in the idle list
leave no transaction open. -/
theorem idle_settled {events : List Event}
    (hcond : Throughout (Pool.step cfg) (fun g event => ¬ g.LosesEnd event) (fromConfig cfg)
      events)
    (hrun : exec (Pool.step cfg) (fromConfig cfg) events = some g) :
    ∀ entry ∈ g.inner.idle, g.inner.broken entry.conn.id = false →
      g.inner.Settled entry.conn.id := by
  have hs : Sessions g := by
    refine run_rule (P := fun _ => Sessions) sessions_fromConfig ?_ hcond hrun
    intro events t event u hexec hs hcond hstep
    exact hs.step (inv_of_exec hexec) hcond hstep
  exact hs.idle

theorem not_losesEnd (hcancel : ∀ i, event ≠ .task i .cancel)
    (hserve : ∀ c, event ≠ .serve c .refused) : ¬ g.LosesEnd event := by
  cases event with
  | task i action =>
    rintro ⟨task, -, habandon⟩
    cases task with
    | checkedOut conn holder streams =>
      cases holder <;> cases action <;> simp_all [AbandonsBegin]
    | _ => simp [AbandonsBegin] at habandon
  | serve conn answer =>
    rintro ⟨rfl, -⟩
    exact hserve conn rfl
  | _ => exact id

/-- A transaction is opened and dropped; its connection is put back. -/
theorem idle_settled_dropped : ∃ g, exec (Pool.step ⟨2, 1, 10, 10⟩) (fromConfig ⟨2, 1, 10, 10⟩)
    [.task 0 .acquire, .task 0 .connected, .task 0 .run, .get, .task 1 .run, .task 1 .run,
      .task 1 .begin, .serve 0 .done, .task 1 .run, .task 1 .dropHandle, .task 1 .run,
      .task 1 .run] = some g ∧
    ∀ entry ∈ g.inner.idle, g.inner.broken entry.conn.id = false →
      g.inner.Settled entry.conn.id := by
  have hexec : ∃ g, exec (Pool.step ⟨2, 1, 10, 10⟩) (fromConfig ⟨2, 1, 10, 10⟩)
      [.task 0 .acquire, .task 0 .connected, .task 0 .run, .get, .task 1 .run, .task 1 .run,
        .task 1 .begin, .serve 0 .done, .task 1 .run, .task 1 .dropHandle, .task 1 .run,
        .task 1 .run] = some g := ⟨_, rfl⟩
  obtain ⟨g, hrun⟩ := hexec
  refine ⟨g, hrun, idle_settled (fun pre event post t hevents _ => ?_) hrun⟩
  have hmem : event ∈ pre ++ event :: post := by simp
  rw [← hevents] at hmem
  simp only [List.mem_cons, List.not_mem_nil, or_false] at hmem
  refine not_losesEnd (fun i => ?_) fun c => ?_ <;>
    obtain rfl | rfl | rfl | rfl | rfl | rfl | rfl | rfl | rfl | rfl | rfl | rfl := hmem <;> simp

/-- A future of `begin` is dropped after its `BEGIN` is queued. -/
theorem idle_unsettled : ¬ ∀ (cfg : PoolConfig) (events : List Event) (g : Pool),
    exec (Pool.step cfg) (fromConfig cfg) events = some g →
    ∀ entry ∈ g.inner.idle, g.inner.broken entry.conn.id = false →
      g.inner.Settled entry.conn.id := by
  intro hsettled
  have hrun := hsettled ⟨2, 0, 10, 10⟩ [.get, .task 1 .run, .task 1 .run, .task 1 .run,
    .task 1 .run, .task 1 .run, .task 1 .acquire, .task 1 .run, .task 1 .connected,
    .task 1 .begin, .task 1 .cancel, .task 1 .run, .task 1 .run] _ rfl
  have hopen := hrun ⟨⟨0, 0⟩, 0⟩ (List.mem_singleton_self _) rfl [.done] rfl (by decide)
  exact absurd hopen (by decide)

/-- The server refuses to prepare a `COMMIT`; the transaction counts as finished. -/
theorem idle_unsettled_refused : ∃ g, exec (Pool.step ⟨2, 0, 10, 10⟩) (fromConfig ⟨2, 0, 10, 10⟩)
    [.get, .task 1 .run, .task 1 .run, .task 1 .run, .task 1 .run, .task 1 .run, .task 1 .acquire,
      .task 1 .run, .task 1 .connected, .task 1 .begin, .serve 0 .done, .task 1 .run,
      .task 1 .commit, .serve 0 .refused, .task 1 .run, .task 1 .run, .task 1 .run] = some g ∧
    g.inner.idle = [⟨⟨0, 0⟩, 0⟩] ∧ g.inner.queued 0 = [] ∧ g.inner.session 0 = true :=
  ⟨_, rfl, rfl, rfl, rfl⟩

end Pool

end Stdx.Postgresql
