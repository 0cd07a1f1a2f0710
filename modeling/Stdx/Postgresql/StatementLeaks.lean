import Stdx.Postgresql.Statements

/-!
# What the server holds

`Kept` says that every statement the server holds is in the cache or waits to be closed.
The moves between the two lose no name; the exits between draining the queue and sending
the request, and between the `Parse` and the cache, do.
-/

namespace Stdx.Postgresql

open Stdx.Foundation

/-! ## The map -/

theorem swapRemoveIndex_perm {α : Type} {entries : List α} {i : Nat} (h : i < entries.length) :
    entries.Perm (entries[i] :: swapRemoveIndex entries i) := by
  obtain ⟨front, last, rfl⟩ : ∃ front last, entries = front ++ [last] := by
    refine ⟨entries.dropLast, entries.getLast (List.ne_nil_of_length_pos (by omega)), ?_⟩
    rw [List.dropLast_concat_getLast]
  rw [swapRemoveIndex, List.getLast?_concat]
  simp only
  rw [List.length_append, List.length_singleton] at h
  by_cases hi : i < front.length
  · rw [List.set_append_left _ _ hi, List.dropLast_concat, List.getElem_append_left hi]
    have hset := List.set_perm_cons_eraseIdx hi last
    have hget := List.getElem_cons_eraseIdx_perm hi
    calc (front ++ [last]).Perm (last :: front) := List.perm_append_singleton last front
      List.Perm _ (last :: front[i] :: front.eraseIdx i) := hget.symm.cons last
      List.Perm _ (front[i] :: last :: front.eraseIdx i) := List.Perm.swap _ _ _
      List.Perm _ (front[i] :: front.set i last) := hset.symm.cons _
  · obtain rfl : i = front.length := by omega
    rw [List.set_append_right _ _ (Nat.le_refl _), Nat.sub_self, List.set_cons_zero,
      List.dropLast_concat, List.getElem_append_right (Nat.le_refl _)]
    simp

namespace Cache

def keys (cache : Cache) : List Nat :=
  cache.map Prod.fst

theorem mem_names_of_perm {cache rest : Cache} {entry : Nat × CachedStatement} {name : UInt64}
    (h : cache.Perm (entry :: rest)) (hname : name ∈ cache.names) :
    name = entry.2.name ∨ name ∈ rest.names := by
  have hmem := (h.map fun entry => entry.2.name).mem_iff.mp hname
  exact List.mem_cons.mp hmem

theorem keys_of_perm {cache rest : Cache} {entry : Nat × CachedStatement}
    (h : cache.Perm (entry :: rest)) (hkeys : cache.keys.Nodup) :
    entry.1 ∉ rest.keys ∧ rest.keys.Nodup := by
  have hnodup := (h.map Prod.fst).nodup_iff.mp hkeys
  exact List.nodup_cons.mp hnodup

theorem swapRemove_cases (cache : Cache) (hash : Nat) :
    cache.swapRemove hash = (none, cache) ∨
      ∃ cached rest, cache.swapRemove hash = (some cached, rest) ∧
        cache.Perm ((hash, cached) :: rest) := by
  unfold swapRemove
  cases hfind : cache.findIdx? fun entry => entry.1 = hash with
  | none => exact .inl rfl
  | some i =>
    obtain ⟨hi, hkey, _⟩ := List.findIdx?_eq_some_iff_getElem.mp hfind
    have hkey : cache[i].1 = hash := by simpa using hkey
    refine .inr ⟨cache[i].2, swapRemoveIndex cache i, ?_, ?_⟩
    · simp [hi]
    · rw [← hkey]
      exact swapRemoveIndex_perm hi

theorem insert_cases (cache : Cache) (hash : Nat) (cached : CachedStatement) :
    (hash ∉ cache.keys ∧ cache.insert hash cached = (none, cache ++ [(hash, cached)])) ∨
      ∃ old inserted rest, cache.insert hash cached = (some old, inserted) ∧
        cache.Perm ((hash, old) :: rest) ∧ inserted.Perm ((hash, cached) :: rest) := by
  unfold insert
  cases hfind : cache.findIdx? fun entry => entry.1 = hash with
  | none =>
    refine .inl ⟨?_, rfl⟩
    intro hmem
    obtain ⟨entry, hentry, hkey⟩ := List.mem_map.mp hmem
    have := List.findIdx?_eq_none_iff.mp hfind entry hentry
    simp [hkey] at this
  | some i =>
    obtain ⟨hi, hkey, _⟩ := List.findIdx?_eq_some_iff_getElem.mp hfind
    have hkey : cache[i].1 = hash := by simpa using hkey
    refine .inr ⟨cache[i].2, cache.set i (hash, cached), cache.eraseIdx i, by simp [hi], ?_, ?_⟩
    · rw [← hkey]
      exact (List.getElem_cons_eraseIdx_perm hi).symm
    · exact List.set_perm_cons_eraseIdx hi _

end Cache

/-! ## The invariant -/

def Session.Holds (s : Session) (name : UInt64) : Prop :=
  name ∈ s.cache.names ∨ name ∈ s.pendingCloses

def Session.Kept (s : Session) : Prop :=
  ∀ name ∈ s.opened, s.Holds name

structure Session.Sound (s : Session) : Prop where
  kept : s.Kept
  bounded : s.cache.length ≤ s.cacheSize
  keys : s.cache.keys.Nodup
  distinct : s.opened.Nodup

theorem Session.Sound.opened_length {s : Session} (h : s.Sound) :
    s.opened.length ≤ s.cacheSize + s.pendingCloses.length := by
  have hsub : s.opened ⊆ s.cache.names ++ s.pendingCloses := by
    intro name hname
    exact List.mem_append.mpr (h.kept name hname)
  have hlength := (h.distinct.subperm hsub).length_le
  have hbounded := h.bounded
  rw [List.length_append, Cache.names, List.length_map] at hlength
  omega

/-! ## Moves -/

theorem evictFrom_spec (cacheSize fuel : Nat) (cache : Cache) (pendingCloses : List UInt64)
    (hfuel : cache.length ≤ cacheSize + fuel) (hkeys : cache.keys.Nodup) :
    (∀ name, name ∈ cache.names ∨ name ∈ pendingCloses →
      name ∈ (evictFrom cacheSize fuel cache pendingCloses).1.names ∨
        name ∈ (evictFrom cacheSize fuel cache pendingCloses).2) ∧
      (evictFrom cacheSize fuel cache pendingCloses).1.length ≤ cacheSize ∧
      (evictFrom cacheSize fuel cache pendingCloses).1.keys.Nodup := by
  induction fuel generalizing cache pendingCloses with
  | zero => exact ⟨fun _ h => h, hfuel, hkeys⟩
  | succ fuel ih =>
    rw [evictFrom]
    by_cases hfull : cacheSize < cache.length
    · have hzero : 0 < cache.length := by omega
      have hperm := swapRemoveIndex_perm hzero
      have hlength := hperm.length_eq
      rw [List.length_cons] at hlength
      rw [if_pos hfull, List.getElem?_eq_getElem hzero]
      obtain ⟨hnames, hrest⟩ := ih (swapRemoveIndex cache 0)
        (pendingCloses ++ [cache[0].2.name]) (by omega) (Cache.keys_of_perm hperm hkeys).2
      refine ⟨fun name hname => hnames name ?_, hrest⟩
      rcases hname with hname | hname
      · rcases Cache.mem_names_of_perm hperm hname with rfl | hname
        · exact .inr (by simp)
        · exact .inl hname
      · exact .inr (by simp [hname])
    · rw [if_neg hfull]
      exact ⟨fun _ h => h, by simp only; omega, hkeys⟩

theorem evict_spec (s : Session) (hkeys : s.cache.keys.Nodup) :
    (∀ name, s.Holds name → s.evict.Holds name) ∧ s.evict.cache.length ≤ s.cacheSize ∧
      s.evict.cache.keys.Nodup :=
  evictFrom_spec s.cacheSize s.cache.length s.cache s.pendingCloses (by omega) hkeys

variable (key : Bytes → List UInt32 → Nat)

theorem insert_holds {cache : Cache} (hash : Nat) (cached : CachedStatement)
    (hkeys : cache.keys.Nodup) :
    (cache.insert hash cached).2.keys.Nodup ∧
      cached.name ∈ (cache.insert hash cached).2.names ∧
      ∀ name ∈ cache.names, name ∈ (cache.insert hash cached).2.names ∨
        ∃ old, (cache.insert hash cached).1 = some old ∧ name = old.name := by
  obtain ⟨hnew, heq⟩ | ⟨old, inserted, rest, heq, hperm, hinserted⟩ :=
    Cache.insert_cases cache hash cached
  · rw [heq]
    refine ⟨?_, by simp [Cache.names], fun name hname => .inl ?_⟩
    · have : (cache ++ [(hash, cached)]).Perm ((hash, cached) :: cache) :=
        List.perm_append_singleton _ _
      exact (this.map Prod.fst).nodup_iff.mpr (List.nodup_cons.mpr ⟨hnew, hkeys⟩)
    · simp only [Cache.names, List.map_append, List.mem_append]
      exact .inl hname
  · rw [heq]
    have hmem := fun name => (hinserted.map fun entry => entry.2.name).mem_iff (a := name)
    refine ⟨?_, (hmem _).mpr (by simp), ?_⟩
    · exact (hinserted.map Prod.fst).nodup_iff.mpr
        (List.nodup_cons.mpr (@Cache.keys_of_perm _ _ (hash, old) hperm hkeys))
    · intro name hname
      rcases Cache.mem_names_of_perm hperm hname with rfl | hname
      · exact .inr ⟨old, rfl, rfl⟩
      · exact .inl ((hmem _).mpr (List.mem_cons_of_mem _ hname))

theorem touch_spec (s : Session) (query : Query) (h : s.Sound) : (s.touch key query).Sound ∧
    (s.touch key query).pendingCloses = s.pendingCloses := by
  unfold Session.touch
  simp only
  obtain heq | ⟨cached, rest, heq, hperm⟩ :=
    Cache.swapRemove_cases s.cache (key query.sql query.oids)
  · rw [heq]
    exact ⟨h, rfl⟩
  · rw [heq]
    obtain ⟨hnew, hrest⟩ := Cache.keys_of_perm hperm h.keys
    obtain ⟨hkeys, hname, hnames⟩ := insert_holds (key query.sql query.oids) cached hrest
    obtain ⟨_, hinsert⟩ | ⟨_, _, _, hinsert, hother, _⟩ :=
      Cache.insert_cases rest (key query.sql query.oids) cached
    · have hlength := hperm.length_eq
      have hbounded := h.bounded
      refine ⟨⟨?_, ?_, hkeys, h.distinct⟩, rfl⟩
      · intro name hopened
        rcases h.kept name hopened with hcached | hpending
        · rcases Cache.mem_names_of_perm hperm hcached with rfl | hcached
          · exact .inl hname
          · rcases hnames name hcached with hmem | ⟨old, hold, _⟩
            · exact .inl hmem
            · rw [hinsert] at hold
              simp at hold
        · exact .inr hpending
      · simp only [hinsert, List.length_append, List.length_cons, List.length_nil] at hlength ⊢
        omega
    · have hmem := (hother.map Prod.fst).mem_iff (a := key query.sql query.oids)
      exact absurd (hmem.mpr (by simp)) hnew

theorem remember_spec (s : Session) (query : Query) (name : UInt64) (hkeys : s.cache.keys.Nodup) :
    (∀ other, s.Holds other ∨ other = name → (s.remember key query name).Holds other) ∧
      (s.remember key query name).cache.length ≤ s.cacheSize ∧
      (s.remember key query name).cache.keys.Nodup := by
  obtain ⟨hnodup, hname, hnames⟩ := insert_holds (key query.sql query.oids)
    ⟨query.sql, query.oids, name⟩ hkeys
  unfold Session.remember
  simp only
  cases hinsert : (s.cache.insert (key query.sql query.oids) ⟨query.sql, query.oids, name⟩).1 with
  | none =>
    obtain ⟨hholds, hrest⟩ := evict_spec { s with cache := (s.cache.insert
      (key query.sql query.oids) ⟨query.sql, query.oids, name⟩).2 } hnodup
    refine ⟨fun other hother => hholds other ?_, hrest⟩
    rcases hother with (hcached | hpending) | rfl
    · rcases hnames other hcached with hmem | ⟨old, hold, _⟩
      · exact .inl hmem
      · rw [hinsert] at hold
        simp at hold
    · exact .inr hpending
    · exact .inl hname
  | some old =>
    obtain ⟨hholds, hrest⟩ := evict_spec { s with
      cache := (s.cache.insert (key query.sql query.oids) ⟨query.sql, query.oids, name⟩).2
      pendingCloses := s.pendingCloses ++ [old.name] } hnodup
    refine ⟨fun other hother => hholds other ?_, hrest⟩
    rcases hother with (hcached | hpending) | rfl
    · rcases hnames other hcached with hmem | ⟨displaced, hold, rfl⟩
      · exact .inl hmem
      · rw [hinsert, Option.some.injEq] at hold
        rw [← hold]
        exact .inr (by simp)
    · exact .inr (by simp [hpending])
    · exact .inl hname

theorem forget_spec (s : Session) (query : Query) (h : s.Sound) :
    (s.forget key query).Sound := by
  unfold Session.forget
  simp only
  obtain heq | ⟨cached, rest, heq, hperm⟩ :=
    Cache.swapRemove_cases s.cache (key query.sql query.oids)
  · rw [heq]
    exact h
  · rw [heq]
    have hlength := hperm.length_eq
    have hbounded := h.bounded
    rw [List.length_cons] at hlength
    refine ⟨?_, by simp only; omega, (Cache.keys_of_perm hperm h.keys).2, h.distinct⟩
    intro name hopened
    rcases h.kept name hopened with hcached | hpending
    · rcases Cache.mem_names_of_perm hperm hcached with rfl | hcached
      · exact .inr (by simp)
      · exact .inl hcached
    · exact .inr (by simp [hpending])

/-! ## What fits -/

def Query.ParseFits (query : Query) (name : UInt64) : Prop :=
  (Frontend.Call.parse (statementName name) query.sql query.oids).Fits

def bindBody (query : Query) (name : UInt64) : Bytes :=
  Frontend.cstr [] ++ Frontend.cstr (statementName name) ++ u16Octets query.oids.length ++
    (List.replicate query.oids.length (u16Octets Frontend.Format.binary.code)).flatten ++
    u16Octets query.oids.length ++ query.values ++
    (u16Octets 1 ++ u16Octets Frontend.Format.binary.code)

def Query.BindFits (query : Query) (name : UInt64) : Prop :=
  query.oids.length < 2 ^ 16 ∧ 4 + (bindBody query name).length < 2 ^ 31

theorem statementName_length (name : UInt64) : (statementName name).length ≤ 21 := by
  have hlt : name.toNat < 10 ^ 20 := by
    have := name.toNat_lt
    omega
  have hdigits := (Nat.length_toDigits_le_iff (by omega) (by omega)).mpr hlt
  rw [statementName, List.length_cons, List.length_map]
  omega

theorem encode_ok {buf : Bytes} {call : Frontend.Call} (h : call.Fits) :
    ∃ next, call.encode buf = (next, .ok ()) := by
  obtain ⟨_, hencode⟩ | ⟨hlarge, _⟩ := Frontend.encode_cases buf call
  · exact ⟨_, hencode⟩
  · exact absurd h hlarge

theorem close_ok (buf : Bytes) (name : UInt64) :
    ∃ next, Frontend.close buf 0x53 (statementName name) = (next, .ok ()) := by
  have hlength := statementName_length name
  apply @encode_ok _ (.close 0x53 (statementName name))
  refine ⟨?_, trivial⟩
  simp only [Frontend.Call.body, Frontend.cstr, List.length_cons, List.length_append,
    List.length_nil]
  omega

theorem describe_ok (buf : Bytes) (name : UInt64) :
    ∃ next, Frontend.describe buf 0x53 (statementName name) = (next, .ok ()) := by
  have hlength := statementName_length name
  apply @encode_ok _ (.describe 0x53 (statementName name))
  refine ⟨?_, trivial⟩
  simp only [Frontend.Call.body, Frontend.cstr, List.length_cons, List.length_append,
    List.length_nil]
  omega

theorem sync_ok (buf : Bytes) : (Frontend.sync buf).2 = .ok () := by
  obtain ⟨next, h⟩ := @encode_ok buf .sync ⟨by decide, trivial⟩
  have : Frontend.sync buf = (next, .ok ()) := h
  rw [this]

theorem execute_ok (buf : Bytes) (maxRows : Int32) :
    ∃ next, Frontend.execute buf [] maxRows = (next, .ok ()) := by
  apply @encode_ok _ (.execute [] maxRows)
  refine ⟨?_, trivial⟩
  simp only [Frontend.Call.body, Frontend.cstr, List.length_append, i32Octets_length,
    List.length_nil, List.length_cons]
  omega

theorem encodeCloses_ok (buf : Bytes) (names : List UInt64) :
    ∃ next, encodeCloses buf names = (next, .ok ()) := by
  induction names generalizing buf with
  | nil => exact ⟨buf, rfl⟩
  | cons name names ih =>
    obtain ⟨next, hclose⟩ := close_ok buf name
    rw [encodeCloses, andThen, hclose]
    exact ih next

theorem encodePrepare_iff (closes : List UInt64) (name : UInt64) (query : Query) :
    (encodePrepare closes name query).2 = .ok () ↔ query.ParseFits name := by
  obtain ⟨buf, hcloses⟩ := encodeCloses_ok [] closes
  rw [encodePrepare, andThen, hcloses]
  simp only
  obtain ⟨hfits, hencode⟩ | ⟨hlarge, err, herr⟩ := Frontend.encode_cases buf
    (.parse (statementName name) query.sql query.oids)
  · have hparse : Frontend.parse buf (statementName name) query.sql query.oids = _ := hencode
    obtain ⟨next, hdescribe⟩ := describe_ok (buf ++ Frontend.frame _ _) name
    rw [andThen, hparse]
    simp only
    rw [andThen, hdescribe]
    simp only [sync_ok, true_iff]
    exact hfits
  · have hparse : (Frontend.parse buf (statementName name) query.sql query.oids).2 = .error err :=
      herr
    rw [andThen, hparse]
    simp only [reduceCtorEq, false_iff]
    exact hlarge

theorem encodeExecute_ok (closes : List UInt64) {name : UInt64} {query : Query}
    (h : query.BindFits name) : (encodeExecute closes name query).2 = .ok () := by
  obtain ⟨buf, hcloses⟩ := encodeCloses_ok [] closes
  obtain ⟨hcount, hlength⟩ := h
  rw [encodeExecute, andThen, hcloses]
  simp only
  have hbind : ∃ next, encodeBind buf name query = (next, .ok ()) := by
    have hfinish := Frontend.finish_begin buf 0x42 (bindBody query name)
    simp only [encodeBind, Frontend.bindStart, Frontend.count16, if_pos hcount,
      Frontend.bindFinish]
    simp only [bindBody, List.append_assoc] at hfinish hlength ⊢
    obtain ⟨_, hok⟩ | ⟨hlarge, _⟩ := hfinish
    · exact ⟨_, hok⟩
    · exact absurd hlength hlarge
  obtain ⟨bound, hbind⟩ := hbind
  obtain ⟨next, hexecute⟩ := execute_ok bound query.maxRows
  rw [andThen, hbind]
  simp only
  rw [andThen, hexecute]
  exact sync_ok next

/-! ## Careful requests -/

/-- The replies reach `ReadyForQuery` without an error. -/
def EndsWell : List Reply → Prop
  | [] => False
  | .readyForQuery :: _ => True
  | .serverError _ :: _ => False
  | .failure _ :: _ => False
  | _ :: replies => EndsWell replies

theorem prepareReplies_endsWell {replies : List Reply} (h : EndsWell replies) :
    prepareReplies replies none = some (.ok ()) := by
  induction replies with
  | nil => exact absurd h id
  | cons reply replies ih =>
    cases reply with
    | readyForQuery => rfl
    | serverError db => exact absurd h id
    | failure err => exact absurd h id
    | parseComplete => exact ih h
    | dataRow => exact ih h
    | copyInResponse => exact ih h
    | copyOutResponse => exact ih h
    | other => exact ih h

/-- With closes queued the request is sent, and a statement the server accepts is followed by
no error. -/
structure PrepareCareful (s : Session) (name : UInt64) (query : Query) (peer : Exchange) :
    Prop where
  sent : s.pendingCloses ≠ [] → query.ParseFits name ∧ peer.flushed = true
  accepted : query.ParseFits name → peer.parsed = true →
    peer.flushed = true ∧ EndsWell peer.replies

def ExecuteCareful (s : Session) (name : UInt64) (query : Query) : Prop :=
  s.pendingCloses ≠ [] → query.BindFits name

def AttemptCareful (s : Session) (query : Query) (peer : Attempt) : Prop :=
  match s.lookup key query with
  | some cached => ExecuteCareful s cached.name query
  | none =>
    PrepareCareful s (s.statementCounter + 1) query peer.exchange ∧
      ExecuteCareful ({ s with pendingCloses := [] }.remember key query (s.statementCounter + 1))
        (s.statementCounter + 1) query

/-- Both attempts are careful; the second starts from the state the first leaves. -/
def Careful (s : Session) (request : Request) : Prop :=
  s.broken = false → AttemptCareful key s request.query request.first ∧
    ∀ err rowsSent t,
      attemptQuery key s request.query request.first = some (.error (err, rowsSent), t) →
      shouldRetry 1 rowsSent err = true →
      AttemptCareful key (t.forget key request.query) request.query request.second

/-! ## Steps -/

theorem mem_closed {s : Session} {names : List UInt64} {name : UInt64}
    (h : name ∈ (s.closed names).opened) : name ∈ s.opened ∧ name ∉ names := by
  simpa [Session.closed] using h

theorem mem_parsed {s : Session} {name other : UInt64} {accepted : Bool}
    (h : other ∈ (s.parsed name accepted).opened) :
    other ∈ s.opened ∨ accepted = true ∧ other = name := by
  unfold Session.parsed at h
  cases accepted with
  | true =>
    rw [if_pos rfl] at h
    rcases List.mem_insert_iff.mp h with rfl | h
    · exact .inr ⟨rfl, rfl⟩
    · exact .inl h
  | false => exact .inl h

theorem parsed_nodup {s : Session} (name : UInt64) (accepted : Bool) (h : s.opened.Nodup) :
    (s.parsed name accepted).opened.Nodup := by
  unfold Session.parsed
  split
  · exact h.insert
  · exact h

@[simp] theorem parsed_cache (s : Session) (name : UInt64) (accepted : Bool) :
    (s.parsed name accepted).cache = s.cache := by
  unfold Session.parsed
  split <;> rfl

@[simp] theorem parsed_cacheSize (s : Session) (name : UInt64) (accepted : Bool) :
    (s.parsed name accepted).cacheSize = s.cacheSize := by
  unfold Session.parsed
  split <;> rfl

@[simp] theorem parsed_pendingCloses (s : Session) (name : UInt64) (accepted : Bool) :
    (s.parsed name accepted).pendingCloses = s.pendingCloses := by
  unfold Session.parsed
  split <;> rfl

@[simp] theorem parsed_broken (s : Session) (name : UInt64) (accepted : Bool) :
    (s.parsed name accepted).broken = s.broken := by
  unfold Session.parsed
  split <;> rfl

theorem Session.Sound.cached {s : Session} (h : s.Sound) {names : List UInt64} {name : UInt64}
    (hall : s.pendingCloses ≠ [] → names = s.pendingCloses)
    (hname : name ∈ (s.closed names).opened) : name ∈ s.cache.names := by
  obtain ⟨hopened, hclosed⟩ := mem_closed hname
  rcases h.kept name hopened with hcached | hpending
  · exact hcached
  · rw [hall (List.ne_nil_of_mem hpending)] at hclosed
    exact absurd hpending hclosed

theorem prepare_frame {s t : Session} {name : UInt64} {query : Query} {peer : Exchange}
    {result : Except Error Unit} (h : prepare s name query peer = some (result, t)) :
    t.cache = s.cache ∧ t.cacheSize = s.cacheSize ∧ t.pendingCloses = [] ∧
      t.broken = s.broken := by
  unfold prepare at h
  simp only at h
  split at h
  · simp only [Option.some.injEq, Prod.mk.injEq] at h
    rw [← h.2]
    exact ⟨rfl, rfl, rfl, rfl⟩
  · split at h
    · obtain ⟨_, _, heq⟩ := Option.map_eq_some_iff.mp h
      rw [← (Prod.mk.inj heq).2]
      simp [Session.closed]
    · simp only [Option.some.injEq, Prod.mk.injEq] at h
      rw [← h.2]
      simp [Session.closed]

theorem prepare_spec {s t : Session} {name : UInt64} {query : Query} {peer : Exchange}
    {result : Except Error Unit} (hs : s.Sound) (hcareful : PrepareCareful s name query peer)
    (h : prepare s name query peer = some (result, t)) :
    t.opened.Nodup ∧
      ∀ other ∈ t.opened, other ∈ s.cache.names ∨ result = .ok () ∧ other = name := by
  have hiff := encodePrepare_iff s.pendingCloses name query
  have hdistinct : ∀ names, ({ s with pendingCloses := [] }.closed names).opened.Nodup :=
    fun names => hs.distinct.filter _
  unfold prepare at h
  simp only at h
  cases hencode : (encodePrepare s.pendingCloses name query).2 with
  | error err =>
    have hlarge : ¬query.ParseFits name := by
      rw [← hiff, hencode]
      simp
    have hempty : s.pendingCloses = [] := by
      by_contra hqueued
      exact hlarge (hcareful.sent hqueued).1
    rw [hencode] at h
    simp only [Option.some.injEq, Prod.mk.injEq] at h
    obtain ⟨rfl, rfl⟩ := h
    refine ⟨hs.distinct, fun other hother => .inl ?_⟩
    rcases hs.kept other hother with hcached | hpending
    · exact hcached
    · rw [hempty] at hpending
      simp at hpending
  | ok _ =>
    have hfits := hiff.mp hencode
    rw [hencode] at h
    simp only at h
    split at h
    · obtain ⟨ended, hreplies, heq⟩ := Option.map_eq_some_iff.mp h
      obtain ⟨rfl, rfl⟩ := Prod.mk.inj heq
      refine ⟨parsed_nodup _ _ (hdistinct _), fun other hother => ?_⟩
      rcases mem_parsed hother with hclosed | ⟨hparsed, rfl⟩
      · exact .inl (hs.cached (fun _ => rfl) hclosed)
      · have hends := (hcareful.accepted hfits hparsed).2
        rw [prepareReplies_endsWell hends, Option.some.injEq] at hreplies
        exact .inr ⟨hreplies.symm, rfl⟩
    · next hflushed =>
      simp only [Option.some.injEq, Prod.mk.injEq] at h
      obtain ⟨rfl, rfl⟩ := h
      refine ⟨parsed_nodup _ _ (hdistinct _), fun other hother => ?_⟩
      rcases mem_parsed hother with hclosed | ⟨hparsed, rfl⟩
      · exact .inl (hs.cached (fun hqueued => absurd (hcareful.sent hqueued).2 hflushed) hclosed)
      · exact absurd (hcareful.accepted hfits hparsed).1 hflushed

theorem execute_spec {s t : Session} {name : UInt64} {query : Query} {peer : Execution}
    {result : Except (Error × Bool) Unit} (hs : s.Sound) (hcareful : ExecuteCareful s name query)
    (h : execute s name query peer = some (result, t)) : t.broken = false → t.Sound := by
  intro hbroken
  unfold execute at h
  simp only at h
  cases hencode : (encodeExecute s.pendingCloses name query).2 with
  | error err =>
    have hempty : s.pendingCloses = [] := by
      by_contra hqueued
      rw [encodeExecute_ok _ (hcareful hqueued)] at hencode
      simp at hencode
    rw [hencode] at h
    simp only [Option.some.injEq, Prod.mk.injEq] at h
    obtain ⟨_, rfl⟩ := h
    refine ⟨fun other hother => ?_, hs.bounded, hs.keys, hs.distinct⟩
    rcases hs.kept other hother with hcached | hpending
    · exact .inl hcached
    · rw [hempty] at hpending
      simp at hpending
  | ok _ =>
    rw [hencode] at h
    simp only at h
    split at h
    · obtain ⟨ending, _, heq⟩ := Option.map_eq_some_iff.mp h
      obtain ⟨_, rfl⟩ := Prod.mk.inj heq
      exact ⟨fun other hother => .inl (hs.cached (fun _ => rfl) hother), hs.bounded, hs.keys,
        hs.distinct.filter _⟩
    · simp only [Option.some.injEq, Prod.mk.injEq] at h
      obtain ⟨_, rfl⟩ := h
      simp at hbroken

theorem execute_broken {s t : Session} {name : UInt64} {query : Query} {peer : Execution}
    {result : Except (Error × Bool) Unit} (h : execute s name query peer = some (result, t))
    (hbroken : t.broken = false) : s.broken = false := by
  unfold execute at h
  simp only at h
  split at h
  · simp only [Option.some.injEq, Prod.mk.injEq] at h
    rw [← h.2] at hbroken
    exact hbroken
  · split at h
    · obtain ⟨ending, _, heq⟩ := Option.map_eq_some_iff.mp h
      rw [← (Prod.mk.inj heq).2] at hbroken
      exact (Bool.or_eq_false_iff.mp hbroken).1
    · simp only [Option.some.injEq, Prod.mk.injEq] at h
      rw [← h.2] at hbroken
      simp at hbroken

theorem touch_broken (s : Session) (query : Query) : (s.touch key query).broken = s.broken := by
  unfold Session.touch
  simp only
  split <;> rfl

theorem forget_broken (s : Session) (query : Query) : (s.forget key query).broken = s.broken := by
  unfold Session.forget
  simp only
  split <;> rfl

theorem remember_broken (s : Session) (query : Query) (name : UInt64) :
    (s.remember key query name).broken = s.broken ∧
      (s.remember key query name).opened = s.opened ∧
      (s.remember key query name).cacheSize = s.cacheSize := by
  unfold Session.remember
  simp only
  split
  · exact ⟨rfl, rfl, rfl⟩
  · exact ⟨rfl, rfl, rfl⟩

theorem remember_pendingCloses {s t : Session} (query : Query) (name : UInt64)
    (hcache : t.cache = s.cache) (hsize : t.cacheSize = s.cacheSize)
    (hpending : t.pendingCloses = s.pendingCloses) :
    (t.remember key query name).pendingCloses = (s.remember key query name).pendingCloses := by
  unfold Session.remember
  simp only [hcache]
  split
  · simp only [Session.evict, hsize, hpending]
  · simp only [Session.evict, hsize, hpending]

theorem attemptQuery_broken {s t : Session} {query : Query} {peer : Attempt}
    {result : Except (Error × Bool) Unit}
    (h : attemptQuery key s query peer = some (result, t)) (hbroken : t.broken = false) :
    s.broken = false := by
  unfold attemptQuery at h
  split at h
  · have htouched := execute_broken h hbroken
    rwa [touch_broken] at htouched
  · simp only at h
    split at h
    · simp at h
    · next hprepare =>
      simp only [Option.some.injEq, Prod.mk.injEq] at h
      rw [← h.2, (prepare_frame hprepare).2.2.2] at hbroken
      exact hbroken
    · next hprepare =>
      have hremembered := execute_broken h hbroken
      rw [(remember_broken key _ query _).1, (prepare_frame hprepare).2.2.2] at hremembered
      exact hremembered

theorem attemptQuery_spec {s t : Session} {query : Query} {peer : Attempt}
    {result : Except (Error × Bool) Unit} (hs : s.Sound)
    (hcareful : AttemptCareful key s query peer)
    (h : attemptQuery key s query peer = some (result, t)) (hbroken : t.broken = false) :
    t.Sound := by
  unfold attemptQuery at h
  unfold AttemptCareful at hcareful
  cases hlookup : s.lookup key query with
  | some cached =>
    rw [hlookup] at h hcareful
    obtain ⟨hsound, hpending⟩ := touch_spec key s query hs
    refine execute_spec hsound ?_ h hbroken
    unfold ExecuteCareful
    rw [hpending]
    exact hcareful
  | none =>
    rw [hlookup] at h hcareful
    obtain ⟨hprepares, hexecutes⟩ := hcareful
    simp only at h
    have hcounted : ({ s with statementCounter := s.statementCounter + 1 } : Session).Sound :=
      ⟨hs.kept, hs.bounded, hs.keys, hs.distinct⟩
    split at h
    · simp at h
    · next err u hprepare =>
      simp only [Option.some.injEq, Prod.mk.injEq] at h
      obtain ⟨_, rfl⟩ := h
      obtain ⟨hcache, hsize, hpending, _⟩ := prepare_frame hprepare
      obtain ⟨hdistinct, hopened⟩ :=
        prepare_spec hcounted ⟨hprepares.sent, hprepares.accepted⟩ hprepare
      refine ⟨fun other hother => .inl ?_, ?_, ?_, hdistinct⟩
      · rcases hopened other hother with hcached | ⟨hok, _⟩
        · rw [hcache]
          exact hcached
        · simp at hok
      · rw [hcache, hsize]
        exact hs.bounded
      · rw [hcache]
        exact hs.keys
    · next u hprepare =>
      obtain ⟨hcache, hsize, hpending, _⟩ := prepare_frame hprepare
      obtain ⟨hdistinct, hopened⟩ :=
        prepare_spec hcounted ⟨hprepares.sent, hprepares.accepted⟩ hprepare
      obtain ⟨_, hsame, hsame'⟩ := remember_broken key u query (s.statementCounter + 1)
      have hkeys : u.cache.keys.Nodup := by
        rw [hcache]
        exact hs.keys
      obtain ⟨hholds, hbounded, hnodup⟩ :=
        remember_spec key u query (s.statementCounter + 1) hkeys
      have hsound : (u.remember key query (s.statementCounter + 1)).Sound := by
        refine ⟨fun other hother => hholds other ?_, ?_, hnodup, ?_⟩
        · rw [hsame] at hother
          rcases hopened other hother with hcached | ⟨_, rfl⟩
          · exact .inl (.inl (by rw [hcache]; exact hcached))
          · exact .inr rfl
        · rw [hsame']
          exact hbounded
        · rw [hsame]
          exact hdistinct
      refine execute_spec hsound ?_ h hbroken
      unfold ExecuteCareful at hexecutes ⊢
      rw [remember_pendingCloses key query (s.statementCounter + 1)
        (s := { s with pendingCloses := [] }) hcache hsize hpending]
      exact hexecutes

theorem serve_spec {s t : Session} {request : Request} (hs : s.broken = false → s.Sound)
    (hcareful : Careful key s request) (h : serveRequest key s request = some t)
    (hbroken : t.broken = false) : t.Sound := by
  unfold serveRequest at h
  cases hrunning : s.broken with
  | true =>
    rw [hrunning, if_pos rfl] at h
    cases h
    rw [hrunning] at hbroken
    simp at hbroken
  | false =>
    have hsound := hs hrunning
    obtain ⟨hfirst, hsecond⟩ := hcareful hrunning
    rw [hrunning, if_neg (by simp)] at h
    obtain ⟨⟨result, u⟩, hhandled, rfl⟩ := Option.map_eq_some_iff.mp h
    unfold handleQuery at hhandled
    split at hhandled
    · next err rowsSent mid hattempt =>
      split at hhandled
      · next hretry =>
        have hmid : mid.broken = false := by
          rw [← forget_broken key mid request.query]
          exact attemptQuery_broken key hhandled hbroken
        have hsoundMid := attemptQuery_spec key hsound hfirst hattempt hmid
        exact attemptQuery_spec key (forget_spec key mid request.query hsoundMid)
          (hsecond err rowsSent mid hattempt hretry) hhandled hbroken
      · simp only [Option.some.injEq, Prod.mk.injEq] at hhandled
        obtain ⟨_, rfl⟩ := hhandled
        exact attemptQuery_spec key hsound hfirst hattempt hbroken
    · exact attemptQuery_spec key hsound hfirst hhandled hbroken

/-- In a run of careful requests every statement the server holds is in the cache or queued,
so there are no more of them than both hold. -/
theorem statements_kept {cacheSize : Nat} (enabled : 0 < cacheSize) (requests : List Request)
    (hcareful : Throughout (serveRequest key) (Careful key) (.new cacheSize enabled) requests)
    {s : Session} (hrun : exec (serveRequest key) (.new cacheSize enabled) requests = some s)
    (hbroken : s.broken = false) :
    s.Kept ∧ s.opened.length ≤ s.cacheSize + s.pendingCloses.length := by
  have hsound : s.broken = false → s.Sound := by
    refine run_rule (P := fun _ s => s.broken = false → s.Sound) ?_ ?_ hcareful hrun
    · intro _
      exact ⟨by simp [Session.Kept, Session.new], Nat.zero_le _, List.nodup_nil, List.nodup_nil⟩
    · intro _ mid request t _ hmid hcare hserve
      exact serve_spec key hmid hcare hserve
  exact ⟨(hsound hbroken).kept, (hsound hbroken).opened_length⟩

def answered : Request :=
  let query : Query := ⟨[0x53], [], [], 0⟩
  let attempt : Attempt := ⟨⟨true, 0, true, [.parseComplete, .other, .readyForQuery]⟩,
    ⟨true, 0, true, [.other, .dataRow, .readyForQuery]⟩⟩
  ⟨query, attempt, attempt⟩

def interrupted : Request :=
  let query : Query := ⟨[0x53], [], [], 0⟩
  let attempt : Attempt := ⟨⟨true, 0, true, [.parseComplete,
      .serverError ⟨"57014", "canceling statement due to user request"⟩, .readyForQuery]⟩,
    ⟨true, 0, true, [.readyForQuery]⟩⟩
  ⟨query, attempt, attempt⟩

theorem statements_kept_answered :
    ∃ s, exec (serveRequest fun _ _ => 0) (.new 1 (by decide)) [answered] = some s ∧
      s.opened = [1] ∧ s.Kept := by
  refine ⟨_, rfl, rfl, (statements_kept (fun _ _ => 0) Nat.one_pos [answered] ?_ rfl rfl).1⟩
  refine @throughout_concat _ _ _ _ _ answered [] throughout_nil ?_
  intro t ht
  cases ht
  intro _
  refine ⟨⟨⟨fun h => absurd rfl h, fun _ _ => ⟨rfl, trivial⟩⟩, fun h => absurd rfl h⟩, ?_⟩
  intro err rowsSent t hattempt
  cases hattempt

theorem statement_leaked :
    ¬∀ requests s, exec (serveRequest fun _ _ => 0) (.new 1 (by decide)) requests = some s →
      s.broken = false → s.Kept := by
  intro h
  have hkept := h [interrupted] _ rfl rfl 1 (by decide)
  revert hkept
  simp [Session.Holds]
  decide

end Stdx.Postgresql
