import ZeroCache.ViewSyncer.Cvr
import Mathlib.Algebra.Order.Ring.Rat
import Mathlib.Data.List.Dedup
import Mathlib.Data.List.Sort

/-!
# Desired queries

A client puts the queries it desires and deletes them again (`cvr_desired_queries.rs`). The relation
between clients and queries is kept twice: a client lists the ids of its queries in order, a query has
a state for each client. A call is part of an update session, whose first change bumps the version of
the record; the calls of one session share the version it started from. `none` is a failed assertion.

Doubles are rationals. A duration that is no number is stored as NaN, which everything here that reads
it takes for zero.
-/

namespace ZeroCache.ViewSyncer

open List Option Assoc CvrVersion Prod

/-! ## Times to live -/

/-- How long a query is kept after it is no longer desired. -/
inductive Ttl where
  | forever
  | none
  | millis (n : ℚ)
  | duration (s : String)

namespace Ttl

def defaultMs : ℚ := 1000 * 60 * 5

def maxMs : ℚ := 1000 * 60 * 10

/-- The milliseconds of a unit. -/
def multiplier : Char → Option ℚ
  | 's' => some 1000
  | 'm' => some (60 * 1000)
  | 'h' => some (60 * 60 * 1000)
  | 'd' => some (24 * 60 * 60 * 1000)
  | 'y' => some (365 * 24 * 60 * 60 * 1000)
  | _ => .none

section

variable (parseF64 : String → Option ℚ)

/-- The milliseconds of a time to live, −1 for ever and nothing for NaN (`parse_ttl`). -/
def parse : Ttl → Option ℚ
  | millis n => some (if n < 0 then -1 else n)
  | none => some 0
  | forever => some (-1)
  | duration s => do
    let unit ← s.toList.getLast?
    let multi ← multiplier unit
    let number ← parseF64 (String.ofList s.toList.dropLast)
    return number * multi

/-- Whether the first time to live is the longer one (`compare_ttl` is positive). -/
def longer (a b : Ttl) : Bool :=
  match parse parseF64 a, parse parseF64 b with
  | some a, some b => if b = -1 then false else if a = -1 then true else b < a
  | some a, .none => a = -1
  | .none, _ => false

/-- A time to live of at most the longest one (`clamp_ttl`). -/
def clamp (ttl : Ttl) : ℚ :=
  match parse parseF64 ttl with
  | some parsed => if parsed = -1 ∨ maxMs < parsed then maxMs else parsed
  | .none => 0

end

end Ttl

/-! ## Sets of ids -/

/-- The ids of a list in order, each once (`BTreeSet`). -/
def idSet (ids : List String) : List String := ids.dedup.insertionSort (· ≤ ·)

@[simp]
theorem mem_idSet {ids : List String} {id : String} : id ∈ idSet ids ↔ id ∈ ids := by
  rw [idSet, mem_insertionSort, mem_dedup]

theorem idSet_sorted (ids : List String) : (idSet ids).Pairwise (· < ·) := by
  have hle : (idSet ids).Pairwise (· ≤ ·) := pairwise_insertionSort _ _
  have hnodup : (idSet ids).Nodup := (perm_insertionSort _ _).nodup_iff.mpr (nodup_dedup ids)
  exact (hle.and hnodup).imp (fun h => lt_of_le_of_ne h.1 h.2)

theorem idSet_eq_nil {ids : List String} : idSet ids = [] ↔ ids = [] := by
  simp only [eq_nil_iff_forall_not_mem, mem_idSet]

/-! ## Putting queries -/

/-- A query a client desires. -/
structure DesiredQueryRequest where
  hash : String
  ast : Option Ast
  name : Option String
  args : Option (List JsonValue)
  ttl : Option Ttl

/-- The time to live asked for. -/
def DesiredQueryRequest.desiredTtl (request : DesiredQueryRequest) : Ttl := request.ttl.getD (.millis Ttl.defaultMs)

/-- A new query has a syntax tree, or a name and arguments, and not both. -/
def DesiredQueryRequest.shaped (request : DesiredQueryRequest) : Bool :=
  match request.ast with
  | some _ => request.name.isNone && request.args.isNone
  | none => request.name.isSome && request.args.isSome

/-- The record of a new query (`new_query_record`). -/
def newQueryRecord (id : String) (request : DesiredQueryRequest) : Option QueryRecord :=
  let record := fun kind => QueryRecord.mk id kind none none [] none
  match request.ast with
  | some ast => if request.name.isNone && request.args.isNone then some (record (.client ast)) else none
  | none => do return record (.custom (← request.name) (← request.args))

section

variable (parseF64 : String → Option ℚ)

/-- Whether a request changes anything: the query is new, the client has no active state for it, or it
asks for a longer time to live. Internal queries cannot be desired. -/
def needsUpdate (queries : Fields QueryRecord) (clientId : String) (request : DesiredQueryRequest) : Bool :=
  match queries.get? request.hash with
  | none => true
  | some query =>
    !query.isInternal &&
      match query.clientState.get? clientId with
      | none => true
      | some old => old.inactivatedAt.isSome || Ttl.longer parseF64 request.desiredTtl (.millis old.ttl)

/-- The ids of the queries to update (`compute_needed_queries`). -/
def computeNeededQueries (requests : List DesiredQueryRequest) (queries : Fields QueryRecord) (clientId : String) :
    List String :=
  idSet ((requests.filter (needsUpdate parseF64 queries clientId)).map (·.hash))

/-- The patch of a desired query. -/
def desiredPatch (op : PatchOp) (clientId : String) (version : CvrVersion) (id : String) : PatchToVersion :=
  ⟨.config ⟨op, id, some clientId⟩, version⟩

/-- The record of a query with an active state of a client. -/
def putQuery (requests : List DesiredQueryRequest) (clientId : String) (version : CvrVersion)
    (queries : Fields QueryRecord) (id : String) : Option (Fields QueryRecord) := do
  let request ← requests.find? (·.hash = id)
  let query ← (queries.get? id).or (newQueryRecord id request)
  if query.isInternal then none
  else
    let state := ClientQueryState.mk none (Ttl.clamp parseF64 request.desiredTtl) false version
    return queries.set id { query with clientState := query.clientState.set clientId state }

/-- The clients with an entry for a client. -/
def enterClient (clients : Fields ClientRecord) (clientId : String) : Fields ClientRecord :=
  match clients.get? clientId with
  | some _ => clients
  | none => clients.set clientId ⟨clientId, []⟩

/-- The ids a client lists. -/
def desiredIds (clients : Fields ClientRecord) (clientId : String) : List String :=
  match clients.get? clientId with
  | some client => client.desiredQueryIds
  | none => []

/-- The clients after one of them got a new list. -/
def setDesiredIds (clients : Fields ClientRecord) (clientId : String) (ids : List String) : Fields ClientRecord :=
  match clients.get? clientId with
  | some client => clients.set clientId { client with desiredQueryIds := ids }
  | none => clients

/-- A client desires queries. -/
def putDesiredQueries (cvr : Cvr) (orig : CvrVersion) (clientId : String) (requests : List DesiredQueryRequest) :
    Option (Cvr × List PatchToVersion) :=
  let clients := enterClient cvr.clients clientId
  let needed := computeNeededQueries parseF64 requests cvr.queries clientId
  if needed = [] then some ({ cvr with clients }, [])
  else do
    let version := orig.ensureNewVersion cvr.version
    let clients := setDesiredIds clients clientId (idSet (desiredIds clients clientId ++ needed))
    let queries ← needed.foldlM (putQuery parseF64 requests clientId version) cvr.queries
    return (⟨version, clients, queries⟩, needed.map (desiredPatch .put clientId version))

/-! ## Deleting queries -/

/-- The states of a query after a client dropped it: removed, or inactive from a time on. -/
def dropState (clientId : String) (version : CvrVersion) (inactivatedAt : Option ℚ)
    (clientState : Fields ClientQueryState) : Option (Fields ClientQueryState) :=
  match inactivatedAt with
  | none => some (clientState.erase clientId)
  | some time =>
    match clientState.get? clientId with
    | none => some clientState
    | some state =>
      if state.inactivatedAt.isSome then none
      else some (clientState.set clientId ⟨some time, Ttl.clamp parseF64 (.millis state.ttl), true, version⟩)

/-- One query is dropped; a query that is gone is passed over. -/
def deleteQuery (clientId : String) (version : CvrVersion) (inactivatedAt : Option ℚ)
    (state : Fields QueryRecord × List PatchToVersion) (id : String) : Option (Fields QueryRecord × List PatchToVersion) :=
  match state.1.get? id with
  | none => some state
  | some query =>
    if query.isInternal then none
    else do
      let clientState ← dropState parseF64 clientId version inactivatedAt query.clientState
      return (state.1.set id { query with clientState }, state.2 ++ [desiredPatch .del clientId version id])

/-- A client no longer desires queries (`delete_queries`). -/
def deleteQueries (cvr : Cvr) (orig : CvrVersion) (clientId : String) (hashes : List String)
    (inactivatedAt : Option ℚ) : Option (Cvr × List PatchToVersion) :=
  let clients := enterClient cvr.clients clientId
  let current := idSet (desiredIds clients clientId)
  let remove := current.filter (· ∈ hashes)
  if remove = [] then some ({ cvr with clients }, [])
  else do
    let version := orig.ensureNewVersion cvr.version
    let clients := setDesiredIds clients clientId (current.filter (· ∉ hashes))
    let (queries, patches) ← remove.foldlM (deleteQuery parseF64 clientId version inactivatedAt) (cvr.queries, [])
    return (⟨version, clients, queries⟩, patches)

end

/-! ## Both sides of the relation -/

/-- A client has an active state for a query. -/
def Active (queries : Fields QueryRecord) (clientId id : String) : Prop :=
  ∃ query state, queries.get? id = some query ∧ query.clientState.get? clientId = some state ∧ state.inactivatedAt = none

/-- No client has a state for an internal query. -/
def InternalFree (queries : Fields QueryRecord) : Prop :=
  ∀ id query, queries.get? id = some query → query.isInternal = true → query.clientState = []

/-- The lists of the clients are in order without duplicates and say what the states of the queries say. -/
structure Linked (cvr : Cvr) : Prop where
  listed_iff : ∀ clientId id, id ∈ desiredIds cvr.clients clientId ↔ Active cvr.queries clientId id
  sorted : ∀ clientId, (desiredIds cvr.clients clientId).Pairwise (· < ·)
  internal : InternalFree cvr.queries

section

variable {parseF64 : String → Option ℚ} {clients : Fields ClientRecord} {queries queries' : Fields QueryRecord}
  {clientId id : String} {version : CvrVersion} {requests : List DesiredQueryRequest}

theorem isSome_enterClient (clients : Fields ClientRecord) (clientId : String) :
    ((enterClient clients clientId).get? clientId).isSome := by
  unfold enterClient
  cases h : clients.get? clientId with
  | some => simp [h]
  | none => simp [get?_set]

@[simp]
theorem desiredIds_enterClient (clients : Fields ClientRecord) (clientId other : String) :
    desiredIds (enterClient clients clientId) other = desiredIds clients other := by
  unfold enterClient
  cases h : clients.get? clientId with
  | some => rfl
  | none =>
    simp only [desiredIds, get?_set]
    by_cases hother : other = clientId
    · simp [hother, h]
    · simp [hother]

theorem desiredIds_setDesiredIds (h : (clients.get? clientId).isSome) (ids : List String) (other : String) :
    desiredIds (setDesiredIds clients clientId ids) other = if other = clientId then ids else desiredIds clients other := by
  obtain ⟨client, hclient⟩ := isSome_iff_exists.mp h
  simp only [setDesiredIds, hclient, desiredIds, get?_set]
  by_cases hother : other = clientId
  · simp [hother]
  · simp [hother]

theorem InternalFree.not_internal (h : InternalFree queries) (hactive : Active queries clientId id) :
    ∀ query, queries.get? id = some query → query.isInternal = false := by
  intro query hquery
  obtain ⟨query', state, hquery', hstate, -⟩ := hactive
  obtain rfl : query' = query := some.inj (hquery'.symm.trans hquery)
  cases hinternal : query'.isInternal with
  | false => rfl
  | true =>
    rw [h id query' hquery hinternal] at hstate
    cases hstate

/-- The state of a client for one query is replaced; no other state changes. -/
structure Restates (clientId id : String) (state : Option ClientQueryState) (queries queries' : Fields QueryRecord) :
    Prop where
  others : ∀ other, other ≠ id → queries'.get? other = queries.get? other
  record : ∃ query', queries'.get? id = some query' ∧ query'.isInternal = false ∧
    query'.clientState.get? clientId = state ∧
    ∀ client, client ≠ clientId → query'.clientState.get? client = (queries.get? id).bind (fun query => query.clientState.get? client)

namespace Restates

variable {state : Option ClientQueryState}

theorem internalFree (h : Restates clientId id state queries queries') (hfree : InternalFree queries) :
    InternalFree queries' := by
  intro other query hquery hinternal
  by_cases hother : other = id
  · subst hother
    obtain ⟨query', hquery', hexternal, -⟩ := h.record
    obtain rfl : query' = query := some.inj (hquery'.symm.trans hquery)
    rw [hexternal] at hinternal
    cases hinternal
  · exact hfree other query ((h.others other hother).symm.trans hquery) hinternal

theorem active_iff (h : Restates clientId id state queries queries') (client other : String) :
    Active queries' client other ↔
      if other = id ∧ client = clientId then ∃ s, state = some s ∧ s.inactivatedAt = none else Active queries client other := by
  by_cases hother : other = id
  · subst hother
    obtain ⟨query', hquery', -, hstate, hclients⟩ := h.record
    by_cases hclient : client = clientId
    · subst hclient
      simp [Active, hquery', hstate]
    · cases hquery : queries.get? other with
      | none | some => simp [Active, hquery', hclients client hclient, hquery, hclient]
  · simp [Active, h.others other hother, hother]

end Restates

/-! ## A put -/

/-- The request that is looked at for an id can make a new record. -/
def ShapedFor (requests : List DesiredQueryRequest) (id : String) : Prop :=
  ∀ request ∈ requests.find? (·.hash = id), request.shaped = true

variable {request : DesiredQueryRequest} {ids : List String} {clientState : Fields ClientQueryState}
  {patches : List PatchToVersion}

theorem newQueryRecord_eq_none : newQueryRecord id request = none ↔ request.shaped = false := by
  unfold newQueryRecord DesiredQueryRequest.shaped
  cases request.ast with
  | some => cases (request.name.isNone && request.args.isNone) <;> simp
  | none =>
    cases request.name with
    | none => simp
    | some => cases request.args <;> simp

theorem newQueryRecord_spec {query : QueryRecord}
    (h : newQueryRecord id request = some query) : query.isInternal = false ∧ query.clientState = [] := by
  unfold newQueryRecord at h
  cases hast : request.ast with
  | some =>
    rw [hast] at h
    dsimp only at h
    split at h
    · obtain rfl := some.inj h
      exact ⟨rfl, rfl⟩
    · cases h
  | none =>
    rw [hast] at h
    cases hname : request.name with
    | none => simp [hname] at h
    | some =>
      cases hargs : request.args with
      | none => simp [hname, hargs] at h
      | some =>
        simp only [hname, hargs, Option.pure_def, bind_eq_bind, bind_some, some.injEq] at h
        subst h
        exact ⟨rfl, rfl⟩

/-- A put query has an active state of the client. -/
theorem putQuery_restates (h : putQuery parseF64 requests clientId version queries id = some queries') :
    ∃ state, Restates clientId id (some state) queries queries' ∧ state.inactivatedAt = none := by
  obtain ⟨request, -, h⟩ := bind_eq_some_iff.mp h
  obtain ⟨query, hquery, h⟩ := bind_eq_some_iff.mp h
  split at h
  · cases h
  · next hinternal =>
    have hclients (client : String) :
        query.clientState.get? client = (queries.get? id).bind (fun q => q.clientState.get? client) := by
      rcases or_eq_some_iff.mp hquery with hold | ⟨hold, hnew⟩
      · simp [hold]
      · simp [hold, (newQueryRecord_spec hnew).2]
    obtain rfl := some.inj h
    refine ⟨⟨none, Ttl.clamp parseF64 request.desiredTtl, false, version⟩, ⟨?_, ?_⟩, rfl⟩
    · intro other hother
      rw [get?_set, if_neg hother]
    · refine ⟨_, by rw [get?_set, if_pos rfl], by simpa [QueryRecord.isInternal] using hinternal,
        by rw [get?_set, if_pos rfl], ?_⟩
      intro client hclient
      rw [get?_set, if_neg hclient, hclients client]

/-- A query is put unless it is new and its request cannot make a record. -/
theorem putQuery_isSome (hrequest : ∃ request ∈ requests, request.hash = id)
    (hexternal : ∀ query, queries.get? id = some query → query.isInternal = false) :
    (putQuery parseF64 requests clientId version queries id).isSome ↔ (queries.get? id = none → ShapedFor requests id) := by
  obtain ⟨request, hfind⟩ : ∃ request, requests.find? (·.hash = id) = some request := by
    obtain ⟨request, hmem, hhash⟩ := hrequest
    exact isSome_iff_exists.mp (find?_isSome.mpr ⟨request, hmem, by simpa using hhash⟩)
  cases hold : queries.get? id with
  | some query => simp [putQuery, hfind, hold, hexternal query hold]
  | none =>
    have hshaped : ShapedFor requests id ↔ request.shaped = true := by simp [ShapedFor, hfind]
    cases hnew : newQueryRecord id request with
    | none => simp [putQuery, hfind, hold, hnew, hshaped, newQueryRecord_eq_none.mp hnew]
    | some =>
      have hshape : request.shaped = true := by
        rw [← Bool.not_eq_false]
        intro hshape
        rw [newQueryRecord_eq_none.mpr hshape] at hnew
        cases hnew
      simp [putQuery, hfind, hold, hnew, hshaped, hshape, (newQueryRecord_spec hnew).1]

theorem foldlM_putQuery_spec (h : ids.foldlM (putQuery parseF64 requests clientId version) queries = some queries') :
    (InternalFree queries → InternalFree queries') ∧
      ∀ client id, Active queries' client id ↔ client = clientId ∧ id ∈ ids ∨ Active queries client id := by
  induction ids generalizing queries with
  | nil =>
    obtain rfl := some.inj h
    exact ⟨id, by simp⟩
  | cons first rest ih =>
    obtain ⟨next, hput, hrest⟩ := bind_eq_some_iff.mp h
    obtain ⟨state, hrestates, hstate⟩ := putQuery_restates hput
    obtain ⟨hfree, hactive⟩ := ih hrest
    refine ⟨fun hinternal => hfree (hrestates.internalFree hinternal), fun client id => ?_⟩
    rw [hactive, hrestates.active_iff]
    by_cases hself : id = first ∧ client = clientId
    · simp [hself, hstate]
    · simp only [hself, mem_cons]
      tauto

/-- Distinct queries are put unless one of them is new and its request cannot make a record. -/
theorem foldlM_putQuery_isSome (hnodup : ids.Nodup) (hrequest : ∀ id ∈ ids, ∃ request ∈ requests, request.hash = id)
    (hexternal : ∀ id ∈ ids, ∀ query, queries.get? id = some query → query.isInternal = false) :
    (ids.foldlM (putQuery parseF64 requests clientId version) queries).isSome ↔
      ∀ id ∈ ids, queries.get? id = none → ShapedFor requests id := by
  induction ids generalizing queries with
  | nil => simp
  | cons first rest ih =>
    obtain ⟨hfirst, hrest⟩ := nodup_cons.mp hnodup
    have hput : (putQuery parseF64 requests clientId version queries first).isSome ↔ _ :=
      putQuery_isSome (hrequest first mem_cons_self) (hexternal first mem_cons_self)
    rw [forall_mem_cons, ← hput, foldlM_cons]
    cases hnext : putQuery parseF64 requests clientId version queries first with
    | none => simp
    | some next =>
      obtain ⟨state, hrestates, -⟩ := putQuery_restates hnext
      have hsame : ∀ id ∈ rest, next.get? id = queries.get? id := by
        intro id hid
        refine hrestates.others id ?_
        rintro rfl
        exact hfirst hid
      have hexternal' : ∀ id ∈ rest, ∀ query, next.get? id = some query → query.isInternal = false := by
        intro id hid query hquery
        exact hexternal id (mem_cons_of_mem _ hid) query ((hsame id hid).symm.trans hquery)
      simp only [bind_eq_bind, bind_some, isSome_some, true_and,
        ih hrest (fun id hid => hrequest id (mem_cons_of_mem _ hid)) hexternal']
      refine forall₂_congr (fun id hid => ?_)
      rw [hsame id hid]

/-! ## A delete -/

variable {inactivatedAt : Option ℚ}

theorem dropState_spec {clientState' : Fields ClientQueryState}
    (h : dropState parseF64 clientId version inactivatedAt clientState = some clientState') :
    (∀ state, clientState'.get? clientId = some state → state.inactivatedAt ≠ none) ∧
      ∀ client, client ≠ clientId → clientState'.get? client = clientState.get? client := by
  cases inactivatedAt with
  | none =>
    obtain rfl := some.inj h
    constructor
    · intro state hstate
      rw [get?_erase, if_pos rfl] at hstate
      cases hstate
    · intro client hclient
      rw [get?_erase, if_neg hclient]
  | some =>
    simp only [dropState] at h
    cases hold : clientState.get? clientId with
    | none =>
      rw [hold] at h
      obtain rfl := some.inj h
      exact ⟨by simp [hold], fun _ _ => rfl⟩
    | some =>
      rw [hold] at h
      dsimp only at h
      split at h
      · cases h
      · obtain rfl := some.inj h
        constructor
        · intro state' hstate
          rw [get?_set, if_pos rfl] at hstate
          obtain rfl := some.inj hstate
          simp
        · intro client hclient
          rw [get?_set, if_neg hclient]

theorem dropState_isSome (h : ∀ state, clientState.get? clientId = some state → state.inactivatedAt = none) :
    (dropState parseF64 clientId version inactivatedAt clientState).isSome := by
  cases inactivatedAt with
  | none => rfl
  | some =>
    cases hold : clientState.get? clientId with
    | none => simp [dropState, hold]
    | some state => simp [dropState, hold, h state hold]

/-- A query of an active state is dropped: the client has no active state for it any more. -/
theorem deleteQuery_spec (hactive : Active queries clientId id)
    (hfree : InternalFree queries) :
    ∃ queries' state, deleteQuery parseF64 clientId version inactivatedAt (queries, patches) id =
        some (queries', patches ++ [desiredPatch .del clientId version id]) ∧
      Restates clientId id state queries queries' ∧ ∀ s, state = some s → s.inactivatedAt ≠ none := by
  have hexternal := hfree.not_internal hactive
  obtain ⟨query, state, hquery, hstate, hnone⟩ := hactive
  have hdrop : (dropState parseF64 clientId version inactivatedAt query.clientState).isSome := by
    refine dropState_isSome (fun state' hstate' => ?_)
    rw [hstate] at hstate'
    exact some.inj hstate' ▸ hnone
  obtain ⟨clientState', hclientState⟩ := isSome_iff_exists.mp hdrop
  obtain ⟨hinactive, hothers⟩ := dropState_spec hclientState
  refine ⟨queries.set id { query with clientState := clientState' }, clientState'.get? clientId, ?_, ⟨?_, ?_⟩, hinactive⟩
  · simp [deleteQuery, hquery, hexternal query hquery, hclientState]
  · intro other hother
    rw [get?_set, if_neg hother]
  · refine ⟨{ query with clientState := clientState' }, by rw [get?_set, if_pos rfl], hexternal query hquery, rfl, ?_⟩
    intro client hclient
    rw [hothers client hclient, hquery, bind_some]

/-- Distinct queries of active states are dropped, with a patch for each. -/
theorem foldlM_deleteQuery (patches : List PatchToVersion)
    (hnodup : ids.Nodup) (hactive : ∀ id ∈ ids, Active queries clientId id) (hfree : InternalFree queries) :
    ∃ queries', ids.foldlM (deleteQuery parseF64 clientId version inactivatedAt) (queries, patches) =
        some (queries', patches ++ ids.map (desiredPatch .del clientId version)) ∧ InternalFree queries' ∧
      ∀ client id, Active queries' client id ↔ Active queries client id ∧ ¬ (client = clientId ∧ id ∈ ids) := by
  induction ids generalizing queries patches with
  | nil => exact ⟨queries, by simp, hfree, by simp⟩
  | cons first rest ih =>
    obtain ⟨hfirst, hrest⟩ := nodup_cons.mp hnodup
    obtain ⟨next, state, hnext, hrestates, hstate⟩ : ∃ next state,
        deleteQuery parseF64 clientId version inactivatedAt (queries, patches) first =
          some (next, patches ++ [desiredPatch .del clientId version first]) ∧
        Restates clientId first state queries next ∧ ∀ s, state = some s → s.inactivatedAt ≠ none :=
      deleteQuery_spec (hactive first mem_cons_self) hfree
    have hstill : ∀ id ∈ rest, Active next clientId id := by
      intro id hid
      have hne : id ≠ first := by
        rintro rfl
        exact hfirst hid
      rw [hrestates.active_iff, if_neg (by simp [hne])]
      exact hactive id (mem_cons_of_mem _ hid)
    obtain ⟨queries', hfold, hfree', hactive'⟩ :=
      ih (patches ++ [desiredPatch .del clientId version first]) hrest hstill (hrestates.internalFree hfree)
    refine ⟨queries', ?_, hfree', fun client id => ?_⟩
    · rw [foldlM_cons, hnext]
      simpa using hfold
    · rw [hactive', hrestates.active_iff]
      by_cases hself : id = first ∧ client = clientId
      · obtain ⟨rfl, rfl⟩ := hself
        have hnot : ¬ ∃ s, state = some s ∧ s.inactivatedAt = none := by
          rintro ⟨s, hs, hnone⟩
          exact hstate s hs hnone
        simp [hnot]
      · simp only [hself, mem_cons]
        tauto

/-! ## Calls -/

theorem CvrVersion.lt_ensureNewVersion_iff {orig current : CvrVersion} :
    current.lt (orig.ensureNewVersion current) = true ↔ orig.same current = true := by
  unfold ensureNewVersion
  split
  · next hsame => simp [hsame, lt_oneAfter]
  · next hsame => simp [hsame, lt]

/-- The ids to update are of requests, and of no internal query. -/
theorem mem_computeNeededQueries : id ∈ computeNeededQueries parseF64 requests queries clientId ↔
    ∃ request ∈ requests, needsUpdate parseF64 queries clientId request = true ∧ request.hash = id := by
  simp [computeNeededQueries, and_assoc]

theorem external_of_needed (h : id ∈ computeNeededQueries parseF64 requests queries clientId) :
    ∀ query, queries.get? id = some query → query.isInternal = false := by
  intro query hquery
  obtain ⟨request, -, hneeds, rfl⟩ := mem_computeNeededQueries.mp h
  rw [needsUpdate, hquery] at hneeds
  simp only [Bool.and_eq_true, Bool.not_eq_true'] at hneeds
  exact hneeds.1

theorem needed_of_new (h : queries.get? id = none) (hrequest : ∃ request ∈ requests, request.hash = id) :
    id ∈ computeNeededQueries parseF64 requests queries clientId := by
  obtain ⟨request, hmem, rfl⟩ := hrequest
  exact mem_computeNeededQueries.mpr ⟨request, hmem, by simp [needsUpdate, h], rfl⟩

/-- Every request for a new query can make a record. -/
def NewShaped (queries : Fields QueryRecord) (requests : List DesiredQueryRequest) : Prop :=
  ∀ request ∈ requests, queries.get? request.hash = none → ShapedFor requests request.hash

/-- A put returns exactly when every request for a new query can make a record. -/
theorem putDesiredQueries_isSome {cvr : Cvr} {orig : CvrVersion} :
    (putDesiredQueries parseF64 cvr orig clientId requests).isSome ↔ NewShaped cvr.queries requests := by
  have hshaped : NewShaped cvr.queries requests ↔
      ∀ id ∈ computeNeededQueries parseF64 requests cvr.queries clientId, cvr.queries.get? id = none →
        ShapedFor requests id := by
    constructor
    · intro h id hid hnew
      obtain ⟨request, hmem, -, rfl⟩ := mem_computeNeededQueries.mp hid
      exact h request hmem hnew
    · intro h request hmem hnew
      exact h request.hash (needed_of_new hnew ⟨request, hmem, rfl⟩) hnew
  unfold putDesiredQueries
  dsimp only
  split
  · next hnone => simp [hshaped, hnone]
  · have hfold : ((computeNeededQueries parseF64 requests cvr.queries clientId).foldlM
        (putQuery parseF64 requests clientId (orig.ensureNewVersion cvr.version)) cvr.queries).isSome ↔ _ :=
      foldlM_putQuery_isSome ((idSet_sorted _).imp (fun h => h.ne))
        (fun id hid => (mem_computeNeededQueries.mp hid).imp (fun _ h => ⟨h.1, h.2.2⟩)) (fun id hid => external_of_needed hid)
    rw [hshaped, ← hfold]
    cases (computeNeededQueries parseF64 requests cvr.queries clientId).foldlM
      (putQuery parseF64 requests clientId (orig.ensureNewVersion cvr.version)) cvr.queries <;> rfl

/-- A put keeps both sides together, and gives a patch for each query it updates. -/
theorem putDesiredQueries_spec {cvr cvr' : Cvr} {orig : CvrVersion} (hlinked : Linked cvr)
    (h : putDesiredQueries parseF64 cvr orig clientId requests = some (cvr', patches)) : Linked cvr' ∧
      (patches = [] ↔ ∀ request ∈ requests, needsUpdate parseF64 cvr.queries clientId request = false) ∧
      cvr'.version = if patches = [] then cvr.version else orig.ensureNewVersion cvr.version := by
  have hneeded : computeNeededQueries parseF64 requests cvr.queries clientId = [] ↔
      ∀ request ∈ requests, needsUpdate parseF64 cvr.queries clientId request = false := by
    simp [computeNeededQueries, idSet_eq_nil]
  unfold putDesiredQueries at h
  dsimp only at h
  split at h
  · next hnone =>
    obtain ⟨rfl, rfl⟩ := mk.inj (some.inj h)
    refine ⟨⟨?_, ?_, hlinked.internal⟩, by simpa using hneeded.mp hnone, rfl⟩
    · simpa using hlinked.listed_iff
    · simpa using hlinked.sorted
  · next hsome =>
    obtain ⟨queries', hfold, h⟩ := bind_eq_some_iff.mp h
    obtain ⟨rfl, rfl⟩ := mk.inj (some.inj h)
    obtain ⟨hfree, hactive⟩ := foldlM_putQuery_spec hfold
    have hids := desiredIds_setDesiredIds (isSome_enterClient cvr.clients clientId)
    refine ⟨⟨?_, ?_, hfree hlinked.internal⟩, by simpa [hsome] using hneeded, by simp [hsome]⟩
    · intro client id
      rw [hids, hactive, ← hlinked.listed_iff]
      by_cases hclient : client = clientId
      · subst hclient
        simp [or_comm]
      · simp [hclient]
    · intro client
      rw [hids]
      split
      · exact idSet_sorted _
      · simpa using hlinked.sorted client

/-- A delete returns, keeps both sides together and gives a patch for each query it drops. -/
theorem deleteQueries_spec {cvr : Cvr} (hlinked : Linked cvr) (orig : CvrVersion) (clientId : String) (hashes : List String)
    (inactivatedAt : Option ℚ) :
    ∃ cvr' patches, deleteQueries parseF64 cvr orig clientId hashes inactivatedAt = some (cvr', patches) ∧ Linked cvr' ∧
      (patches = [] ↔ ∀ id ∈ hashes, id ∉ desiredIds cvr.clients clientId) ∧
      cvr'.version = if patches = [] then cvr.version else orig.ensureNewVersion cvr.version := by
  have hremove : (idSet (desiredIds (enterClient cvr.clients clientId) clientId)).filter (· ∈ hashes) = [] ↔
      ∀ id ∈ hashes, id ∉ desiredIds cvr.clients clientId := by
    simp only [filter_eq_nil_iff, mem_idSet, desiredIds_enterClient, decide_eq_true_eq]
    exact forall_congr' (fun id => ⟨fun h hid hlisted => h hlisted hid, fun h hlisted hid => h hid hlisted⟩)
  unfold deleteQueries
  dsimp only
  split
  · next hnone =>
    refine ⟨_, _, rfl, ⟨?_, ?_, hlinked.internal⟩, by simpa using hremove.mp hnone, rfl⟩
    · simpa using hlinked.listed_iff
    · simpa using hlinked.sorted
  · next hsome =>
    have hsorted := idSet_sorted (desiredIds (enterClient cvr.clients clientId) clientId)
    obtain ⟨queries', hfold, hfree, hactive⟩ : ∃ queries', _ ∧ _ ∧ _ :=
      foldlM_deleteQuery [] ((hsorted.imp (fun h => h.ne)).filter _)
        (fun id hid => (hlinked.listed_iff clientId id).mp (by simpa using (mem_filter.mp hid).1)) hlinked.internal
    have hids := desiredIds_setDesiredIds (isSome_enterClient cvr.clients clientId)
    have hpatches : [] ++ ((idSet (desiredIds (enterClient cvr.clients clientId) clientId)).filter (· ∈ hashes)).map
        (desiredPatch .del clientId (orig.ensureNewVersion cvr.version)) ≠ [] := by
      rw [nil_append, ne_eq, map_eq_nil_iff]
      exact hsome
    refine ⟨_, _, by rw [hfold]; rfl, ⟨?_, ?_, hfree⟩, by simpa only [hpatches, hsome] using hremove, by rw [if_neg hpatches]⟩
    · intro client id
      rw [hids, hactive, ← hlinked.listed_iff]
      by_cases hclient : client = clientId
      · subst hclient
        simp [imp_iff_not_or, and_or_left]
      · simp [hclient]
    · intro client
      rw [hids]
      split
      · exact hsorted.filter _
      · simpa using hlinked.sorted client

end

/-! ## Sessions -/

/-- An operation of a patch of desired queries. -/
inductive UpQueriesPatchOp where
  | put (request : DesiredQueryRequest)
  | del (hash : String)
  | clear

/-- The requests of a patch. -/
def patchPuts (patch : List UpQueriesPatchOp) : List DesiredQueryRequest :=
  patch.filterMap (fun op =>
    match op with
    | .put request => some request
    | .del _ | .clear => none)

/-- The ids a patch deletes: those it names and, if it clears, those the client lists. -/
def patchDels (cvr : Cvr) (clientId : String) (patch : List UpQueriesPatchOp) : List String :=
  let named := patch.filterMap (fun op =>
    match op with
    | .del hash => some hash
    | .put _ | .clear => none)
  let clears := patch.any (fun op =>
    match op with
    | .clear => true
    | .put _ | .del _ => false)
  if clears then named ++ desiredIds cvr.clients clientId else named

section

variable (parseF64 : String → Option ℚ)

/-- The puts of a session, if there are any. -/
def sessionPuts (cvr : Cvr) (orig : CvrVersion) (clientId : String) (puts : List DesiredQueryRequest) :
    Option (Cvr × List PatchToVersion) :=
  if puts = [] then some (cvr, []) else putDesiredQueries parseF64 cvr orig clientId puts

/-- The deletes of a session, if there are any. -/
def sessionDels (cvr : Cvr) (orig : CvrVersion) (clientId : String) (dels : List String) :
    Option (Cvr × List PatchToVersion) :=
  if dels = [] then some (cvr, []) else deleteQueries parseF64 cvr orig clientId dels none

/-- A patch is one session: its puts, then its deletes (`apply_desired_queries_patch`). -/
def applyDesiredQueriesPatch (cvr : Cvr) (clientId : String) (patch : List UpQueriesPatchOp) :
    Option (Cvr × List PatchToVersion) := do
  let (after, putPatches) ← sessionPuts parseF64 cvr cvr.version clientId (patchPuts patch)
  let (after, delPatches) ← sessionDels parseF64 after cvr.version clientId (patchDels cvr clientId patch)
  return (after, putPatches ++ delPatches)

end

section

variable {parseF64 : String → Option ℚ} {cvr : Cvr}

theorem sessionPuts_spec (hlinked : Linked cvr) (orig : CvrVersion) (clientId : String) {puts : List DesiredQueryRequest}
    (hshaped : NewShaped cvr.queries puts) :
    ∃ after patches, sessionPuts parseF64 cvr orig clientId puts = some (after, patches) ∧ Linked after ∧
      after.version = if patches = [] then cvr.version else orig.ensureNewVersion cvr.version := by
  unfold sessionPuts
  split
  · exact ⟨cvr, [], rfl, hlinked, rfl⟩
  · obtain ⟨⟨after, patches⟩, hput⟩ := isSome_iff_exists.mp
      ((@putDesiredQueries_isSome parseF64 clientId puts cvr orig).mpr hshaped)
    obtain ⟨hafter, -, hversion⟩ := putDesiredQueries_spec hlinked hput
    exact ⟨after, patches, hput, hafter, hversion⟩

theorem sessionDels_spec (hlinked : Linked cvr) (orig : CvrVersion) (clientId : String) (dels : List String) :
    ∃ after patches, sessionDels parseF64 cvr orig clientId dels = some (after, patches) ∧ Linked after ∧
      after.version = if patches = [] then cvr.version else orig.ensureNewVersion cvr.version := by
  unfold sessionDels
  split
  · exact ⟨cvr, [], rfl, hlinked, rfl⟩
  · obtain ⟨after, patches, hdelete, hafter, -, hversion⟩ :=
      @deleteQueries_spec parseF64 cvr hlinked orig clientId dels none
    exact ⟨after, patches, hdelete, hafter, hversion⟩

/-- A patch whose requests for new queries can make records is applied, and bumps the version once, exactly
when it changes something. -/
theorem applyDesiredQueriesPatch_spec (hlinked : Linked cvr) (clientId : String) (patch : List UpQueriesPatchOp)
    (hshaped : NewShaped cvr.queries (patchPuts patch)) :
    ∃ after patches, applyDesiredQueriesPatch parseF64 cvr clientId patch = some (after, patches) ∧ Linked after ∧
      after.version = if patches = [] then cvr.version else cvr.version.oneAfter := by
  have hbump : cvr.version.ensureNewVersion cvr.version = cvr.version.oneAfter := by
    simp [ensureNewVersion, same]
  have hbumped : cvr.version.ensureNewVersion cvr.version.oneAfter = cvr.version.oneAfter := by
    simp [ensureNewVersion, same, oneAfter, counter]
  obtain ⟨middle, putPatches, hput, hmiddle, hmiddleVersion⟩ :=
    @sessionPuts_spec parseF64 cvr hlinked cvr.version clientId _ hshaped
  obtain ⟨after, delPatches, hdel, hafter, hafterVersion⟩ :=
    @sessionDels_spec parseF64 middle hmiddle cvr.version clientId (patchDels cvr clientId patch)
  refine ⟨after, putPatches ++ delPatches, ?_, hafter, ?_⟩
  · simp [applyDesiredQueriesPatch, hput, hdel]
  · rw [hafterVersion, hmiddleVersion]
    by_cases hputs : putPatches = []
    · by_cases hdels : delPatches = []
      · simp [hputs, hdels]
      · simp [hputs, hbump]
    · by_cases hdels : delPatches = []
      · simp [hdels, hbump]
      · simp [hputs, hbump, hbumped]

end

/-! ## Runs -/

/-- A call of a client in a session that started at a version. -/
inductive DesireCall where
  | put (orig : CvrVersion) (clientId : String) (requests : List DesiredQueryRequest)
  | delete (orig : CvrVersion) (clientId : String) (hashes : List String) (inactivatedAt : Option ℚ)

namespace DesireCall

section

variable (parseF64 : String → Option ℚ)

/-- The record after a call, and the patches it returns. -/
def apply (cvr : Cvr) : DesireCall → Option (Cvr × List PatchToVersion)
  | put orig clientId requests => putDesiredQueries parseF64 cvr orig clientId requests
  | delete orig clientId hashes inactivatedAt => deleteQueries parseF64 cvr orig clientId hashes inactivatedAt

/-- Every call of a run returns, keeps both sides together and bumps the version exactly when it returns patches. -/
def RunKeeps (cvr : Cvr) : List DesireCall → Prop
  | [] => True
  | call :: rest => ∃ cvr' patches, call.apply parseF64 cvr = some (cvr', patches) ∧ Linked cvr' ∧
      (cvr.version.lt cvr'.version = true ↔ patches ≠ []) ∧ RunKeeps cvr' rest

/-- A call puts new queries with what a record needs, and is the first of its session that changes something
or changes nothing: its client desires all it puts for as long already, or none of what it deletes. -/
def Proper (cvr : Cvr) : DesireCall → Prop
  | put orig clientId requests => NewShaped cvr.queries requests ∧
      (orig.same cvr.version = true ∨ ∀ request ∈ requests, needsUpdate parseF64 cvr.queries clientId request = false)
  | delete orig clientId hashes _ =>
      orig.same cvr.version = true ∨ ∀ id ∈ hashes, id ∉ desiredIds cvr.clients clientId

/-- Every call of a run is proper where it is made. -/
def RunProper (cvr : Cvr) : List DesireCall → Prop
  | [] => True
  | call :: rest => call.Proper parseF64 cvr ∧
      ∀ cvr' patches, call.apply parseF64 cvr = some (cvr', patches) → RunProper cvr' rest

end

variable {parseF64 : String → Option ℚ} {cvr cvr' : Cvr} {call : DesireCall} {patches : List PatchToVersion}

theorem bumps_iff {orig : CvrVersion} (hversion : cvr'.version = if patches = [] then cvr.version else
    orig.ensureNewVersion cvr.version) :
    (cvr.version.lt cvr'.version = true ↔ patches ≠ []) ↔ (orig.same cvr.version = true ∨ patches = []) := by
  rw [hversion]
  by_cases hpatches : patches = []
  · simp [hpatches, lt]
  · simp [hpatches, lt_ensureNewVersion_iff]

/-- A call that returns keeps both sides together, and bumps the version as it should exactly when it is proper. -/
theorem apply_spec (hlinked : Linked cvr) (h : call.apply parseF64 cvr = some (cvr', patches)) :
    Linked cvr' ∧ ((cvr.version.lt cvr'.version = true ↔ patches ≠ []) ↔ call.Proper parseF64 cvr) := by
  cases call with
  | put orig clientId requests =>
    obtain ⟨hlinked', hpatches, hversion⟩ := putDesiredQueries_spec hlinked h
    have hshaped : NewShaped cvr.queries requests := putDesiredQueries_isSome.mp (isSome_iff_exists.mpr ⟨_, h⟩)
    exact ⟨hlinked', by simp only [bumps_iff hversion, Proper, hshaped, true_and, hpatches]⟩
  | delete orig clientId hashes inactivatedAt =>
    obtain ⟨after, patches', hdelete, hlinked', hpatches, hversion⟩ :=
      @deleteQueries_spec parseF64 cvr hlinked orig clientId hashes inactivatedAt
    obtain ⟨rfl, rfl⟩ := mk.inj (some.inj (hdelete.symm.trans h))
    exact ⟨hlinked', by simp only [bumps_iff hversion, Proper, hpatches]⟩

/-- A proper call returns. -/
theorem apply_isSome (hlinked : Linked cvr) (h : call.Proper parseF64 cvr) : (call.apply parseF64 cvr).isSome := by
  cases call with
  | put => exact putDesiredQueries_isSome.mpr h.1
  | delete orig clientId hashes inactivatedAt =>
    obtain ⟨after, patches, hdelete, -⟩ := @deleteQueries_spec parseF64 cvr hlinked orig clientId hashes inactivatedAt
    exact isSome_iff_exists.mpr ⟨_, hdelete⟩

/-- From a record whose two sides say the same, the calls of a run keep them together, bump the version
exactly when they return patches, and fail no assertion, exactly when each of them is proper. -/
theorem runKeeps_iff_runProper (parseF64 : String → Option ℚ) (cvr : Cvr) (hlinked : Linked cvr) (calls : List DesireCall) :
    RunKeeps parseF64 cvr calls ↔ RunProper parseF64 cvr calls := by
  induction calls generalizing cvr with
  | nil => exact Iff.rfl
  | cons call rest ih =>
    constructor
    · rintro ⟨cvr', patches, happly, hlinked', hbumps, hrest⟩
      refine ⟨(apply_spec hlinked happly).2.mp hbumps, ?_⟩
      intro after patches' happly'
      obtain ⟨rfl, rfl⟩ := mk.inj (some.inj (happly.symm.trans happly'))
      exact (ih cvr' hlinked').mp hrest
    · rintro ⟨hproper, hrest⟩
      obtain ⟨⟨cvr', patches⟩, happly⟩ := isSome_iff_exists.mp (apply_isSome hlinked hproper)
      obtain ⟨hlinked', hbumps⟩ := apply_spec hlinked happly
      exact ⟨cvr', patches, happly, hlinked', hbumps.mpr hproper, (ih cvr' hlinked').mpr (hrest cvr' patches happly)⟩

/-- The record of a new group. -/
def emptyCvr : Cvr := ⟨⟨"00", none⟩, [], []⟩

theorem linked_emptyCvr : Linked emptyCvr where
  listed_iff := by simp [emptyCvr, desiredIds, Active]
  sorted := by simp [emptyCvr, desiredIds]
  internal := by simp [emptyCvr, InternalFree]

/-- A query is put and another one deleted in one session. -/
theorem applyDesiredQueriesPatch_put : ∃ after patches, applyDesiredQueriesPatch (fun _ => none) emptyCvr "c1"
      [.put ⟨"q", none, some "list", some [], none⟩, .del "p"] = some (after, patches) ∧ Linked after ∧
    after.version = if patches = [] then ⟨"00", none⟩ else ⟨"00", some 1⟩ :=
  applyDesiredQueriesPatch_spec linked_emptyCvr "c1" _
    (by simp [NewShaped, patchPuts, ShapedFor, DesiredQueryRequest.shaped])

/-- A query is put and deleted again in another session. -/
theorem runKeeps_putThenDelete : RunKeeps (fun _ => none) emptyCvr
    [.put ⟨"00", none⟩ "c1" [⟨"q", none, some "list", some [], none⟩], .delete ⟨"00", some 1⟩ "c1" ["q"] none] := by
  refine (runKeeps_iff_runProper _ emptyCvr linked_emptyCvr _).mpr ⟨⟨?_, .inl rfl⟩, ?_⟩
  · intro request hrequest _ first hfirst
    obtain rfl : request = _ := mem_singleton.mp hrequest
    obtain rfl := some.inj hfirst
    rfl
  · intro cvr' patches happly
    obtain ⟨rfl, rfl⟩ := mk.inj (some.inj happly)
    exact ⟨.inl rfl, fun _ _ _ => trivial⟩

/-- A query that is put with neither a syntax tree nor a name fails an assertion. -/
theorem not_runKeeps_bareHash : ¬ RunKeeps (fun _ => none) emptyCvr
    [.put ⟨"00", none⟩ "c1" [⟨"q", none, none, none, none⟩]] := by
  rintro ⟨cvr', patches, happly, -⟩
  have hnone : apply (fun _ => none) emptyCvr (.put ⟨"00", none⟩ "c1" [⟨"q", none, none, none, none⟩]) = none := rfl
  cases happly

end DesireCall

end ZeroCache.ViewSyncer
