import ZeroCache.ViewSyncer.DesiredQueries
import Mathlib.Data.List.Perm.Basic

/-!
# Eviction of inactive queries

A query that all its clients have given up is kept until their times to live have passed.
`cvr_eviction.rs` lists such queries by the time they expire, `view_syncer_lifecycle.rs` asks whether a
query has expired at a given clock. Times are exact.
-/

namespace ZeroCache.ViewSyncer

open List Option QueryRecord

/-! ## The list of inactive queries -/

/-- A query all its clients have given up, with the state that expires last. -/
structure InactiveQuery where
  hash : String
  inactivatedAt : ℚ
  ttlMs : ℚ

/-- When an inactive query expires. -/
def InactiveQuery.expire (query : InactiveQuery) : ℚ := query.inactivatedAt + query.ttlMs

/-- The time a stored time to live counts for; one in milliseconds is not parsed. -/
def clampMs (ttl : ℚ) : ℚ := Ttl.clamp (fun _ => none) (.millis ttl)

/-- The last of the states to expire, with what the states before it gave; `none` if one is active. -/
def lastToExpire (hash : String) : Option InactiveQuery → List ClientQueryState → Option (Option InactiveQuery)
  | current, [] => some current
  | current, state :: states => do
    let inactivatedAt ← state.inactivatedAt
    let clampedTtl := clampMs state.ttl
    match current with
    | none => lastToExpire hash (some ⟨hash, inactivatedAt, clampedTtl⟩) states
    | some existing =>
      if clampMs existing.ttlMs + existing.inactivatedAt < inactivatedAt + clampedTtl then
        lastToExpire hash (some ⟨existing.hash, inactivatedAt, clampedTtl⟩) states
      else lastToExpire hash (some existing) states

/-- The states of a query's clients. -/
def QueryRecord.states (query : QueryRecord) : List ClientQueryState := query.clientState.map (·.2)

/-- The entry of a query in the list of inactive ones. -/
def inactiveQuery (entry : String × QueryRecord) : Option InactiveQuery :=
  if entry.2.isInternal then none else (lastToExpire entry.1 none entry.2.states).join

/-- The comparison the list is sorted by. -/
def expiresFirst (a b : InactiveQuery) : Bool :=
  if a.ttlMs = b.ttlMs then a.inactivatedAt ≤ b.inactivatedAt else a.expire ≤ b.expire

/-- The inactive queries, the first to expire first (`get_inactive_queries`). -/
def getInactiveQueries (cvr : Cvr) : List InactiveQuery :=
  (cvr.queries.filterMap inactiveQuery).insertionSort (expiresFirst · ·)

/-- When the next query is evicted (`next_eviction_time`). -/
def nextEvictionTime (cvr : Cvr) : Option ℚ :=
  (getInactiveQueries cvr).foldl
    (fun next query => if next.all (query.expire < ·) then some query.expire else next) none

/-- Whether a query has expired: no client has it active and each time to live has passed (`expired`). -/
def expired (ttlClock : ℚ) (query : QueryRecord) : Bool :=
  !query.isInternal && query.states.all fun state =>
    state.inactivatedAt.any fun inactivatedAt => !(ttlClock < inactivatedAt + clampMs state.ttl)

def hasExpiredQueries (ttlClock : ℚ) (queries : List QueryRecord) : Bool := queries.any (expired ttlClock)

/-! ## What is listed -/

/-- A client's query with at least one client state, none of them active. -/
def QueryRecord.givenUp (query : QueryRecord) : Bool :=
  !query.isInternal && !query.states.isEmpty && query.states.all (·.inactivatedAt.isSome)

/-- When the inactive ones of some client states expire. -/
def expiries (states : List ClientQueryState) : List ℚ :=
  states.filterMap fun state => state.inactivatedAt.map (· + clampMs state.ttl)

/-- The entry of a query: its id and its last expiry. -/
def IsEntry (query : String × QueryRecord) (listed : InactiveQuery) : Prop :=
  listed.hash = query.1 ∧ (expiries query.2.states).max? = some listed.expire

theorem clampMs_clampMs (ttl : ℚ) : clampMs (clampMs ttl) = clampMs ttl := by
  simp only [clampMs, Ttl.clamp, Ttl.parse]
  grind

/-- Past its first state the loop keeps the last expiry. -/
theorem lastToExpire_some {hash : String} {states : List ClientQueryState}
    (hstates : ∀ state ∈ states, state.inactivatedAt.isSome) {current : InactiveQuery}
    (hhash : current.hash = hash) (hclamped : clampMs current.ttlMs = current.ttlMs) :
    ∃ last, lastToExpire hash (some current) states = some (some last) ∧ last.hash = hash ∧
      last.expire = (expiries states).foldl max current.expire := by
  induction states generalizing current with
  | nil => exact ⟨current, rfl, hhash, rfl⟩
  | cons state states ih =>
    obtain ⟨inactivatedAt, hat⟩ := isSome_iff_exists.mp (hstates state mem_cons_self)
    have hrest := fun other h => hstates other (mem_cons_of_mem _ h)
    have hexpire : current.expire = clampMs current.ttlMs + current.inactivatedAt := by
      rw [hclamped, InactiveQuery.expire, add_comm]
    simp only [lastToExpire, expiries, filterMap_cons, hat, bind_eq_bind, bind_some, map_some, foldl_cons, hexpire]
    split
    · next hlt =>
      rw [max_eq_right hlt.le]
      exact ih hrest hhash (clampMs_clampMs _)
    · next hge =>
      rw [max_eq_left (not_lt.mp hge), ← hexpire]
      exact ih hrest hhash hclamped

theorem lastToExpire_none {hash : String} {states : List ClientQueryState}
    (hstates : ¬ ∀ state ∈ states, state.inactivatedAt.isSome) (current : Option InactiveQuery) :
    lastToExpire hash current states = none := by
  induction states generalizing current with
  | nil => simp at hstates
  | cons state states ih =>
    cases hat : state.inactivatedAt with
    | none => simp [lastToExpire, hat]
    | some inactivatedAt =>
      have hrest : ¬ ∀ state ∈ states, state.inactivatedAt.isSome := by simpa [hat] using hstates
      cases current <;> simp [lastToExpire, hat, ih hrest]

/-- A query is listed if it is given up. -/
theorem inactiveQuery_spec (query : String × QueryRecord) :
    if query.2.givenUp then ∃ listed, inactiveQuery query = some listed ∧ IsEntry query listed
    else inactiveQuery query = none := by
  unfold inactiveQuery IsEntry givenUp
  cases query.2.isInternal with
  | true => simp
  | false =>
    rcases query.2.states with _ | ⟨state, states⟩
    · rfl
    by_cases hall : ∀ other ∈ state :: states, other.inactivatedAt.isSome
    · obtain ⟨inactivatedAt, hat⟩ := isSome_iff_exists.mp (hall state mem_cons_self)
      obtain ⟨last, hlast, hhash, hexpire⟩ := @lastToExpire_some query.1 states
        (fun other h => hall other (mem_cons_of_mem _ h)) ⟨query.1, inactivatedAt, clampMs state.ttl⟩ rfl (clampMs_clampMs _)
      rw [if_pos (by simpa using hall)]
      refine ⟨last, by simp [lastToExpire, hat, hlast], hhash, ?_⟩
      simp only [hexpire, expiries, filterMap_cons, hat]
      rfl
    · rw [if_neg (by simpa using hall), lastToExpire_none hall]
      rfl

/-! ## What has expired -/

/-- The next time is the first expiry of the list. -/
theorem nextEvictionTime_le_iff {cvr : Cvr} {clock : ℚ} : (∃ next, nextEvictionTime cvr = some next ∧ next ≤ clock) ↔
      ∃ listed ∈ getInactiveQueries cvr, listed.expire ≤ clock := by
  have hfold : ∀ (queries : List InactiveQuery) (start : Option ℚ),
      (∃ next, queries.foldl (fun next query => if next.all (query.expire < ·) then some query.expire else next)
        start = some next ∧ next ≤ clock) ↔
      (∃ next, start = some next ∧ next ≤ clock) ∨ ∃ listed ∈ queries, listed.expire ≤ clock := by
    intro queries
    induction queries with
    | nil => simp
    | cons query queries ih =>
      intro start
      rw [foldl_cons, ih]
      cases start <;> grind
  exact (hfold (getInactiveQueries cvr) none).trans (by simp)

/-- A query has expired if it has no client states, or if it is listed and its expiry has come. -/
theorem expired_iff {clock : ℚ} {query : String × QueryRecord} :
    expired clock query.2 = true ↔ (query.2.isInternal = false ∧ query.2.states = []) ∨
      ∃ listed, inactiveQuery query = some listed ∧ listed.expire ≤ clock := by
  have hexpired : expired clock query.2 = true ↔ query.2.isInternal = false ∧ ∀ state ∈ query.2.states,
      ∃ time, state.inactivatedAt = some time ∧ time + clampMs state.ttl ≤ clock := by
    simp [expired, Option.any_eq_true]
  have hgiven : query.2.givenUp = true ↔ query.2.isInternal = false ∧ query.2.states ≠ [] ∧
      ∀ state ∈ query.2.states, ∃ time, state.inactivatedAt = some time := by
    simp [givenUp, isSome_iff_exists, and_assoc]
  have hspec := inactiveQuery_spec query
  split at hspec
  · obtain ⟨listed, hlisted, -, hmax⟩ := hspec
    have hle : listed.expire ≤ clock ↔ ∀ time ∈ expiries query.2.states, time ≤ clock := max?_le_iff hmax
    simp only [expiries] at hle
    grind
  · grind

/-! ## The list and the clock -/

theorem expiresFirst_iff {a b : InactiveQuery} : expiresFirst a b = true ↔ a.expire ≤ b.expire := by
  simp only [expiresFirst, InactiveQuery.expire]
  grind

theorem isEntry_inactiveQuery (queries : Fields QueryRecord) :
    Forall₂ IsEntry (queries.filter (·.2.givenUp)) (queries.filterMap inactiveQuery) := by
  induction queries with
  | nil => exact .nil
  | cons query queries ih =>
    have hspec := inactiveQuery_spec query
    rw [filter_cons]
    split at hspec
    · next hgiven =>
      obtain ⟨listed, hlisted, hentry⟩ := hspec
      rw [if_pos hgiven, filterMap_cons_some hlisted]
      exact .cons hentry ih
    · next hgiven =>
      rw [if_neg hgiven, filterMap_cons_none hspec]
      exact ih

/-- The list has an entry for each given-up query, in ascending order of the expiries. A query has expired
if a client's query has no client states, or if the next eviction time has come. -/
theorem getInactiveQueries_and_expired (cvr : Cvr) :
    (∃ queries, cvr.queries.filter (·.2.givenUp) ~ queries ∧ Forall₂ IsEntry queries (getInactiveQueries cvr)) ∧
    (getInactiveQueries cvr).Pairwise (·.expire ≤ ·.expire) ∧
    ∀ clock, hasExpiredQueries clock (cvr.queries.map (·.2)) = true ↔
      (∃ query ∈ cvr.queries, query.2.isInternal = false ∧ query.2.states = []) ∨
        ∃ next, nextEvictionTime cvr = some next ∧ next ≤ clock := by
  refine ⟨?_, ?_, fun clock => ?_⟩
  · have hcomp : Relation.Comp (Forall₂ IsEntry) Perm (cvr.queries.filter (·.2.givenUp)) (getInactiveQueries cvr) :=
      ⟨_, isEntry_inactiveQuery _, (perm_insertionSort _ _).symm⟩
    rwa [forall₂_comp_perm_eq_perm_comp_forall₂] at hcomp
  · have htotal : Std.Total fun a b => expiresFirst a b = true := ⟨fun a b => by
      simpa only [expiresFirst_iff] using le_total a.expire b.expire⟩
    have htrans : IsTrans InactiveQuery fun a b => expiresFirst a b = true := ⟨fun a b c => by
      simpa only [expiresFirst_iff] using le_trans⟩
    exact (pairwise_insertionSort _ _).imp expiresFirst_iff.mp
  · rw [nextEvictionTime_le_iff]
    simp only [hasExpiredQueries, List.any_map, List.any_eq_true, Function.comp_apply, expired_iff,
      getInactiveQueries, mem_insertionSort]
    grind

/-- A query no client has a state of has expired at once, and no eviction is due. -/
theorem not_expired_iff_unreferenced :
    let cvr : Cvr := ⟨⟨"00", none⟩, [], [("q", ⟨"q", .custom "mine" [], none, none, [], none⟩)]⟩
    ¬ ∀ clock, hasExpiredQueries clock (cvr.queries.map (·.2)) = true ↔
      ∃ next, nextEvictionTime cvr = some next ∧ next ≤ clock := by
  intro cvr h
  obtain ⟨next, hnext, -⟩ := (h 0).mp rfl
  cases (show none = some next from hnext)

end ZeroCache.ViewSyncer
