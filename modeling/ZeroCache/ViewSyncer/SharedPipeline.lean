import ZeroCache.ViewSyncer.AdvanceLog
import ZeroCache.ViewSyncer.Driver

/-!
# The shared pipeline of a client group

The connections of a client group share one driver (`group_shared_pipeline.rs`). The group counts
who desires a query (`group_query_set.rs`): the first desire hydrates it, the last one dropped
removes it. Advances go through a log with a cursor for each connection. A desire is recorded
before the hydration it asks for, and stays when that fails: `active_iff_desired_iff` says that
exactly then the driver and the desires part.
-/

namespace ZeroCache.ViewSyncer

open Sqlite Replica Zql Lib List Assoc

/-! ## Desires -/

/-- What a change of the desires asks of the shared driver. -/
inductive QueryTransition where
  | hydrate
  | remove
  | unchanged
  deriving DecidableEq, Repr

/-- The clients that desire each query. -/
structure GroupQuerySet where
  desirers : Fields (List String)

namespace GroupQuerySet

/-- The clients that desire a query. -/
def of (set : GroupQuerySet) (queryHash : String) : List String := (set.desirers.get? queryHash).getD []

/-- Record a desire. -/
def addDesire (set : GroupQuerySet) (clientId queryHash : String) : GroupQuerySet × QueryTransition :=
  (⟨set.desirers.set queryHash ((set.of queryHash).insert clientId)⟩,
    if (set.of queryHash).isEmpty then .hydrate else .unchanged)

/-- Drop a desire. -/
def removeDesire (set : GroupQuerySet) (clientId queryHash : String) : GroupQuerySet × QueryTransition :=
  match set.desirers.get? queryHash with
  | none => (set, .unchanged)
  | some clients =>
    if clientId ∈ clients then
      let rest := clients.filter (· ≠ clientId)
      if rest.isEmpty then (⟨set.desirers.erase queryHash⟩, .remove)
      else (⟨set.desirers.set queryHash rest⟩, .unchanged)
    else (set, .unchanged)

/-- Drop the desires of a client for some queries, and list the queries nobody desires any more. -/
def removeDesires (set : GroupQuerySet) (clientId : String) : List String → GroupQuerySet × List String
  | [] => (set, [])
  | queryHash :: rest =>
    let step := set.removeDesire clientId queryHash
    let others := step.1.removeDesires clientId rest
    (others.1, if step.2 = .remove then queryHash :: others.2 else others.2)

/-- Drop every desire of a client. -/
def removeClient (set : GroupQuerySet) (clientId : String) : GroupQuerySet × List String :=
  set.removeDesires clientId (sortedKeys (set.desirers.map Prod.fst))

/-- Forget who desires a query. -/
def clearQuery (set : GroupQuerySet) (queryHash : String) : GroupQuerySet := ⟨set.desirers.erase queryHash⟩

/-- Whether a client desires a query. -/
def clientDesires (set : GroupQuerySet) (clientId queryHash : String) : Bool :=
  (set.desirers.get? queryHash).any (fun clients => clientId ∈ clients)

variable {queryHash : String}

theorem exists_mem_of {set : GroupQuerySet} : (∃ clientId, clientId ∈ set.of queryHash) ↔ set.of queryHash ≠ [] :=
  ⟨fun ⟨_, h⟩ => ne_nil_of_mem h, exists_mem_of_ne_nil _⟩

theorem clientDesires_iff {set : GroupQuerySet} {clientId : String} :
    set.clientDesires clientId queryHash = true ↔ clientId ∈ set.of queryHash := by
  rw [clientDesires, of]
  cases set.desirers.get? queryHash with
  | none | some => simp

section

variable (set : GroupQuerySet)

theorem of_set (queryHash other : String) (clients : List String) :
    of ⟨set.desirers.set queryHash clients⟩ other = if other = queryHash then clients else set.of other := by
  simp only [of, get?_set]
  by_cases h : other = queryHash
  · simp [h]
  · simp [h]

theorem of_clearQuery (queryHash other : String) :
    (set.clearQuery queryHash).of other = if other = queryHash then [] else set.of other := by
  simp only [of, clearQuery, get?_erase]
  by_cases h : other = queryHash
  · simp [h]
  · simp [h]

theorem mem_of_addDesire (clientId queryHash client other : String) :
    client ∈ (set.addDesire clientId queryHash).1.of other ↔
      (client = clientId ∧ other = queryHash) ∨ client ∈ set.of other := by
  rw [addDesire, of_set]
  by_cases h : other = queryHash
  · simp [h]
  · simp [h]

/-- Dropping a desire takes the client out; the query is to be removed when it was the last one. -/
theorem removeDesire_spec (clientId queryHash : String) :
    (∀ client other, client ∈ (set.removeDesire clientId queryHash).1.of other ↔
        client ∈ set.of other ∧ ¬ (client = clientId ∧ other = queryHash)) ∧
      ((set.removeDesire clientId queryHash).2 = .remove ↔
        clientId ∈ set.of queryHash ∧ ∀ client ∈ set.of queryHash, client = clientId) := by
  have hof : set.of queryHash = (set.desirers.get? queryHash).getD [] := rfl
  rw [removeDesire]
  cases hclients : set.desirers.get? queryHash with
  | none =>
    rw [hclients] at hof
    refine ⟨fun client other => ⟨fun h => ⟨h, ?_⟩, fun h => h.1⟩, by simp [hof]⟩
    rintro ⟨rfl, rfl⟩
    simp [hof] at h
  | some clients =>
    rw [hclients, Option.getD_some] at hof
    by_cases hmem : clientId ∈ clients
    · have hlast : (clients.filter (· ≠ clientId)).isEmpty = true ↔ ∀ client ∈ clients, client = clientId := by
        simp [List.isEmpty_iff]
      have hrest : ∀ client other, (if other = queryHash then client ∈ clients.filter (· ≠ clientId)
          else client ∈ set.of other) ↔ client ∈ set.of other ∧ ¬ (client = clientId ∧ other = queryHash) := by
        intro client other
        by_cases h : other = queryHash
        · simp [h, hof]
        · simp [h]
      dsimp only
      rw [if_pos hmem]
      by_cases hempty : (clients.filter (· ≠ clientId)).isEmpty = true
      · rw [if_pos hempty]
        refine ⟨fun client other => (Iff.trans ?_ (hrest client other)), ?_⟩
        · have hcleared := of_clearQuery set queryHash other
          rw [clearQuery] at hcleared
          rw [hcleared]
          by_cases h : other = queryHash
          · rw [if_pos h, if_pos h, isEmpty_iff.mp hempty]
          · rw [if_neg h, if_neg h]
        · simp only [hof, true_iff]
          exact ⟨hmem, hlast.mp hempty⟩
      · rw [if_neg hempty]
        refine ⟨fun client other => (Iff.trans ?_ (hrest client other)), ?_⟩
        · rw [of_set]
          by_cases h : other = queryHash
          · simp [h]
          · simp [h]
        · simp only [reduceCtorEq, false_iff, hof, not_and]
          exact fun _ h => hempty (hlast.mpr h)
    · dsimp only
      rw [if_neg hmem]
      refine ⟨fun client other => ⟨fun h => ⟨h, ?_⟩, fun h => h.1⟩, by simp [hof, hmem]⟩
      rintro ⟨rfl, rfl⟩
      exact hmem (hof ▸ h)

/-- Dropping the desires of a client for some queries. -/
theorem removeDesires_spec (clientId : String) {hashes : List String} (hnodup : hashes.Nodup) :
    (∀ client other, client ∈ (set.removeDesires clientId hashes).1.of other ↔
        client ∈ set.of other ∧ ¬ (client = clientId ∧ other ∈ hashes)) ∧
      ∀ other, other ∈ (set.removeDesires clientId hashes).2 ↔
        other ∈ hashes ∧ clientId ∈ set.of other ∧ ∀ client ∈ set.of other, client = clientId := by
  induction hashes generalizing set with
  | nil => simp [removeDesires]
  | cons queryHash rest ih =>
    obtain ⟨hnotin, hrest⟩ := nodup_cons.mp hnodup
    obtain ⟨hstep, hlast⟩ := removeDesire_spec set clientId queryHash
    obtain ⟨hothers, hremoved⟩ := ih (set.removeDesire clientId queryHash).1 hrest
    have hkept : ∀ other ∈ rest, ∀ client, client ∈ (set.removeDesire clientId queryHash).1.of other ↔
        client ∈ set.of other := by
      intro other hother client
      rw [hstep]
      exact and_iff_left (fun h => hnotin (h.2 ▸ hother))
    refine ⟨fun client other => ?_, fun other => ?_⟩
    · rw [removeDesires, hothers, hstep, mem_cons]
      tauto
    · have hfound : other ∈ (set.removeDesires clientId (queryHash :: rest)).2 ↔
          (other = queryHash ∧ (set.removeDesire clientId queryHash).2 = .remove) ∨
            other ∈ ((set.removeDesire clientId queryHash).1.removeDesires clientId rest).2 := by
        rw [removeDesires]
        split
        · next h => simp [h]
        · next h => simp [h]
      rw [hfound, hlast, hremoved, mem_cons]
      constructor
      · rintro (⟨rfl, h⟩ | ⟨hother, h⟩)
        · exact ⟨.inl rfl, h⟩
        · simp only [hkept other hother] at h
          exact ⟨.inr hother, h⟩
      · rintro ⟨rfl | hother, h⟩
        · exact .inl ⟨rfl, h⟩
        · refine .inr ⟨hother, ?_⟩
          simpa only [hkept other hother] using h

/-- A removed client desires nothing; the queries only it desired are to be removed. -/
theorem removeClient_spec (clientId : String) :
    (∀ client other, client ∈ (set.removeClient clientId).1.of other ↔ client ∈ set.of other ∧ client ≠ clientId) ∧
      ∀ other, other ∈ (set.removeClient clientId).2 ↔
        clientId ∈ set.of other ∧ ∀ client ∈ set.of other, client = clientId := by
  have hkeys : ∀ client other, client ∈ set.of other → other ∈ sortedKeys (set.desirers.map Prod.fst) := by
    intro client other h
    rw [of] at h
    cases hclients : set.desirers.get? other with
    | none => simp [hclients] at h
    | some => exact mem_sortedKeys.mpr (mem_map.mpr ⟨_, mem_of_get? hclients, rfl⟩)
  obtain ⟨hdesires, hremoved⟩ := removeDesires_spec set clientId
    ((sortedKeys_sorted (set.desirers.map Prod.fst)).imp ne_of_lt)
  refine ⟨fun client other => (hdesires client other).trans ?_, fun other => (hremoved other).trans ?_⟩
  · exact and_congr_right (fun h => not_congr ⟨fun h => h.1, fun heq => ⟨heq, hkeys client other h⟩⟩)
  · exact ⟨fun h => h.2, fun h => ⟨hkeys _ _ h.1, h⟩⟩

end

end GroupQuerySet

/-! ## Calls -/

/-- The state the connections of a group share. -/
structure SharedGroupPipeline where
  driver : PipelineDriver
  querySet : GroupQuerySet
  advanceLog : AdvanceLog (List PipelineRowChange)

/-- The answer to a call. -/
abbrev Answer := Except PipelineError (List PipelineRowChange)

namespace SharedGroupPipeline

/-- A group without connections whose driver is at head. -/
def new (appId : String) (head : ReplicaFile) : SharedGroupPipeline :=
  ⟨PipelineDriver.new appId head, ⟨[]⟩, AdvanceLog.empty⟩

/-- Call the shared driver. -/
def drive (s : SharedGroupPipeline) (call : Driving (List PipelineRowChange)) : SharedGroupPipeline × Answer :=
  match call s.driver with
  | .ok changes driver => ({ s with driver := driver }, .ok changes)
  | .error e driver => ({ s with driver := driver }, .error e)

/-- A connection desires a query: the first desire hydrates it as asked, a later one is answered
with the rows held. -/
def desireBy (s : SharedGroupPipeline) (clientId queryId : String) (hydration : Driving (List PipelineRowChange)) :
    SharedGroupPipeline × Answer :=
  let recorded : SharedGroupPipeline :=
    { s with
      advanceLog := s.advanceLog.register clientId
      querySet := (s.querySet.addDesire clientId queryId).1 }
  match (s.querySet.addDesire clientId queryId).2 with
  | .hydrate => recorded.drive hydration
  | _ => (recorded, .ok (s.driver.currentQueryRows queryId))

variable (cfg : DriverConfig)

/-- A connection desires a query. -/
def desire (s : SharedGroupPipeline) (clientId queryId : String) (ast : Ast) (elapsedMs : ℚ) :
    SharedGroupPipeline × Answer :=
  s.desireBy clientId queryId (addQuery cfg queryId ast elapsedMs)

/-- A connection desires a query whose rows it has read. -/
def registerDesire (s : SharedGroupPipeline) (clientId queryId : String) (ast : Ast) (rows : List Row)
    (elapsedMs : ℚ) : SharedGroupPipeline × Answer :=
  s.desireBy clientId queryId (registerQuery cfg queryId ast rows elapsedMs)

/-- A connection no longer desires a query. -/
def undesire (s : SharedGroupPipeline) (clientId queryId : String) : SharedGroupPipeline × List PipelineRowChange :=
  let dropped : SharedGroupPipeline := { s with querySet := (s.querySet.removeDesire clientId queryId).1 }
  match (s.querySet.removeDesire clientId queryId).2 with
  | .remove => ({ dropped with driver := s.driver.removeQuery queryId }, s.driver.removedRows queryId)
  | _ => (dropped, [])

/-- Remove queries from the shared driver. -/
def removeQueries (driver : PipelineDriver) : List String → PipelineDriver × List PipelineRowChange
  | [] => (driver, [])
  | queryId :: rest =>
    let others := removeQueries (driver.removeQuery queryId) rest
    (others.1, driver.removedRows queryId ++ others.2)

/-- A connection leaves. -/
def removeClient (s : SharedGroupPipeline) (clientId : String) : SharedGroupPipeline × List PipelineRowChange :=
  let removed := removeQueries s.driver (s.querySet.removeClient clientId).2
  (⟨removed.1, (s.querySet.removeClient clientId).1, s.advanceLog.forget clientId⟩, removed.2)

/-- Drop a query for all connections. -/
def resetQuery (s : SharedGroupPipeline) (queryId : String) : SharedGroupPipeline × List PipelineRowChange :=
  ({ s with querySet := s.querySet.clearQuery queryId, driver := s.driver.removeQuery queryId },
    s.driver.removedRows queryId)

/-- Log an advance, unless it changed nothing. -/
def logAdvance (log : AdvanceLog (List PipelineRowChange)) (changes : List PipelineRowChange) :
    AdvanceLog (List PipelineRowChange) :=
  if changes.isEmpty then log else log.append changes

/-- Bring the driver to head for a connection, which skips all it had not read. -/
def advanceToHead (s : SharedGroupPipeline) (clientId : String) (head : ReplicaFile) (elapsed : ℕ → ℚ) :
    SharedGroupPipeline × Except PipelineError Unit :=
  match s.drive (advance cfg head elapsed) with
  | (moved, .error e) => (moved, .error e)
  | (moved, .ok changes) =>
    ({ moved with advanceLog := ((logAdvance moved.advanceLog changes).drainFor clientId).1 }, .ok ())

/-- Bring the driver to head and hand a connection what it has not read, for the queries it desires. -/
def pollAdvance (s : SharedGroupPipeline) (clientId : String) (head : ReplicaFile) (elapsed : ℕ → ℚ) :
    SharedGroupPipeline × Answer :=
  match s.drive (advance cfg head elapsed) with
  | (moved, .error e) => (moved, .error e)
  | (moved, .ok changes) =>
    let drained := (logAdvance moved.advanceLog changes).drainFor clientId
    ({ moved with advanceLog := drained.1 },
      .ok (drained.2.flatten.filter (fun change => s.querySet.clientDesires clientId change.queryId)))

end SharedGroupPipeline

/-- A call of a shared pipeline. -/
inductive SharedCall where
  | desire (clientId queryId : String) (ast : Ast) (elapsedMs : ℚ)
  | registerDesire (clientId queryId : String) (ast : Ast) (rows : List Row) (elapsedMs : ℚ)
  | undesire (clientId queryId : String)
  | removeClient (clientId : String)
  | resetQuery (queryId : String)
  | pollAdvance (clientId : String) (head : ReplicaFile) (elapsed : ℕ → ℚ)
  | advanceToHead (clientId : String) (head : ReplicaFile) (elapsed : ℕ → ℚ)
  | advance (head : ReplicaFile) (elapsed : ℕ → ℚ)

/-- The state after a call, whether it succeeded or not. -/
def SharedGroupPipeline.afterCall (cfg : DriverConfig) (s : SharedGroupPipeline) : SharedCall → SharedGroupPipeline
  | .desire clientId queryId ast elapsedMs => (s.desire cfg clientId queryId ast elapsedMs).1
  | .registerDesire clientId queryId ast rows elapsedMs => (s.registerDesire cfg clientId queryId ast rows elapsedMs).1
  | .undesire clientId queryId => (s.undesire clientId queryId).1
  | .removeClient clientId => (s.removeClient clientId).1
  | .resetQuery queryId => (s.resetQuery queryId).1
  | .pollAdvance clientId head elapsed => (s.pollAdvance cfg clientId head elapsed).1
  | .advanceToHead clientId head elapsed => (s.advanceToHead cfg clientId head elapsed).1
  | .advance head elapsed => (s.drive (ViewSyncer.advance cfg head elapsed)).1

/-! ## Active and desired queries -/

namespace SharedGroupPipeline

/-- The driver holds exactly the queries some client desires. -/
def ActiveIffDesired (s : SharedGroupPipeline) : Prop :=
  ∀ queryId, s.driver.Active queryId ↔ ∃ clientId, s.querySet.clientDesires clientId queryId = true

/-- The hydration a call asks for succeeds, if it asks for one: it does when nobody desires the
query yet. -/
def HydrationSucceeds (cfg : DriverConfig) (s : SharedGroupPipeline) : SharedCall → Prop
  | .desire _ queryId ast _ => s.querySet.of queryId = [] → Hydrates cfg s.driver ast
  | .registerDesire _ queryId ast rows _ => s.querySet.of queryId = [] → Registers cfg ast rows
  | _ => True

end SharedGroupPipeline

section Desired

open SharedGroupPipeline GroupQuerySet

variable {cfg : DriverConfig} {s : SharedGroupPipeline}

theorem activeIffDesired_iff :
    s.ActiveIffDesired ↔ ∀ queryId, s.driver.Active queryId ↔ s.querySet.of queryId ≠ [] := by
  refine forall_congr' (fun queryId => iff_congr Iff.rfl ?_)
  simp only [clientDesires_iff, exists_mem_of]

theorem drive_driver (s : SharedGroupPipeline) (call : Driving (List PipelineRowChange)) :
    (s.drive call).1 = { s with driver := finalState call s.driver } := by
  rw [drive, finalState]
  cases call s.driver with
  | ok | error => rfl

/-- A desire keeps the driver and the desires together when the first one is hydrated. -/
theorem desireBy_activeIffDesired (h : s.ActiveIffDesired) {clientId queryId : String}
    {hydration : Driving (List PipelineRowChange)} {succeeds : Prop}
    (hactive : ∀ other, (finalState hydration s.driver).Active other ↔
      if other = queryId then succeeds ∨ s.driver.Active other else s.driver.Active other) :
    (s.desireBy clientId queryId hydration).1.ActiveIffDesired ↔ (s.querySet.of queryId = [] → succeeds) := by
  rw [activeIffDesired_iff] at h ⊢
  have hdesired : ∀ other, (s.querySet.addDesire clientId queryId).1.of other ≠ [] ↔
      other = queryId ∨ s.querySet.of other ≠ [] := by
    intro other
    simp only [← exists_mem_of, mem_of_addDesire]
    constructor
    · rintro ⟨client, ⟨-, hother⟩ | hmem⟩
      · exact .inl hother
      · exact .inr ⟨client, hmem⟩
    · rintro (hother | ⟨client, hmem⟩)
      · exact ⟨clientId, .inl ⟨rfl, hother⟩⟩
      · exact ⟨client, .inr hmem⟩
  by_cases hfirst : s.querySet.of queryId = []
  · have hcall : (s.desireBy clientId queryId hydration).1.driver = finalState hydration s.driver ∧
        (s.desireBy clientId queryId hydration).1.querySet = (s.querySet.addDesire clientId queryId).1 := by
      simp [desireBy, addDesire, hfirst, drive_driver]
    rw [hcall.1, hcall.2]
    simp only [hactive, hdesired, hfirst, forall_const]
    constructor
    · intro hafter
      have hquery := (hafter queryId).mpr (.inl rfl)
      rw [if_pos rfl, h queryId] at hquery
      exact hquery.resolve_right (fun hne => hne hfirst)
    · intro hsucceeds other
      by_cases hother : other = queryId
      · simp [hother, hsucceeds]
      · simp [hother, h other]
  · have hcall : (s.desireBy clientId queryId hydration).1.driver = s.driver ∧
        (s.desireBy clientId queryId hydration).1.querySet = (s.querySet.addDesire clientId queryId).1 := by
      simp [desireBy, addDesire, hfirst]
    rw [hcall.1, hcall.2]
    simp only [hdesired, hfirst, false_implies, iff_true]
    intro other
    rw [h other]
    constructor
    · exact .inr
    · rintro (rfl | hother)
      · exact hfirst
      · exact hother

theorem pipelines_removeQueries (driver : PipelineDriver) (removed : List String) (queryId : String) :
    (removeQueries driver removed).1.pipelines.get? queryId =
      if queryId ∈ removed then none else driver.pipelines.get? queryId := by
  induction removed generalizing driver with
  | nil => rfl
  | cons first rest ih =>
    rw [removeQueries, ih, PipelineDriver.removeQuery, get?_erase]
    by_cases hfirst : queryId = first
    · simp [hfirst]
    · simp [hfirst]

/-- A call that drops desires: a query still desired is left alone, one that lost its last client is
removed, and of one nobody desired nothing comes. -/
structure Drops (s s' : SharedGroupPipeline) (dropped : String → String → Prop) : Prop where
  desires : ∀ clientId queryId, clientId ∈ s'.querySet.of queryId ↔
    clientId ∈ s.querySet.of queryId ∧ ¬ dropped clientId queryId
  kept : ∀ queryId, s'.querySet.of queryId ≠ [] → s'.driver.pipelines.get? queryId = s.driver.pipelines.get? queryId
  removed : ∀ queryId, s'.querySet.of queryId = [] → s.querySet.of queryId ≠ [] →
    s'.driver.pipelines.get? queryId = none
  undesired : ∀ queryId, s.querySet.of queryId = [] →
    s'.driver.pipelines.get? queryId = s.driver.pipelines.get? queryId ∨ s'.driver.pipelines.get? queryId = none

namespace Drops

variable {s s' : SharedGroupPipeline} {dropped : String → String → Prop}

theorem desired_before (h : Drops s s' dropped) {queryId : String} (hdesired : s'.querySet.of queryId ≠ []) :
    s.querySet.of queryId ≠ [] := by
  obtain ⟨clientId, hclient⟩ := exists_mem_of_ne_nil _ hdesired
  exact ne_nil_of_mem ((h.desires clientId queryId).mp hclient).1

/-- A query nobody desires after the call is not active, if it was not active undesired before. -/
theorem inactive (h : Drops s s' dropped) (hbefore : ∀ queryId, s.querySet.of queryId = [] → ¬ s.driver.Active queryId)
    (queryId : String) (hnone : s'.querySet.of queryId = []) : ¬ s'.driver.Active queryId := by
  rw [PipelineDriver.Active]
  by_cases hold : s.querySet.of queryId = []
  · rcases h.undesired queryId hold with hsame | hremoved
    · rw [hsame]
      exact hbefore queryId hold
    · simp [hremoved]
  · simp [h.removed queryId hnone hold]

theorem activeIffDesired (h : Drops s s' dropped) (hbefore : s.ActiveIffDesired) : s'.ActiveIffDesired := by
  rw [activeIffDesired_iff] at hbefore ⊢
  intro queryId
  constructor
  · intro hactive hnone
    exact h.inactive (fun other hother hactive => (hbefore other).mp hactive hother) queryId hnone hactive
  · intro hdesired
    have hactive := (hbefore queryId).mpr (h.desired_before hdesired)
    rwa [PipelineDriver.Active, h.kept queryId hdesired]

end Drops

theorem undesire_drops (s : SharedGroupPipeline) (clientId queryId : String) :
    Drops s (s.undesire clientId queryId).1 (fun client query => client = clientId ∧ query = queryId) := by
  obtain ⟨hdesires, hlast⟩ := removeDesire_spec s.querySet clientId queryId
  have hset : (s.undesire clientId queryId).1.querySet = (s.querySet.removeDesire clientId queryId).1 := by
    rw [undesire]
    split
    · rfl
    · rfl
  by_cases hremove : (s.querySet.removeDesire clientId queryId).2 = .remove
  · have hpipelines : ∀ query, (s.undesire clientId queryId).1.driver.pipelines.get? query =
        if query = queryId then none else s.driver.pipelines.get? query := by
      intro query
      rw [undesire, hremove]
      exact get?_erase _ _ _
    have honly := (hlast.mp hremove).2
    refine ⟨fun client query => by rw [hset, hdesires], fun query hdesired => ?_, fun query hnone hold => ?_,
      fun query hnone => ?_⟩
    · obtain ⟨client, hclient⟩ := exists_mem_of_ne_nil _ hdesired
      rw [hset, hdesires] at hclient
      rw [hpipelines, if_neg]
      rintro rfl
      exact hclient.2 ⟨honly client hclient.1, rfl⟩
    · obtain ⟨client, hclient⟩ := exists_mem_of_ne_nil _ hold
      rw [hpipelines, if_pos]
      by_contra hne
      rw [eq_nil_iff_forall_not_mem] at hnone
      exact hnone client (by rw [hset, hdesires]; exact ⟨hclient, fun h => hne h.2⟩)
    · rw [hpipelines]
      split
      · exact .inr rfl
      · exact .inl rfl
  · have hdriver : (s.undesire clientId queryId).1.driver = s.driver := by
      rw [undesire]
      split
      · next heq => exact absurd heq hremove
      · rfl
    refine ⟨fun client query => by rw [hset, hdesires], fun query _ => by rw [hdriver], fun query hnone hold => ?_,
      fun query _ => .inl (by rw [hdriver])⟩
    -- The last desire of the query was dropped, so it had to be removed.
    exfalso
    rw [eq_nil_iff_forall_not_mem] at hnone
    have hdropped : ∀ client ∈ s.querySet.of query, client = clientId ∧ query = queryId := by
      intro client hclient
      by_contra hne
      exact hnone client (by rw [hset, hdesires]; exact ⟨hclient, hne⟩)
    obtain ⟨client, hclient⟩ := exists_mem_of_ne_nil _ hold
    obtain ⟨rfl, rfl⟩ := hdropped client hclient
    exact hremove (hlast.mpr ⟨hclient, fun other hother => (hdropped other hother).1⟩)

theorem removeClient_drops (s : SharedGroupPipeline) (clientId : String) :
    Drops s (s.removeClient clientId).1 (fun client _ => client = clientId) := by
  obtain ⟨hdesires, hremoved⟩ := removeClient_spec s.querySet clientId
  have hpipelines : ∀ query, (s.removeClient clientId).1.driver.pipelines.get? query =
      if query ∈ (s.querySet.removeClient clientId).2 then none else s.driver.pipelines.get? query :=
    fun query => pipelines_removeQueries _ _ _
  refine ⟨hdesires, fun query hdesired => ?_, fun query hnone hold => ?_, fun query hnone => ?_⟩
  · obtain ⟨client, hclient⟩ := exists_mem_of_ne_nil _ hdesired
    obtain ⟨hclient, hne⟩ := (hdesires client query).mp hclient
    rw [hpipelines, if_neg]
    intro hmem
    exact hne (((hremoved query).mp hmem).2 client hclient)
  · obtain ⟨client, hclient⟩ := exists_mem_of_ne_nil _ hold
    have honly : ∀ other ∈ s.querySet.of query, other = clientId := by
      intro other hother
      by_contra hne
      exact eq_nil_iff_forall_not_mem.mp hnone other ((hdesires other query).mpr ⟨hother, hne⟩)
    rw [hpipelines, if_pos ((hremoved query).mpr ⟨honly client hclient ▸ hclient, honly⟩)]
  · rw [hpipelines]
    split
    · exact .inr rfl
    · exact .inl rfl

theorem resetQuery_drops (s : SharedGroupPipeline) (queryId : String) :
    Drops s (s.resetQuery queryId).1 (fun _ query => query = queryId) := by
  have hof : ∀ query, (s.resetQuery queryId).1.querySet.of query = if query = queryId then [] else s.querySet.of query :=
    fun query => of_clearQuery _ _ _
  have hpipelines : ∀ query, (s.resetQuery queryId).1.driver.pipelines.get? query =
      if query = queryId then none else s.driver.pipelines.get? query := fun query => get?_erase _ _ _
  refine ⟨fun client query => ?_, fun query hdesired => ?_, fun query hnone hold => ?_, fun query hnone => ?_⟩
  · rw [hof]
    by_cases hquery : query = queryId
    · simp [hquery]
    · simp [hquery]
  · rw [hpipelines, if_neg]
    rintro rfl
    exact hdesired (by rw [hof, if_pos rfl])
  · rw [hpipelines, if_pos]
    by_contra hne
    rw [hof, if_neg hne] at hnone
    exact hold hnone
  · rw [hpipelines]
    split
    · exact .inr rfl
    · exact .inl rfl

theorem advance_activeIffDesired {moved : SharedGroupPipeline} (h : s.ActiveIffDesired) (cfg : DriverConfig)
    (head : ReplicaFile) (elapsed : ℕ → ℚ) (hdriver : moved.driver = finalState (advance cfg head elapsed) s.driver)
    (hset : moved.querySet = s.querySet) : moved.ActiveIffDesired := by
  intro queryId
  rw [hdriver, hset]
  exact (advance_sameActive cfg head elapsed s.driver queryId).trans (h queryId)

/-- A call keeps the driver and the desires together exactly when the hydration it asks for succeeds. -/
theorem afterCall_activeIffDesired (h : s.ActiveIffDesired) (call : SharedCall) :
    (s.afterCall cfg call).ActiveIffDesired ↔ s.HydrationSucceeds cfg call := by
  have hmoved : ∀ head elapsed, (s.drive (advance cfg head elapsed)).1.driver =
      finalState (advance cfg head elapsed) s.driver ∧
      (s.drive (advance cfg head elapsed)).1.querySet = s.querySet := by
    intro head elapsed
    rw [drive_driver]
    exact ⟨rfl, rfl⟩
  cases call with
  | desire clientId queryId ast elapsedMs =>
    by_cases hfirst : s.querySet.of queryId = []
    · refine desireBy_activeIffDesired h (fun other => ?_)
      have hinactive : ¬ s.driver.Active queryId := fun hactive => (activeIffDesired_iff.mp h queryId).mp hactive hfirst
      rw [active_addQuery]
      by_cases hother : other = queryId
      · simp [hother, hinactive]
      · simp [hother]
    · -- The query is desired already: nothing is hydrated.
      have hunchanged : (s.desireBy clientId queryId (addQuery cfg queryId ast elapsedMs)).1 =
          (s.desireBy clientId queryId (pure [])).1 := by
        simp [desireBy, addDesire, hfirst]
      have hkept : (s.desireBy clientId queryId (pure [])).1.ActiveIffDesired ↔ (s.querySet.of queryId = [] → False) :=
        desireBy_activeIffDesired h (fun other => by simp)
      refine iff_of_true ?_ (fun hnone => absurd hnone hfirst)
      rw [afterCall, desire, hunchanged]
      exact hkept.mpr (fun hnone => absurd hnone hfirst)
  | registerDesire clientId queryId =>
    refine desireBy_activeIffDesired h (fun other => ?_)
    rw [active_registerQuery]
    by_cases hother : other = queryId
    · simp [hother]
    · simp [hother]
  | undesire clientId queryId => exact iff_of_true ((undesire_drops s clientId queryId).activeIffDesired h) trivial
  | removeClient clientId => exact iff_of_true ((removeClient_drops s clientId).activeIffDesired h) trivial
  | resetQuery queryId => exact iff_of_true ((resetQuery_drops s queryId).activeIffDesired h) trivial
  | pollAdvance clientId head elapsed | advanceToHead clientId head elapsed =>
    refine iff_of_true (advance_activeIffDesired h cfg head elapsed ?_ ?_) trivial
    all_goals
      simp only [afterCall, pollAdvance, advanceToHead]
      rcases hcase : s.drive (advance cfg head elapsed) with ⟨moved, answer⟩
      have hmoved := hmoved head elapsed
      rw [hcase] at hmoved
      cases answer with
      | error | ok => first | exact hmoved.1 | exact hmoved.2
  | advance head elapsed =>
    exact iff_of_true (advance_activeIffDesired h cfg head elapsed (hmoved head elapsed).1 (hmoved head elapsed).2) trivial

/-- In every state of a run the driver holds exactly the desired queries if and only if every
hydration a first desire asked for succeeded. -/
theorem active_iff_desired_iff (appId : String) (head : ReplicaFile) (calls : List SharedCall) :
    (∀ before rest, calls = before ++ rest →
        (before.foldl (afterCall cfg) (SharedGroupPipeline.new appId head)).ActiveIffDesired) ↔
      ∀ before call rest, calls = before ++ call :: rest →
        (before.foldl (afterCall cfg) (SharedGroupPipeline.new appId head)).HydrationSucceeds cfg call := by
  refine foldl_prefix_iff ?_ (fun before call hbefore => afterCall_activeIffDesired hbefore call)
  intro queryId
  simp [new, PipelineDriver.new, PipelineDriver.Active, clientDesires]

end Desired

/-- A driver that syncs no table. -/
def bareConfig : DriverConfig := ⟨textKeyEnv, "app", [], [], fun _ => Source.ofTables (fun _ => []), fun _ => 0⟩

/-- A query of a table that is not synced. -/
def unsyncedQuery : Ast := .mk none "audit" none none [] none none none

/-- A client desires a query of a table that is not synced: the hydration fails and the desire stays. -/
theorem not_activeIffDesired_unsynced :
    ¬ ((SharedGroupPipeline.new "app" (issuesAt "00" [] []).file).afterCall bareConfig
      (.desire "c1" "q" unsyncedQuery 1)).ActiveIffDesired := by
  intro h
  have hdesired := (h "q").mpr ⟨"c1", rfl⟩
  exact Bool.false_ne_true hdesired

end ZeroCache.ViewSyncer
