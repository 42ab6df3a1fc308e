import ZeroCache.ViewSyncer.DriverReports
import ZeroCache.ViewSyncer.SharedPipeline

/-!
# The rows the clients of a group have

A client takes the rows it is answered when it desires a query and writes every change it is
handed for the query since (`group_shared_pipeline.rs`). Seeds and log entries come from different
moments: a client may be seeded with rows that already show entries it has yet to read, which does
no harm as long as the entries are of the query as it was hydrated. `views_follow` says for which
runs a client that has drained its log has exactly the driver's rows of every query it desires.
-/

namespace ZeroCache.ViewSyncer

open Sqlite Replica Zql Lib SharedGroupPipeline List Option Assoc ViewSyncer PipelineDriver GroupQuerySet AdvanceLog Prod

/-- The contents of the rows a client has for a query, by key. -/
abbrev View := String → Option Row

/-- A shared pipeline and the rows its clients have for the queries they were answered. -/
structure Watched where
  shared : SharedGroupPipeline
  views : String → String → Option View

namespace Watched

variable (cfg : DriverConfig)

/-- A group without connections whose driver is at head. -/
def new (appId : String) (head : ReplicaFile) : Watched := ⟨SharedGroupPipeline.new appId head, fun _ _ => none⟩

/-- A client is answered a desire: it starts from the rows in the answer. -/
def seed (w : Watched) (clientId queryId : String) (call : SharedGroupPipeline × Answer) : Watched :=
  { shared := call.1
    views := fun client query =>
      if client = clientId ∧ query = queryId then
        match call.2 with
        | .ok changes => some (overwrite (fun _ => none) (writesFor cfg.env queryId changes))
        | .error _ => none
      else w.views client query }

/-- Clients give up the rows of queries they no longer desire. -/
def drop (w : Watched) (shared : SharedGroupPipeline) (dropped : String → String → Bool) : Watched :=
  { shared := shared, views := fun client query => if dropped client query then none else w.views client query }

/-- A client writes the changes it is handed. -/
def hand (w : Watched) (clientId : String) (call : SharedGroupPipeline × Answer) : Watched :=
  { shared := call.1
    views := fun client query =>
      if client = clientId then
        match call.2 with
        | .ok changes => (w.views client query).map (fun view => overwrite view (writesFor cfg.env query changes))
        | .error _ => w.views client query
      else w.views client query }

/-- The state after a call and what its client does with the answer. -/
def step (w : Watched) : SharedCall → Watched
  | .desire clientId queryId ast elapsedMs =>
    w.seed cfg clientId queryId (w.shared.desire cfg clientId queryId ast elapsedMs)
  | .registerDesire clientId queryId ast rows elapsedMs =>
    w.seed cfg clientId queryId (w.shared.registerDesire cfg clientId queryId ast rows elapsedMs)
  | .undesire clientId queryId =>
    w.drop (w.shared.undesire clientId queryId).1 (fun client query => client = clientId ∧ query = queryId)
  | .removeClient clientId => w.drop (w.shared.removeClient clientId).1 (fun client _ => client = clientId)
  | .resetQuery queryId => w.drop (w.shared.resetQuery queryId).1 (fun _ query => query = queryId)
  | .pollAdvance clientId head elapsed => w.hand cfg clientId (w.shared.pollAdvance cfg clientId head elapsed)
  | .advanceToHead clientId head elapsed => { w with shared := (w.shared.advanceToHead cfg clientId head elapsed).1 }
  | .advance head elapsed => { w with shared := (w.shared.drive (ViewSyncer.advance cfg head elapsed)).1 }

/-- A client that has drained its log has exactly the driver's rows of every query it desires. -/
def Follows (w : Watched) : Prop :=
  ∀ clientId queryId view, w.views clientId queryId = some view →
    w.shared.querySet.clientDesires clientId queryId = true → w.shared.advanceLog.unread clientId = [] →
    view = w.shared.driver.rowsOf queryId

/-- An advance that keeps what it writes, and leaves every query alone when it fails. -/
def SoundAdvance (driver : PipelineDriver) (head : ReplicaFile) (elapsed : ℕ → ℚ) : Prop :=
  (∀ prev diff, driver.current = some prev →
      materializeDiff cfg.env prev (Snapshot.create cfg.appId head) cfg.tableSpecs cfg.allTableNames = .ok diff →
        driver.KeepsWritten cfg diff) ∧
    ∀ e failed, ViewSyncer.advance cfg head elapsed driver = .error e failed →
      e ≠ .panic ∧ failed.pipelines = driver.pipelines

/-- No change of a query is among some changes. -/
def Silent (changes : List PipelineRowChange) (queryId : String) : Prop := ∀ change ∈ changes, change.queryId ≠ queryId

/-- A call after which no client misses a change: a query is hydrated while no entry of the log is of
an earlier hydration of it, advances are sound, an advance to head skips no change of a query its client
desires, and an advance past the log has none of a desired query. -/
def Careful (w : Watched) : SharedCall → Prop
  | .desire _ queryId _ _ => w.shared.querySet.of queryId = [] →
    ∀ entry ∈ w.shared.advanceLog.entries, Silent entry.2 queryId
  | .registerDesire _ queryId _ _ _ => w.shared.querySet.of queryId = [] →
    ∀ entry ∈ w.shared.advanceLog.entries, Silent entry.2 queryId
  | .pollAdvance _ head elapsed => SoundAdvance cfg w.shared.driver head elapsed
  | .advanceToHead clientId head elapsed => SoundAdvance cfg w.shared.driver head elapsed ∧
    ∀ changes driver, ViewSyncer.advance cfg head elapsed w.shared.driver = .ok changes driver →
      ∀ queryId, w.shared.querySet.clientDesires clientId queryId = true →
        Silent ((w.shared.advanceLog.unread clientId).flatten ++ changes) queryId
  | .advance head elapsed => SoundAdvance cfg w.shared.driver head elapsed ∧
    ∀ changes driver, ViewSyncer.advance cfg head elapsed w.shared.driver = .ok changes driver →
      ∀ queryId, w.shared.querySet.of queryId ≠ [] → Silent changes queryId
  | _ => True

/-- What holds in every state of a careful run: rows are held under their keys, only desired queries
are active, the entries of the log can be replayed on the rows of a desired query, and a client has
the driver's rows once it has written what it has not read. -/
structure Inv (w : Watched) : Prop where
  keyed : w.shared.driver.WellKeyed cfg.env
  inactive : ∀ queryId, w.shared.querySet.of queryId = [] → ¬ w.shared.driver.Active queryId
  follows : ∃ appended, w.shared.advanceLog.Follows appended
  replays : ∀ queryId, w.shared.querySet.of queryId ≠ [] →
    ∀ entries, entries <:+ w.shared.advanceLog.entries.map Prod.snd →
      overwrite (w.shared.driver.rowsOf queryId) (writesFor cfg.env queryId entries.flatten) =
        w.shared.driver.rowsOf queryId
  desires : ∀ clientId queryId view, w.views clientId queryId = some view → clientId ∈ w.shared.querySet.of queryId
  registered : ∀ clientId queryId view, w.views clientId queryId = some view →
    (w.shared.advanceLog.cursors.get? clientId).isSome
  linked : ∀ clientId queryId view, w.views clientId queryId = some view →
    overwrite view (writesFor cfg.env queryId (w.shared.advanceLog.unread clientId).flatten) =
      w.shared.driver.rowsOf queryId

variable {cfg} {w : Watched}

theorem Inv.toFollows (h : w.Inv cfg) : w.Follows := by
  intro clientId queryId view hview _ hdrained
  have hlinked := h.linked clientId queryId view hview
  rw [hdrained] at hlinked
  exact hlinked

theorem inv_new (appId : String) (head : ReplicaFile) : (new appId head).Inv cfg where
  keyed queryId pipeline h := by cases h
  inactive queryId _ h := by cases h
  follows := ⟨[], AdvanceLog.Follows.empty⟩
  replays queryId h := absurd rfl h
  desires clientId queryId view h := by cases h
  registered clientId queryId view h := by cases h
  linked clientId queryId view h := by cases h

/-! ## Desires -/

variable {queryId : String}

variable {changes : List PipelineRowChange} {entries : List (List PipelineRowChange)}
  {log : AdvanceLog (List PipelineRowChange)} {elapsed : ℕ → ℚ}

variable {env : Env}

theorem writesFor_silent (h : Silent changes queryId) : writesFor env queryId changes = [] := by
  rw [writesFor, map_eq_nil_iff, filter_eq_nil_iff]
  intro change hchange
  simpa using h change hchange

theorem silent_flatten (h : ∀ entry ∈ entries, Silent entry queryId) : Silent entries.flatten queryId := by
  intro change hchange
  obtain ⟨entry, hentry, hmem⟩ := mem_flatten.mp hchange
  exact h entry hentry change hmem

/-- The rows of a query as additions, written from nothing, are its rows. -/
theorem overwrite_additions {rows : Fields MaterializedRow} (h : WellKeyed env rows) (queryId : String) :
    overwrite (fun _ => none) (writesFor env queryId (additions queryId rows)) = rowsShown rows := by
  have hids : ∀ change ∈ additions queryId rows, change.queryId = queryId := by
    intro change hchange
    obtain ⟨key, -, hkey⟩ := mem_filterMap.mp hchange
    obtain ⟨entry, -, rfl⟩ := map_eq_some_iff.mp hkey
    rfl
  funext key
  rw [writesFor_of_forall hids, if_pos rfl, additions, overwrite_filterMap ((sortedKeys_sorted _).imp ne_of_lt)]
  · rw [rowsShown]
    cases hrow : rows.get? key with
    | none => simp
    | some =>
      have hmem : key ∈ sortedKeys (rows.map fst) := mem_sortedKeys.mpr (mem_map.mpr ⟨_, mem_of_get? hrow, rfl⟩)
      rw [if_pos hmem]
      rfl
  · intro key _ change hchange
    obtain ⟨entry, hentry, rfl⟩ := map_eq_some_iff.mp hchange
    exact h key entry hentry

/-- A hydration on an inactive query: it touches no other query, and its answer is the rows it holds. -/
def Seeds (cfg : DriverConfig) (queryId : String) (hydration : Driving (List PipelineRowChange)) : Prop :=
  ∀ driver : PipelineDriver, driver.WellKeyed cfg.env → ¬ driver.Active queryId →
    (finalState hydration driver).WellKeyed cfg.env ∧
      (∀ other, other ≠ queryId → (finalState hydration driver).pipelines.get? other = driver.pipelines.get? other) ∧
      ∀ changes driver', hydration driver = .ok changes driver' →
        overwrite (fun _ => none) (writesFor cfg.env queryId changes) = driver'.rowsOf queryId

variable {driver : PipelineDriver}

section

variable (queryId : String) (ast : Ast)

theorem activate_seeds (elapsedMs : ℚ) {rows : Fields MaterializedRow}
    (hkeyed : driver.WellKeyed cfg.env) (hrows : ViewSyncer.WellKeyed cfg.env rows) :
    (finalState (activate cfg queryId ast elapsedMs rows) driver).WellKeyed cfg.env ∧
      (∀ other, other ≠ queryId → (finalState (activate cfg queryId ast elapsedMs rows) driver).pipelines.get? other =
        driver.pipelines.get? other) ∧
      ∀ changes driver', activate cfg queryId ast elapsedMs rows driver = .ok changes driver' →
        overwrite (fun _ => none) (writesFor cfg.env queryId changes) = driver'.rowsOf queryId := by
  rw [finalState, activate_run]
  cases signatureForRows cfg rows with
  | error => exact ⟨hkeyed, fun _ _ => rfl, fun changes driver' h => by cases h⟩
  | ok signature =>
    have hsigned : PipelineDriver.WellKeyed cfg.env
        ({ driver with hydrationTimeMs := driver.hydrationTimeMs.set queryId elapsedMs }.sign queryId signature) := hkeyed
    refine ⟨hsigned.hold queryId hrows, fun other hother => ?_, fun changes driver' h => ?_⟩
    · exact (get?_set _ _ _ _).trans (if_neg hother)
    · cases h
      rw [rowsOf_hold, if_pos rfl, overwrite_additions hrows]

theorem addQuery_seeds (elapsedMs : ℚ) : Seeds cfg queryId (addQuery cfg queryId ast elapsedMs) := by
  intro driver hkeyed hinactive
  have hrun : addQuery cfg queryId ast elapsedMs driver =
      (hydrateViaGraph cfg ast >>= activate cfg queryId ast elapsedMs) driver := by
    rw [PipelineDriver.Active] at hinactive
    simp only [addQuery, bind_run (get_run driver), hinactive]
    rfl
  rw [finalState, hrun]
  rcases hydrateViaGraph_run cfg ast driver with ⟨snapshot, rows, -, hrows, hydrated⟩ | ⟨e, failed, hfailed, hkept, -⟩
  · rw [bind_run hydrated]
    have hseeds := activate_seeds queryId ast elapsedMs hkeyed (hydrateGraph_wellKeyed hrows)
    exact hseeds
  · have hthrown : (hydrateViaGraph cfg ast >>= activate cfg queryId ast elapsedMs) driver = .error e failed := by
      simp only [Bind.bind, EStateM.bind, hfailed]
    rw [hthrown]
    refine ⟨keepsKeys_of_samePipelines hkept hkeyed, fun other _ => by rw [hkept], fun changes driver' h => by cases h⟩

theorem registerQuery_seeds (rows : List Row) (elapsedMs : ℚ) :
    Seeds cfg queryId (registerQuery cfg queryId ast rows elapsedMs) := by
  intro driver hkeyed hinactive
  have hrun : registerQuery cfg queryId ast rows elapsedMs driver =
      (check (materializeRows cfg ast rows) >>= activate cfg queryId ast elapsedMs) driver := by
    rw [PipelineDriver.Active] at hinactive
    simp only [registerQuery, bind_run (get_run driver), hinactive]
    rfl
  rw [finalState, hrun]
  cases hheld : materializeRows cfg ast rows with
  | error => exact ⟨hkeyed, fun _ _ => rfl, fun changes driver' h => by cases h⟩
  | ok =>
    have hseeds := activate_seeds queryId ast elapsedMs hkeyed (materializeRows_wellKeyed hheld)
    exact hseeds

end

variable {driver' : PipelineDriver} {hydration : Driving (List PipelineRowChange)}

theorem rowsOf_of_pipelines (h : driver'.pipelines.get? queryId = driver.pipelines.get? queryId) :
    driver'.rowsOf queryId = driver.rowsOf queryId := by
  rw [rowsOf, rowsOf, h]

variable {clientId : String}

open Watched

/-- A desire that keeps the rows of every query a client has rows of, and answers with the rows held. -/
theorem inv_seed_of (h : w.Inv cfg) {answer : Answer} (hkeyed : driver.WellKeyed cfg.env)
    (hinactive : ∀ query, (w.shared.querySet.addDesire clientId queryId).1.of query = [] → ¬ driver.Active query)
    (hreplays : ∀ query, (w.shared.querySet.addDesire clientId queryId).1.of query ≠ [] →
      ∀ entries, entries <:+ w.shared.advanceLog.entries.map snd →
        overwrite (driver.rowsOf query) (writesFor cfg.env query entries.flatten) = driver.rowsOf query)
    (hrows : ∀ client query view, w.views client query = some view → driver.rowsOf query = w.shared.driver.rowsOf query)
    (hanswer : ∀ changes, answer = .ok changes →
      overwrite (fun _ => none) (writesFor cfg.env queryId changes) = driver.rowsOf queryId) :
    (w.seed cfg clientId queryId (⟨driver, (w.shared.querySet.addDesire clientId queryId).1,
      w.shared.advanceLog.register clientId⟩, answer)).Inv cfg := by
  obtain ⟨appended, hfollows⟩ := h.follows
  refine ⟨hkeyed, hinactive, ⟨appended, hfollows.register clientId⟩, hreplays, fun client query view hview => ?_,
    fun client query view hview => ?_, fun client query view hview => ?_⟩
  · rw [seed, mem_of_addDesire]
    dsimp only [seed] at hview
    split at hview
    · next heq => exact .inl heq
    · exact .inr (h.desires client query view hview)
  · dsimp only [seed] at hview ⊢
    rw [cursors_register]
    split at hview
    · next heq => simp [heq.1]
    · have hreg := h.registered client query view hview
      split
      · rfl
      · exact hreg
  · dsimp only [seed] at hview ⊢
    split at hview
    · next heq =>
      obtain ⟨rfl, rfl⟩ := heq
      have hunread : (w.shared.advanceLog.register client).unread client <:+ w.shared.advanceLog.entries.map snd :=
        (hfollows.register client).unread_suffix (by rw [cursors_register, if_pos rfl]; rfl)
      have hmem := (mem_of_addDesire w.shared.querySet client query client query).mpr (.inl ⟨rfl, rfl⟩)
      cases answer with
      | error => cases hview
      | ok changes =>
        cases hview
        rw [hanswer changes rfl]
        exact hreplays query (ne_nil_of_mem hmem) _ hunread
    · rw [hfollows.unread_register clientId, hrows client query view hview]
      exact h.linked client query view hview

/-- The first desire of a query: nothing in the log is of the query. -/
theorem inv_seed_first (h : w.Inv cfg) (hseeds : Seeds cfg queryId hydration)
    (hfirst : w.shared.querySet.of queryId = [])
    (hsilent : ∀ entry ∈ w.shared.advanceLog.entries, Silent entry.2 queryId) :
    (w.seed cfg clientId queryId (w.shared.desireBy clientId queryId hydration)).Inv cfg := by
  obtain ⟨hkeyed, hothers, hanswer⟩ := hseeds w.shared.driver h.keyed (h.inactive queryId hfirst)
  obtain ⟨answer, hcall, hanswer⟩ : ∃ answer, w.shared.desireBy clientId queryId hydration =
      (⟨finalState hydration w.shared.driver, (w.shared.querySet.addDesire clientId queryId).1,
        w.shared.advanceLog.register clientId⟩, answer) ∧ ∀ changes, answer = .ok changes →
      overwrite (fun _ => none) (writesFor cfg.env queryId changes) =
        (finalState hydration w.shared.driver).rowsOf queryId := by
    rw [finalState]
    simp only [desireBy, addDesire, hfirst, drive]
    cases hresult : hydration w.shared.driver with
    | ok found driver =>
      refine ⟨_, rfl, fun changes hchanges => ?_⟩
      cases hchanges
      exact hanswer _ driver hresult
    | error => exact ⟨_, rfl, fun changes hchanges => by cases hchanges⟩
  have hof : ∀ query, query ≠ queryId →
      (w.shared.querySet.addDesire clientId queryId).1.of query = w.shared.querySet.of query := by
    intro query hquery
    rw [addDesire, of_set, if_neg hquery]
  rw [hcall]
  refine inv_seed_of h hkeyed (fun query hnone => ?_) (fun query hdesired entries hentries => ?_)
    (fun client query view hview => rowsOf_of_pipelines (hothers query ?_)) hanswer
  · have hquery : query ≠ queryId := by
      rintro rfl
      have hmem := (mem_of_addDesire w.shared.querySet clientId query clientId query).mpr (.inl ⟨rfl, rfl⟩)
      rw [hnone] at hmem
      cases hmem
    rw [hof query hquery] at hnone
    rw [PipelineDriver.Active, hothers query hquery]
    exact h.inactive query hnone
  · by_cases hquery : query = queryId
    · subst hquery
      have hnothing : Silent entries.flatten query := by
        refine silent_flatten (fun entry hentry => ?_)
        obtain ⟨logged, hlogged, rfl⟩ := mem_map.mp (hentries.subset hentry)
        exact hsilent logged hlogged
      rw [writesFor_silent hnothing]
      rfl
    · rw [hof query hquery] at hdesired
      rw [rowsOf_of_pipelines (hothers query hquery)]
      exact h.replays query hdesired entries hentries
  · -- Nobody has rows of the query yet.
    rintro rfl
    have hmem := h.desires client query view hview
    rw [hfirst] at hmem
    cases hmem

theorem overwrite_currentQueryRows (h : driver.WellKeyed cfg.env) (queryId : String) :
    overwrite (fun _ => none) (writesFor cfg.env queryId (driver.currentQueryRows queryId)) = driver.rowsOf queryId := by
  rw [currentQueryRows, rowsOf]
  cases hpipeline : driver.pipelines.get? queryId with
  | none => rfl
  | some pipeline => exact overwrite_additions (h queryId pipeline hpipeline) queryId

/-- A later desire is answered with the rows held, which show all that is logged of the query. -/
theorem inv_seed_later (h : w.Inv cfg)
    (hydration : Driving (List PipelineRowChange)) (hlater : w.shared.querySet.of queryId ≠ []) :
    (w.seed cfg clientId queryId (w.shared.desireBy clientId queryId hydration)).Inv cfg := by
  have hcall : w.shared.desireBy clientId queryId hydration =
      (⟨w.shared.driver, (w.shared.querySet.addDesire clientId queryId).1, w.shared.advanceLog.register clientId⟩,
        .ok (w.shared.driver.currentQueryRows queryId)) := by
    simp [desireBy, addDesire, hlater]
  have hdesired : ∀ query, (w.shared.querySet.addDesire clientId queryId).1.of query ≠ [] ↔
      w.shared.querySet.of query ≠ [] := by
    intro query
    rw [addDesire, of_set]
    by_cases hquery : query = queryId
    · subst hquery
      rw [if_pos rfl]
      exact iff_of_true (ne_nil_of_mem (mem_insert_self)) hlater
    · rw [if_neg hquery]
  rw [hcall]
  refine inv_seed_of h h.keyed (fun query hnone => h.inactive query (not_not.mp (fun hne => (hdesired query).mpr hne hnone)))
    (fun query hquery => h.replays query ((hdesired query).mp hquery)) (fun _ _ _ _ => rfl) (fun changes hchanges => ?_)
  cases hchanges
  exact overwrite_currentQueryRows h.keyed queryId

theorem inv_seed (h : w.Inv cfg) (hseeds : Seeds cfg queryId hydration)
    (hcareful : w.shared.querySet.of queryId = [] → ∀ entry ∈ w.shared.advanceLog.entries, Silent entry.2 queryId) :
    (w.seed cfg clientId queryId (w.shared.desireBy clientId queryId hydration)).Inv cfg := by
  by_cases hfirst : w.shared.querySet.of queryId = []
  · exact inv_seed_first h hseeds hfirst (hcareful hfirst)
  · exact inv_seed_later h hydration hfirst

/-! ## Dropped desires -/

/-- Dropping desires with the rows of the queries dropped. The log may lose what nobody reads. -/
theorem inv_drop (h : w.Inv cfg) {shared : SharedGroupPipeline} {dropped : String → String → Bool}
    (hdrops : Drops w.shared shared (fun client query => dropped client query = true))
    (hfollows : ∃ appended, shared.advanceLog.Follows appended)
    (hentries : shared.advanceLog.entries <:+ w.shared.advanceLog.entries)
    (hreaders : ∀ client, (∃ query, dropped client query = false) → (w.shared.advanceLog.cursors.get? client).isSome →
      (shared.advanceLog.cursors.get? client).isSome ∧
        shared.advanceLog.unread client = w.shared.advanceLog.unread client) : (w.drop shared dropped).Inv cfg := by
  have hview : ∀ client query view, (w.drop shared dropped).views client query = some view →
      dropped client query = false ∧ w.views client query = some view := by
    intro client query view hview
    rw [drop] at hview
    dsimp only at hview
    split at hview
    · cases hview
    · next hkept => exact ⟨by simpa using hkept, hview⟩
  have hdesired : ∀ client query view, (w.drop shared dropped).views client query = some view →
      client ∈ shared.querySet.of query := by
    intro client query view hv
    obtain ⟨hkept, hold⟩ := hview client query view hv
    exact (hdrops.desires client query).mpr ⟨h.desires client query view hold, by simp [hkept]⟩
  refine ⟨fun query pipeline hpipeline => ?_, hdrops.inactive h.inactive, hfollows, fun query hquery entries hsuffix => ?_,
    hdesired, fun client query view hv => ?_, fun client query view hv => ?_⟩
  · refine h.keyed query pipeline ?_
    by_cases hnone : shared.querySet.of query = []
    · by_cases hold : w.shared.querySet.of query = []
      · rcases hdrops.undesired query hold with hsame | hremoved
        · exact hsame.symm.trans hpipeline
        · exact absurd (hremoved.symm.trans hpipeline) (by simp)
      · exact absurd ((hdrops.removed query hnone hold).symm.trans hpipeline) (by simp)
    · exact (hdrops.kept query hnone).symm.trans hpipeline
  · have hold := h.replays query (hdrops.desired_before hquery) entries (hsuffix.trans (hentries.map snd))
    have hrows : shared.driver.rowsOf query = w.shared.driver.rowsOf query := rowsOf_of_pipelines (hdrops.kept query hquery)
    rw [drop]
    rw [hrows]
    exact hold
  · obtain ⟨hkept, hold⟩ := hview client query view hv
    exact (hreaders client ⟨query, hkept⟩ (h.registered client query view hold)).1
  · obtain ⟨hkept, hold⟩ := hview client query view hv
    have hrows : shared.driver.rowsOf query = w.shared.driver.rowsOf query :=
      rowsOf_of_pipelines (hdrops.kept query (ne_nil_of_mem (hdesired client query view hv)))
    rw [drop]
    rw [hrows, (hreaders client ⟨query, hkept⟩ (h.registered client query view hold)).2]
    exact h.linked client query view hold

theorem undesire_log (s : SharedGroupPipeline) (clientId queryId : String) :
    (s.undesire clientId queryId).1.advanceLog = s.advanceLog := by
  rw [undesire]
  split
  · rfl
  · rfl

theorem inv_undesire (h : w.Inv cfg) (clientId queryId : String) :
    (w.step cfg (.undesire clientId queryId)).Inv cfg := by
  have hlog := undesire_log w.shared clientId queryId
  refine inv_drop h ?_ ?_ ?_ ?_
  · simpa using undesire_drops w.shared clientId queryId
  · rw [hlog]
    exact h.follows
  · simp only [hlog, suffix_refl]
  · intro client _ hreg
    rw [hlog]
    exact ⟨hreg, rfl⟩

theorem inv_removeClient (h : w.Inv cfg) (clientId : String) : (w.step cfg (.removeClient clientId)).Inv cfg := by
  obtain ⟨appended, hfollows⟩ := h.follows
  refine inv_drop h ?_ ⟨appended, hfollows.forget clientId⟩ (entries_trim_suffix _) (fun client hkept hreg => ?_)
  · simpa using removeClient_drops w.shared clientId
  · have hclient : client ≠ clientId := by
      obtain ⟨query, hquery⟩ := hkept
      simpa using hquery
    refine ⟨?_, hfollows.unread_forget hclient⟩
    have hcursor : (w.shared.advanceLog.forget clientId).cursors.get? client = w.shared.advanceLog.cursors.get? client := by
      rw [cursors_forget, if_neg hclient]
    exact hcursor ▸ hreg

theorem inv_resetQuery (h : w.Inv cfg) (queryId : String) : (w.step cfg (.resetQuery queryId)).Inv cfg := by
  refine inv_drop h ?_ h.follows (suffix_refl _) (fun client _ hreg => ⟨hreg, rfl⟩)
  simpa using resetQuery_drops w.shared queryId

/-! ## Advances -/

variable {appended : List (List PipelineRowChange)}

theorem follows_logAdvance (h : log.Follows appended) (changes : List PipelineRowChange) :
    ∃ appended', (logAdvance log changes).Follows appended' := by
  rw [logAdvance]
  split
  · exact ⟨appended, h⟩
  · exact ⟨_, h.append changes⟩

theorem cursors_logAdvance (log : AdvanceLog (List PipelineRowChange)) (changes : List PipelineRowChange) :
    (logAdvance log changes).cursors = log.cursors := by
  rw [logAdvance]
  split
  · rfl
  · rfl

/-- A connection finds an advance in the log after all it had not read. -/
theorem unread_logAdvance (h : log.Follows appended) (changes : List PipelineRowChange)
    (hcursor : (log.cursors.get? clientId).isSome) : ((logAdvance log changes).unread clientId).flatten =
    (log.unread clientId).flatten ++ changes := by
  rw [logAdvance]
  split
  · next hempty => rw [isEmpty_iff.mp hempty, append_nil]
  · rw [h.unread_append changes hcursor, flatten_append, flatten_singleton]

/-- The entries at the end of the log after an advance was logged. -/
theorem suffix_logAdvance (h : entries <:+ (logAdvance log changes).entries.map snd) :
    entries = [] ∨ ∃ old, old <:+ log.entries.map snd ∧ entries.flatten = old.flatten ++ changes := by
  rw [logAdvance] at h
  split at h
  · next hempty => exact .inr ⟨entries, h, by rw [isEmpty_iff.mp hempty, append_nil]⟩
  · rw [append, map_append] at h
    rcases suffix_concat_iff.mp h with hnil | ⟨old, rfl, hold⟩
    · exact .inl hnil
    · exact .inr ⟨old, hold, by rw [flatten_append, flatten_singleton]⟩

/-- What an advance that returned does to the driver and to the rows of every query. -/
structure Moved (cfg : DriverConfig) (driver driver' : PipelineDriver) (changes : List PipelineRowChange) : Prop where
  keyed : driver'.WellKeyed cfg.env
  active : SameActive driver driver'
  rows : ∀ queryId, driver'.rowsOf queryId =
    overwrite (driver.rowsOf queryId) (writesFor cfg.env queryId changes)

theorem moved_of_ok {head : ReplicaFile}
    (hkeyed : driver.WellKeyed cfg.env) (hsound : SoundAdvance cfg driver head elapsed)
    (h : advance cfg head elapsed driver = .ok changes driver') : Moved cfg driver driver' changes := by
  have hkeys := advance_keepsKeys cfg head elapsed driver
  have hactive := advance_sameActive cfg head elapsed driver
  rw [finalState, h] at hkeys hactive
  exact ⟨hkeys hkeyed, hactive, advance_reports hkeyed hsound.1 h⟩

/-- Advancing the driver keeps the entries of the log replayable, once the advance is logged. -/
theorem replays_logged (h : w.Inv cfg)
    (hmoved : Moved cfg w.shared.driver driver changes) (hdesired : w.shared.querySet.of queryId ≠ [])
    (hentries : entries <:+ (logAdvance w.shared.advanceLog changes).entries.map snd) :
    overwrite (driver.rowsOf queryId) (writesFor cfg.env queryId entries.flatten) = driver.rowsOf queryId := by
  rcases suffix_logAdvance hentries with rfl | ⟨old, hold, hflatten⟩
  · rfl
  · rw [hflatten, writesFor_append, hmoved.rows]
    exact overwrite_replay (h.replays queryId hdesired old hold) _

/-- A failed advance that left every query alone. -/
theorem inv_failed (h : w.Inv cfg) {failed : PipelineDriver}
    (hsame : failed.pipelines = w.shared.driver.pipelines) :
    Inv cfg { w with shared := { w.shared with driver := failed } } := by
  have hrows : failed.rowsOf = w.shared.driver.rowsOf := rowsOf_congr hsame
  refine ⟨keepsKeys_of_samePipelines hsame h.keyed, fun queryId hnone => ?_, h.follows, fun queryId hdesired => ?_,
    h.desires, h.registered, fun clientId queryId view hview => ?_⟩
  · rw [PipelineDriver.Active, hsame]
    exact h.inactive queryId hnone
  · rw [hrows]
    exact h.replays queryId hdesired
  · rw [hrows]
    exact h.linked clientId queryId view hview

/-- An advance that was logged and drained for a client: the others find it in the log, and the client
has the rows it is to have. -/
theorem inv_drained (h : w.Inv cfg)
    (hmoved : Moved cfg w.shared.driver driver changes) (clientId : String) {views : String → String → Option View}
    (hothers : ∀ client query, client ≠ clientId → views client query = w.views client query)
    (hself : ∀ query view, views clientId query = some view → ∃ old, w.views clientId query = some old ∧
      view = driver.rowsOf query) : Inv cfg ⟨⟨driver, w.shared.querySet,
      ((logAdvance w.shared.advanceLog changes).drainFor clientId).1⟩, views⟩ := by
  obtain ⟨appended, hfollows⟩ := h.follows
  obtain ⟨appended', hlogged⟩ := follows_logAdvance hfollows changes
  have hold : ∀ client query view, views client query = some view → ∃ old, w.views client query = some old := by
    intro client query view hview
    by_cases hclient : client = clientId
    · subst hclient
      obtain ⟨old, hold, -⟩ := hself query view hview
      exact ⟨old, hold⟩
    · exact ⟨view, by rw [← hothers client query hclient, hview]⟩
  refine ⟨hmoved.keyed, fun query hnone hactive => h.inactive query hnone ((hmoved.active query).mp hactive),
    ⟨appended', hlogged.drainFor clientId⟩, fun query hdesired entries hentries => ?_, fun client query view hview => ?_,
    fun client query view hview => ?_, fun client query view hview => ?_⟩
  · refine replays_logged h hmoved hdesired (hentries.trans ?_)
    exact (entries_trim_suffix _).map snd
  · obtain ⟨old, hview⟩ := hold client query view hview
    exact h.desires client query old hview
  · obtain ⟨old, hview⟩ := hold client query view hview
    rw [cursors_drainFor, cursors_logAdvance]
    split
    · rfl
    · exact h.registered client query old hview
  · dsimp only at hview ⊢
    by_cases hclient : client = clientId
    · subst hclient
      obtain ⟨old, -, hrows⟩ := hself query view hview
      rw [hlogged.unread_drainFor_self, hrows]
      rfl
    · rw [hothers client query hclient] at hview
      have hreg := h.registered client query view hview
      rw [hlogged.unread_drainFor_ne hclient, unread_logAdvance hfollows changes hreg, writesFor_append,
        overwrite_append, h.linked client query view hview, hmoved.rows]

theorem writesFor_filter {querySet : GroupQuerySet}
    (h : querySet.clientDesires clientId queryId = true) (changes : List PipelineRowChange) :
    writesFor env queryId (changes.filter (fun change => querySet.clientDesires clientId change.queryId)) =
      writesFor env queryId changes := by
  rw [writesFor, List.filter_filter]
  congr 1
  refine filter_congr (fun change _ => ?_)
  by_cases hquery : change.queryId = queryId
  · simp [hquery, h]
  · simp [hquery]

section

variable (h : w.Inv cfg) {head : ReplicaFile} (hsound : SoundAdvance cfg w.shared.driver head elapsed)

include h hsound

theorem inv_pollAdvance :
    (w.step cfg (.pollAdvance clientId head elapsed)).Inv cfg := by
  cases hrun : advance cfg head elapsed w.shared.driver with
  | error e failed =>
    have hcall : w.shared.pollAdvance cfg clientId head elapsed = ({ w.shared with driver := failed }, .error e) := by
      simp only [pollAdvance, drive, hrun]
    rw [step, hcall]
    have hviews : w.hand cfg clientId ({ w.shared with driver := failed }, .error e) =
        { w with shared := { w.shared with driver := failed } } := by
      simp only [hand, ite_self]
    rw [hviews]
    exact inv_failed h (hsound.2 e failed hrun).2
  | ok changes driver =>
    obtain ⟨appended, hfollows⟩ := h.follows
    have hmoved := moved_of_ok h.keyed hsound hrun
    have hcall : w.shared.pollAdvance cfg clientId head elapsed =
        (⟨driver, w.shared.querySet, ((logAdvance w.shared.advanceLog changes).drainFor clientId).1⟩,
          .ok (((logAdvance w.shared.advanceLog changes).unread clientId).flatten.filter
            (fun change => w.shared.querySet.clientDesires clientId change.queryId))) := by
      simp only [pollAdvance, drive, hrun]
      rfl
    rw [step, hcall]
    refine inv_drained h hmoved clientId (fun client query hclient => ?_) (fun query view hview => ?_)
    · simp only [if_neg hclient]
    · simp only [if_true] at hview
      obtain ⟨old, hold, rfl⟩ := map_eq_some_iff.mp hview
      have hdesires := clientDesires_iff.mpr (h.desires clientId query old hold)
      refine ⟨old, hold, ?_⟩
      rw [writesFor_filter hdesires, unread_logAdvance hfollows changes (h.registered clientId query old hold),
        writesFor_append, overwrite_append, h.linked clientId query old hold, hmoved.rows]

theorem inv_advanceToHead (hskips : ∀ changes driver, advance cfg head elapsed w.shared.driver = .ok changes driver →
      ∀ queryId, w.shared.querySet.clientDesires clientId queryId = true →
        Silent ((w.shared.advanceLog.unread clientId).flatten ++ changes) queryId) :
    (w.step cfg (.advanceToHead clientId head elapsed)).Inv cfg := by
  cases hrun : advance cfg head elapsed w.shared.driver with
  | error e failed =>
    have hcall : (w.shared.advanceToHead cfg clientId head elapsed).1 = { w.shared with driver := failed } := by
      simp only [advanceToHead, drive, hrun]
    rw [step, hcall]
    exact inv_failed h (hsound.2 e failed hrun).2
  | ok changes driver =>
    have hmoved := moved_of_ok h.keyed hsound hrun
    have hcall : (w.shared.advanceToHead cfg clientId head elapsed).1 =
        ⟨driver, w.shared.querySet, ((logAdvance w.shared.advanceLog changes).drainFor clientId).1⟩ := by
      simp only [advanceToHead, drive, hrun]
    rw [step, hcall]
    refine inv_drained h hmoved clientId (fun client query _ => rfl) (fun query view hview => ⟨view, hview, ?_⟩)
    have hdesires := clientDesires_iff.mpr (h.desires clientId query view hview)
    have hsilent := hskips changes driver hrun query hdesires
    have hunread : Silent (w.shared.advanceLog.unread clientId).flatten query :=
      fun change hchange => hsilent change (mem_append_left _ hchange)
    have hnew : Silent changes query := fun change hchange => hsilent change (mem_append_right _ hchange)
    have hlinked := h.linked clientId query view hview
    rw [writesFor_silent hunread, overwrite_nil] at hlinked
    rw [hmoved.rows, writesFor_silent hnew, overwrite_nil, hlinked]

theorem inv_advance (hpasses : ∀ changes driver, advance cfg head elapsed w.shared.driver = .ok changes driver →
      ∀ queryId, w.shared.querySet.of queryId ≠ [] → Silent changes queryId) :
    (w.step cfg (.advance head elapsed)).Inv cfg := by
  cases hrun : advance cfg head elapsed w.shared.driver with
  | error e failed =>
    have hcall : (w.shared.drive (advance cfg head elapsed)).1 = { w.shared with driver := failed } := by
      simp only [drive, hrun]
    rw [step, hcall]
    exact inv_failed h (hsound.2 e failed hrun).2
  | ok changes driver =>
    have hmoved := moved_of_ok h.keyed hsound hrun
    have hcall : (w.shared.drive (advance cfg head elapsed)).1 = { w.shared with driver := driver } := by
      simp only [drive, hrun]
    have hrows : ∀ queryId, w.shared.querySet.of queryId ≠ [] → driver.rowsOf queryId = w.shared.driver.rowsOf queryId := by
      intro queryId hdesired
      rw [hmoved.rows, writesFor_silent (hpasses changes driver hrun queryId hdesired), overwrite_nil]
    rw [step, hcall]
    refine ⟨hmoved.keyed, fun query hnone hactive => h.inactive query hnone ((hmoved.active query).mp hactive), h.follows,
      fun query hdesired entries hentries => ?_, h.desires, h.registered, fun client query view hview => ?_⟩
    · rw [hrows query hdesired]
      exact h.replays query hdesired entries hentries
    · rw [hrows query (ne_nil_of_mem (h.desires client query view hview))]
      exact h.linked client query view hview

end

/-! ## Runs -/

/-- A careful call keeps what holds in every state. -/
theorem step_inv (h : w.Inv cfg) {call : SharedCall} (hcareful : w.Careful cfg call) : (w.step cfg call).Inv cfg := by
  cases call with
  | desire clientId queryId ast elapsedMs => exact inv_seed h (addQuery_seeds queryId ast elapsedMs) hcareful
  | registerDesire clientId queryId ast rows elapsedMs =>
    exact inv_seed h (registerQuery_seeds queryId ast rows elapsedMs) hcareful
  | undesire clientId queryId => exact inv_undesire h clientId queryId
  | removeClient clientId => exact inv_removeClient h clientId
  | resetQuery queryId => exact inv_resetQuery h queryId
  | pollAdvance => exact inv_pollAdvance h hcareful
  | advanceToHead => exact inv_advanceToHead h hcareful.1 hcareful.2
  | advance => exact inv_advance h hcareful.1 hcareful.2

/-- In every state of a run of careful calls a client that has drained its log has exactly the
driver's rows of every query it desires. -/
theorem views_follow (appId : String) (head : ReplicaFile) (calls : List SharedCall)
    (hcareful : ∀ before call rest, calls = before ++ call :: rest →
      (before.foldl (step cfg) (new appId head)).Careful cfg call) :
    ∀ before rest, calls = before ++ rest → (before.foldl (step cfg) (new appId head)).Follows := by
  intro before rest hcalls
  have hinv : (before.foldl (step cfg) (new appId head)).Inv cfg := by
    refine foldl_prefix_invariant (inv_new appId head) (fun before call rest hcalls h => ?_) before rest hcalls
    exact step_inv h (hcareful before call rest hcalls)
  exact hinv.toFollows

/-! ## A group that follows the issues -/

/-- A driver that syncs the issues; its graphs find the table empty. -/
def issueConfig : DriverConfig :=
  ⟨textKeyEnv, "zero", [("issue", issueSpec)], ["issue"], fun _ => Source.ofTables (fun _ => []), fun _ => 0⟩

/-- No issues yet. -/
def noIssues : ReplicaFile := (issuesAt "00" [] []).file

/-- A first issue was replicated. -/
def firstIssue : ReplicaFile := (issuesAt "01" [issueRow "1" "x"] [issueSet 0 "1"]).file

/-- A client desires all issues and polls after the first one was replicated. -/
def desiredThenPolled : List SharedCall :=
  [.desire "c1" "q" allIssues 1, .pollAdvance "c1" firstIssue (fun _ => 0)]

/-- A client desires all issues and brings the driver to head before it reads another query. -/
def desiredThenMoved : List SharedCall :=
  [.desire "c1" "q" allIssues 1, .advanceToHead "c1" firstIssue (fun _ => 0)]

/-- The state the client polls in. -/
theorem careful_poll : Careful issueConfig
    ([SharedCall.desire "c1" "q" allIssues 1].foldl (step issueConfig) (new "zero" noIssues))
    (.pollAdvance "c1" firstIssue (fun _ => 0)) := by
  refine ⟨fun prev diff hprev hdiff queryId pipeline hpipeline _ spec hspec => ?_, fun e failed h => ?_⟩
  · cases hprev
    cases hdiff
    have hquery : queryId = "q" := by
      by_contra hne
      have hnone : get? [("q", (⟨allIssues, [], ["issue"]⟩ : Pipeline))] queryId = none := by
        rw [get?_cons, if_neg (Ne.symm hne), get?_nil]
      exact absurd (hnone.symm.trans hpipeline) (by simp)
    subst hquery
    cases hpipeline
    exact pairwise_singleton _ _
  · cases h

/-- The client that polls has the first issue. -/
theorem follows_polled : (desiredThenPolled.foldl (step issueConfig) (new "zero" noIssues)).Follows := by
  refine views_follow "zero" noIssues desiredThenPolled (fun before call rest hcalls => ?_) desiredThenPolled [] rfl
  cases before with
  | nil =>
    cases hcalls
    exact fun _ entry hentry => by cases hentry
  | cons first before =>
    cases before with
    | nil =>
      cases hcalls
      exact careful_poll
    | cons =>
      obtain ⟨-, hcalls⟩ := cons.inj hcalls
      exact absurd hcalls (by simp)

/-- The advance to head takes the first issue from the client that asked for it. -/
theorem not_follows_moved : ¬ (desiredThenMoved.foldl (step issueConfig) (new "zero" noIssues)).Follows := by
  intro h
  have hview := h "c1" "q" (fun _ => none) rfl rfl rfl
  exact absurd (congrFun hview "issue:1") (by decide)

end Watched

end ZeroCache.ViewSyncer
