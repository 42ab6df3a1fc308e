import ZeroCache.Lib.Frame
import ZeroCache.ViewSyncer.DirectExact
import ZeroCache.ViewSyncer.Graph

/-!
# The pipeline driver of a client group

The driver holds the rows of every active query of a client group (`pipeline_driver.rs`), with a
signature of each row set and the time each query took to hydrate. A query is added by hydrating
it on the current snapshot or registered with rows read elsewhere, and an advance moves the
snapshot to head first, then the queries one after another, then the signatures. Every call is a
computation with state and errors: what was written before an error stays.
-/

namespace ZeroCache.ViewSyncer

open Sqlite Replica Zql Lib Snapshot Moves

/-- What a driver is built with: how values are printed and stored, the synced tables, how the
sources of a graph read a snapshot, and the hash of a row identity. -/
structure DriverConfig where
  env : Env
  appId : String
  tableSpecs : Fields SnapshotTableSpec
  allTableNames : List String
  sourceOf : Snapshot → Source
  h64 : String → BitVec 64

/-- The state of a driver. The snapshot is lost when a hydration panics; the one before it is only
a connection to be moved to head. -/
structure PipelineDriver where
  current : Option Snapshot
  pipelines : Fields Pipeline
  rowSetSignatures : Fields (BitVec 64)
  hydrationTimeMs : Fields ℚ

/-- A call of a driver. -/
abbrev Driving := EStateM PipelineError PipelineDriver

/-- A driver opened at head. -/
def PipelineDriver.new (appId : String) (head : ReplicaFile) : PipelineDriver :=
  ⟨some (Snapshot.create appId head), [], [], []⟩

/-- Record the signature of a query. -/
def PipelineDriver.sign (driver : PipelineDriver) (queryId : String) (signature : BitVec 64) : PipelineDriver :=
  { driver with rowSetSignatures := driver.rowSetSignatures.set queryId signature }

/-- Record the rows of a query. -/
def PipelineDriver.hold (driver : PipelineDriver) (queryId : String) (pipeline : Pipeline) : PipelineDriver :=
  { driver with pipelines := driver.pipelines.set queryId pipeline }

/-- The tables a query refers to (`referenced_tables`). -/
def referencedTables (ast : Ast) : List String := sortedKeys ((referencedSources ast).map Prod.fst)

/-- The rows of a map, in key order. -/
def rowsInOrder (rows : Fields MaterializedRow) : List MaterializedRow :=
  (sortedKeys (rows.map Prod.fst)).filterMap rows.get?

/-- All rows of a map as removals, in key order. -/
def removals (queryId : String) (rows : Fields MaterializedRow) : List PipelineRowChange :=
  (rowsInOrder rows).map (fun entry =>
    { queryId := queryId, table := entry.table, kind := .remove, row := entry.row, oldRow := none,
      rowKey := entry.rowKey })

/-- The time in which an advance is never cut short. -/
def minAdvancementTimeLimitMs : ℚ := 50

/-- The share of the work after which an advance is always finished. -/
def lateAdvancementFinishProgress : ℚ := 4 / 5

/-- Whether an advance is cut short before the query at a position (`check_advance_budget`). -/
def exceedsBudget (elapsed total : ℚ) (pos units : ℕ) : Bool :=
  decide (units ≠ 0) && decide (elapsed > minAdvancementTimeLimitMs) &&
    !decide ((pos : ℚ) / units ≥ lateAdvancementFinishProgress) &&
    (decide (elapsed > total) || (decide (elapsed > total / 2) && decide (pos * 2 ≤ units)))

variable (cfg : DriverConfig)

/-! ## Row set signatures -/

/-- The normalized text of a row identity (`row_id_string`); an empty key has none. -/
def rowIdString (schema table : String) (rowKey : Fields JsonValue) : Except PipelineError String :=
  if rowKey.isEmpty then .error .emptyRowKey
  else .ok (cfg.env.stringify (.array (.string schema :: .string table ::
    (rowKey.insertionSort (fun a b => a.1 ≤ b.1)).flatMap (fun entry => [.string entry.1, entry.2]))))

/-- What a row contributes to the signature of a row set. -/
def rowIdSignatureUnit (table : String) (rowKey : Fields JsonValue) : Except PipelineError (BitVec 64) :=
  (rowIdString cfg "public" table rowKey).map cfg.h64

/-- Combine a signature with the units of rows. -/
def signRows (signature : BitVec 64) (rows : List MaterializedRow) : Except PipelineError (BitVec 64) :=
  rows.foldlM (fun signature entry => (rowIdSignatureUnit cfg entry.table entry.rowKey).map (signature ^^^ ·))
    signature

/-- The signature of a row set. -/
def signatureForRows (rows : Fields MaterializedRow) : Except PipelineError (BitVec 64) :=
  signRows cfg 0 (rowsInOrder rows)

/-- Bring the signature of a change's query up to date: an edited row keeps its identity. -/
def applySignatureChange (change : PipelineRowChange) : Driving Unit :=
  if change.kind = .edit then pure ()
  else do
    let share ← check (rowIdSignatureUnit cfg change.table change.rowKey)
    modify (fun driver => driver.sign change.queryId ((driver.rowSetSignatures.get? change.queryId).getD 0 ^^^ share))

/-! ## Queries -/

/-- End a read of the shared snapshot with its result: a panic leaves the driver without a snapshot
(`with_current_shared`). -/
def withCurrentShared {α : Type} (result : Except PipelineError α) : Driving α := fun driver =>
  match result with
  | .ok a => .ok a driver
  | .error .panic => .error .panic { driver with current := none }
  | .error e => .error e driver

/-- The rows of a query on the current snapshot (`hydrate_via_graph`). -/
def hydrateViaGraph (ast : Ast) : Driving (Fields MaterializedRow) := do
  match (← get).current with
  | none => throw (.snapshot .notInitialized)
  | some snapshot => withCurrentShared (hydrateGraph cfg.env cfg.tableSpecs (cfg.sourceOf snapshot) ast)

/-- The driver without a query. -/
def PipelineDriver.removeQuery (driver : PipelineDriver) (queryId : String) : PipelineDriver :=
  { driver with
    pipelines := driver.pipelines.erase queryId
    rowSetSignatures := driver.rowSetSignatures.erase queryId
    hydrationTimeMs := driver.hydrationTimeMs.erase queryId }

/-- The removals of the rows of a query, if it is active (`remove_query`). -/
def PipelineDriver.removedRows (driver : PipelineDriver) (queryId : String) : List PipelineRowChange :=
  match driver.pipelines.get? queryId with
  | some pipeline => removals queryId pipeline.rows
  | none => []

/-- The rows of an active query as additions (`current_query_rows`). -/
def PipelineDriver.currentQueryRows (driver : PipelineDriver) (queryId : String) : List PipelineRowChange :=
  match driver.pipelines.get? queryId with
  | some pipeline => additions queryId pipeline.rows
  | none => []

/-- Record a query with the rows it was hydrated with. -/
def activate (queryId : String) (ast : Ast) (elapsedMs : ℚ) (rows : Fields MaterializedRow) :
    Driving (List PipelineRowChange) := do
  modify (fun driver => { driver with hydrationTimeMs := driver.hydrationTimeMs.set queryId elapsedMs })
  let signature ← check (signatureForRows cfg rows)
  modify (fun driver => (driver.sign queryId signature).hold queryId ⟨ast, rows, referencedTables ast⟩)
  return additions queryId rows

/-- Hydrate a query and hold its rows; an active query of the same name is dropped first. -/
def addQuery (queryId : String) (ast : Ast) (elapsedMs : ℚ) : Driving (List PipelineRowChange) := do
  if ((← get).pipelines.get? queryId).isSome then
    modify (fun driver => driver.removeQuery queryId)
  let rows ← hydrateViaGraph cfg ast
  activate cfg queryId ast elapsedMs rows

/-- Rows read by the caller, held as a hydration holds them. -/
def materializeRows (ast : Ast) (rows : List Row) : Except PipelineError (Fields MaterializedRow) :=
  rows.foldlM (fun output row => insertRow cfg.env ast.table
    (clampRowVersion row (minRowVersionOf cfg.tableSpecs ast.table)) cfg.tableSpecs output) []

/-- Hold a query with rows the caller has read; an active query is left alone. -/
def registerQuery (queryId : String) (ast : Ast) (rows : List Row) (elapsedMs : ℚ) :
    Driving (List PipelineRowChange) := do
  if ((← get).pipelines.get? queryId).isSome then
    return []
  else
    let rows ← check (materializeRows cfg ast rows)
    activate cfg queryId ast elapsedMs rows

/-! ## Advancing -/

/-- Advance one query: from the difference where it suffices, by hydrating again otherwise. -/
def advanceQuery (diff : SnapshotDiff) (queryId : String) : Driving (List PipelineRowChange) := do
  match (← get).pipelines.get? queryId with
  | none => throw .panic
  | some pipeline =>
    if isDirectIncrementalQuery pipeline.ast then
      let advanced ← check (applyDirectChanges cfg.env queryId pipeline diff.rows cfg.tableSpecs)
      modify (fun driver => driver.hold queryId advanced.1)
      return advanced.2
    else
      let next ← hydrateViaGraph cfg pipeline.ast
      modify (fun driver => driver.hold queryId { pipeline with rows := next })
      return diffRows queryId pipeline.rows next

/-- The active queries that refer to a changed table, in order. -/
def PipelineDriver.affectedQueries (driver : PipelineDriver) (diff : SnapshotDiff) : List String :=
  (sortedKeys (driver.pipelines.map Prod.fst)).filter (fun queryId =>
    (driver.pipelines.get? queryId).any (fun pipeline =>
      pipeline.referencedTables.any (fun table => diff.rows.any (fun change => change.table = table))))

/-- Advance queries one after another, stopping when the time is up. -/
def advanceQueries (diff : SnapshotDiff) (elapsed : ℕ → ℚ) (total : ℚ) (units : ℕ) :
    ℕ → List String → Driving (List PipelineRowChange)
  | _, [] => pure []
  | pos, queryId :: rest => do
    if exceedsBudget (elapsed pos) total pos units then
      throw (.resetPipelines .advancementTimeout)
    else
      let changes ← advanceQuery cfg diff queryId
      let others ← advanceQueries diff elapsed total units (pos + 1) rest
      return changes ++ others

/-- Move the snapshot to head and bring every active query and signature up to date. The clock shows
`elapsed pos` before the query at position `pos`. -/
def advance (head : ReplicaFile) (elapsed : ℕ → ℚ) : Driving (List PipelineRowChange) := do
  match (← get).current with
  | none => throw (.snapshot .notInitialized)
  | some prev =>
    modify (fun driver => { driver with current := some (Snapshot.create cfg.appId head) })
    let diff ← check ((materializeDiff cfg.env prev (Snapshot.create cfg.appId head) cfg.tableSpecs
      cfg.allTableNames).mapError .snapshot)
    let driver ← get
    let queries := driver.affectedQueries diff
    let changes ← advanceQueries cfg diff elapsed ((driver.hydrationTimeMs.map Prod.snd).sum) queries.length 0
      queries
    changes.forM (applySignatureChange cfg)
    return changes

/-! ## Which queries are active -/

/-- A query whose rows are held. -/
def PipelineDriver.Active (driver : PipelineDriver) (queryId : String) : Prop :=
  (driver.pipelines.get? queryId).isSome

/-- A query can be hydrated: its rows are found and can be signed. -/
def Hydrates (driver : PipelineDriver) (ast : Ast) : Prop :=
  ∃ snapshot rows signature, driver.current = some snapshot ∧
    hydrateGraph cfg.env cfg.tableSpecs (cfg.sourceOf snapshot) ast = .ok rows ∧
    signatureForRows cfg rows = .ok signature

/-- Rows can be registered for a query. -/
def Registers (ast : Ast) (rows : List Row) : Prop :=
  ∃ held signature, materializeRows cfg ast rows = .ok held ∧ signatureForRows cfg held = .ok signature

section

variable (driver : PipelineDriver) (queryId other : String)

@[simp]
theorem active_hold (pipeline : Pipeline) :
    (driver.hold queryId pipeline).Active other ↔ other = queryId ∨ driver.Active other := by
  simp only [PipelineDriver.Active, PipelineDriver.hold, Assoc.get?_set]
  by_cases h : other = queryId
  · simp [h]
  · simp [h]

@[simp]
theorem active_sign (signature : BitVec 64) :
    (driver.sign queryId signature).Active other ↔ driver.Active other := Iff.rfl

@[simp]
theorem active_removeQuery : (driver.removeQuery queryId).Active other ↔ other ≠ queryId ∧ driver.Active other := by
  simp only [PipelineDriver.Active, PipelineDriver.removeQuery, Assoc.get?_erase]
  by_cases h : other = queryId
  · simp [h]
  · simp [h]

end

/-- Recording a query succeeds when its rows can be signed. -/
theorem activate_run (queryId : String) (ast : Ast) (elapsedMs : ℚ) (rows : Fields MaterializedRow)
    (driver : PipelineDriver) :
    activate cfg queryId ast elapsedMs rows driver =
      match signatureForRows cfg rows with
      | .ok signature => .ok (additions queryId rows)
          ((({ driver with hydrationTimeMs := driver.hydrationTimeMs.set queryId elapsedMs }).sign queryId
            signature).hold queryId ⟨ast, rows, referencedTables ast⟩)
      | .error e => .error e { driver with hydrationTimeMs := driver.hydrationTimeMs.set queryId elapsedMs } := by
  have hrun : activate cfg queryId ast elapsedMs rows driver =
      (check (signatureForRows cfg rows) >>= fun signature => do
        modify (fun driver => (driver.sign queryId signature).hold queryId ⟨ast, rows, referencedTables ast⟩)
        return additions queryId rows : Driving (List PipelineRowChange))
        { driver with hydrationTimeMs := driver.hydrationTimeMs.set queryId elapsedMs } := rfl
  rw [hrun]
  cases signatureForRows cfg rows with
  | ok | error => rfl

/-- A recorded query is active; nothing else is touched. -/
theorem active_activate (queryId other : String) (ast : Ast) (elapsedMs : ℚ) (rows : Fields MaterializedRow)
    (driver : PipelineDriver) : (finalState (activate cfg queryId ast elapsedMs rows) driver).Active other ↔
      (other = queryId ∧ ∃ signature, signatureForRows cfg rows = .ok signature) ∨ driver.Active other := by
  rw [finalState, activate_run]
  cases hsign : signatureForRows cfg rows with
  | ok =>
    simp only [active_hold, Except.ok.injEq, exists_eq', and_true]
    exact Iff.rfl
  | error =>
    simp only [reduceCtorEq, exists_false, and_false, false_or]
    exact Iff.rfl

theorem withCurrentShared_error (α : Type) (e : PipelineError) (driver : PipelineDriver) :
    ∃ failed, withCurrentShared (.error e : Except PipelineError α) driver = .error e failed ∧
      failed.pipelines = driver.pipelines := by
  cases e with
  | panic | snapshot | unknownTable | resetPipelines | emptyRowKey => exact ⟨_, rfl, rfl⟩

/-- A hydration returns the rows of the current snapshot, or fails without a change to the queries. -/
theorem hydrateViaGraph_run (ast : Ast) (driver : PipelineDriver) : (∃ snapshot rows, driver.current = some snapshot ∧
        hydrateGraph cfg.env cfg.tableSpecs (cfg.sourceOf snapshot) ast = .ok rows ∧
        hydrateViaGraph cfg ast driver = .ok rows driver) ∨
      ∃ e failed, hydrateViaGraph cfg ast driver = .error e failed ∧ failed.pipelines = driver.pipelines ∧
        ∀ snapshot, driver.current = some snapshot →
          hydrateGraph cfg.env cfg.tableSpecs (cfg.sourceOf snapshot) ast = .error e := by
  cases hcurrent : driver.current with
  | none =>
    refine .inr ⟨.snapshot .notInitialized, driver, ?_, rfl, fun snapshot h => by cases h⟩
    simp only [hydrateViaGraph, bind_run (get_run driver), hcurrent]
    rfl
  | some snapshot =>
    have hrun : hydrateViaGraph cfg ast driver =
        withCurrentShared (hydrateGraph cfg.env cfg.tableSpecs (cfg.sourceOf snapshot) ast) driver := by
      simp only [hydrateViaGraph, bind_run (get_run driver), hcurrent]
    rw [hrun]
    cases hrows : hydrateGraph cfg.env cfg.tableSpecs (cfg.sourceOf snapshot) ast with
    | ok rows => exact .inl ⟨snapshot, rows, rfl, hrows, rfl⟩
    | error e =>
      obtain ⟨failed, hfailed, hkept⟩ := withCurrentShared_error (Fields MaterializedRow) e driver
      exact .inr ⟨e, failed, hfailed, hkept, fun other h => Option.some.inj h ▸ hrows⟩

/-- An added query is active when it could be hydrated, and inactive otherwise. -/
theorem active_addQuery (queryId other : String) (ast : Ast) (elapsedMs : ℚ) (driver : PipelineDriver) :
    (finalState (addQuery cfg queryId ast elapsedMs) driver).Active other ↔
      if other = queryId then Hydrates cfg driver ast else driver.Active other := by
  -- The query is dropped first, whether it was active or not.
  obtain ⟨cleared, hcurrent, hcleared, hrun⟩ : ∃ cleared : PipelineDriver, cleared.current = driver.current ∧
      (∀ other, cleared.Active other ↔ other ≠ queryId ∧ driver.Active other) ∧
      addQuery cfg queryId ast elapsedMs driver =
        (hydrateViaGraph cfg ast >>= activate cfg queryId ast elapsedMs) cleared := by
    cases hactive : (driver.pipelines.get? queryId).isSome with
    | true =>
      refine ⟨driver.removeQuery queryId, rfl, active_removeQuery driver queryId, ?_⟩
      simp only [addQuery, bind_run (get_run driver), hactive]
      rfl
    | false =>
      refine ⟨driver, rfl, fun other => ⟨fun h => ⟨?_, h⟩, fun h => h.2⟩, ?_⟩
      · rintro rfl
        rw [PipelineDriver.Active, hactive] at h
        cases h
      · simp only [addQuery, bind_run (get_run driver), hactive]
        rfl
  rw [finalState, hrun]
  rcases hydrateViaGraph_run cfg ast cleared with
    ⟨snapshot, rows, hsnapshot, hrows, hydrated⟩ | ⟨e, failed, hfailed, hkept, herror⟩
  · rw [bind_run hydrated]
    have hactive := active_activate cfg queryId other ast elapsedMs rows cleared
    rw [finalState] at hactive
    rw [hactive, hcleared]
    have hsigned : Hydrates cfg driver ast ↔ ∃ signature, signatureForRows cfg rows = .ok signature := by
      constructor
      · rintro ⟨snapshot', rows', signature, hsnapshot', hrows', hsignature⟩
        rw [← hcurrent, hsnapshot] at hsnapshot'
        cases hsnapshot'
        rw [hrows] at hrows'
        cases hrows'
        exact ⟨signature, hsignature⟩
      · rintro ⟨signature, hsignature⟩
        exact ⟨snapshot, rows, signature, hcurrent ▸ hsnapshot, hrows, hsignature⟩
    by_cases h : other = queryId
    · simp [h, hsigned]
    · simp [h]
  · have hthrown : (hydrateViaGraph cfg ast >>= activate cfg queryId ast elapsedMs) cleared = .error e failed := by
      simp only [Bind.bind, EStateM.bind, hfailed]
    rw [hthrown]
    have hfalse : ¬ Hydrates cfg driver ast := by
      rintro ⟨snapshot, rows, signature, hsnapshot, hrows, -⟩
      rw [herror snapshot (hcurrent ▸ hsnapshot)] at hrows
      cases hrows
    have hsame : failed.Active other ↔ cleared.Active other := by
      rw [PipelineDriver.Active, PipelineDriver.Active, hkept]
    rw [hsame, hcleared]
    by_cases h : other = queryId
    · simp [hfalse]
    · simp [h]

/-- A registered query is active when its rows can be held, or when it was active before. -/
theorem active_registerQuery (queryId other : String) (ast : Ast) (rows : List Row) (elapsedMs : ℚ)
    (driver : PipelineDriver) : (finalState (registerQuery cfg queryId ast rows elapsedMs) driver).Active other ↔
      (other = queryId ∧ Registers cfg ast rows) ∨ driver.Active other := by
  have hrun : registerQuery cfg queryId ast rows elapsedMs driver =
      (if (driver.pipelines.get? queryId).isSome then pure [] else
        check (materializeRows cfg ast rows) >>= activate cfg queryId ast elapsedMs :
          Driving (List PipelineRowChange)) driver := rfl
  rw [finalState, hrun]
  cases hactive : (driver.pipelines.get? queryId).isSome with
  | true =>
    constructor
    · exact .inr
    · rintro (⟨rfl, -⟩ | h)
      · exact hactive
      · exact h
  | false =>
    cases hheld : materializeRows cfg ast rows with
    | error =>
      constructor
      · exact .inr
      · rintro (⟨rfl, held, signature, hheld', -⟩ | h)
        · rw [hheld] at hheld'
          cases hheld'
        · exact h
    | ok held =>
      rw [if_neg (by simp), bind_run (check_run rfl driver)]
      have hstep := active_activate cfg queryId other ast elapsedMs held driver
      rw [finalState] at hstep
      rw [hstep]
      have hsigned : Registers cfg ast rows ↔ ∃ signature, signatureForRows cfg held = .ok signature := by
        simp [Registers, hheld]
      rw [hsigned]

/-- Two states of a driver with the same active queries. -/
def SameActive (driver driver' : PipelineDriver) : Prop := ∀ queryId, driver'.Active queryId ↔ driver.Active queryId

instance : IsPreorder PipelineDriver SameActive where
  refl _ _ := Iff.rfl
  trans _ _ _ h h' queryId := (h' queryId).trans (h queryId)

variable {driver : PipelineDriver} {elapsed : ℕ → ℚ}

/-- A query that is active keeps the same active queries when its rows are replaced. -/
theorem hold_sameActive {queryId : String} (h : driver.Active queryId)
    (pipeline : Pipeline) : SameActive driver (driver.hold queryId pipeline) := by
  intro other
  rw [active_hold]
  exact or_iff_right_of_imp (fun heq => heq ▸ h)

/-- A query that advanced: from the difference or by hydrating again on the current snapshot. -/
def AdvancedTo (diff : SnapshotDiff) (driver : PipelineDriver) (queryId : String) (pipeline advanced : Pipeline)
    (changes : List PipelineRowChange) : Prop :=
  (isDirectIncrementalQuery pipeline.ast = true ∧
      applyDirectChanges cfg.env queryId pipeline diff.rows cfg.tableSpecs = .ok (advanced, changes)) ∨
    (isDirectIncrementalQuery pipeline.ast = false ∧ ∃ snapshot next, driver.current = some snapshot ∧
      hydrateGraph cfg.env cfg.tableSpecs (cfg.sourceOf snapshot) pipeline.ast = .ok next ∧
      advanced = { pipeline with rows := next } ∧ changes = diffRows queryId pipeline.rows next)

variable (diff : SnapshotDiff)

/-- Advancing a query replaces its rows, or fails without a change to any query. -/
theorem advanceQuery_run (queryId : String) (driver : PipelineDriver) :
    (∃ pipeline advanced changes, driver.pipelines.get? queryId = some pipeline ∧
        AdvancedTo cfg diff driver queryId pipeline advanced changes ∧
        advanceQuery cfg diff queryId driver = .ok changes (driver.hold queryId advanced)) ∨
      ∃ e failed, advanceQuery cfg diff queryId driver = .error e failed ∧ failed.pipelines = driver.pipelines := by
  have hrun : advanceQuery cfg diff queryId driver = (match driver.pipelines.get? queryId with
    | none => throw .panic
    | some pipeline =>
      if isDirectIncrementalQuery pipeline.ast then do
        let advanced ← check (applyDirectChanges cfg.env queryId pipeline diff.rows cfg.tableSpecs)
        modify (fun driver => driver.hold queryId advanced.1)
        return advanced.2
      else do
        let next ← hydrateViaGraph cfg pipeline.ast
        modify (fun driver => driver.hold queryId { pipeline with rows := next })
        return diffRows queryId pipeline.rows next : Driving (List PipelineRowChange)) driver := rfl
  rw [hrun]
  cases hpipeline : driver.pipelines.get? queryId with
  | none => exact .inr ⟨_, driver, rfl, rfl⟩
  | some pipeline =>
    dsimp only
    cases hdirect : isDirectIncrementalQuery pipeline.ast with
    | true =>
      cases hadvanced : applyDirectChanges cfg.env queryId pipeline diff.rows cfg.tableSpecs with
      | error e => exact .inr ⟨e, driver, rfl, rfl⟩
      | ok advanced => exact .inl ⟨pipeline, advanced.1, advanced.2, rfl, .inl ⟨hdirect, hadvanced⟩, rfl⟩
    | false =>
      rw [if_neg (by simp)]
      rcases hydrateViaGraph_run cfg pipeline.ast driver with
        ⟨snapshot, next, hcurrent, hnext, hydrated⟩ | ⟨e, failed, hfailed, hkept, -⟩
      · rw [bind_run hydrated]
        exact .inl ⟨pipeline, _, _, rfl, .inr ⟨hdirect, snapshot, next, hcurrent, hnext, rfl, rfl⟩, rfl⟩
      · refine .inr ⟨e, failed, ?_, hkept⟩
        simp only [Bind.bind, EStateM.bind, hfailed]

theorem advanceQuery_sameActive (queryId : String) : Moves SameActive (advanceQuery cfg diff queryId) := by
  intro driver
  rw [finalState]
  rcases advanceQuery_run cfg diff queryId driver with
    ⟨pipeline, advanced, changes, hpipeline, -, hrun⟩ | ⟨e, failed, hrun, hkept⟩
  · rw [hrun]
    refine hold_sameActive ?_ advanced
    rw [PipelineDriver.Active, hpipeline]
    rfl
  · rw [hrun]
    intro other
    simp only [PipelineDriver.Active, hkept]

/-- What every query's advance and every change of a signature may do, an advance may do, whether it returns or
is cut short. -/
theorem advance_moves {R : PipelineDriver → PipelineDriver → Prop} [IsPreorder PipelineDriver R]
    (hcurrent : ∀ driver snapshot, R driver { driver with current := snapshot })
    (hquery : ∀ diff queryId, Moves R (advanceQuery cfg diff queryId))
    (hsign : ∀ change, Moves R (applySignatureChange cfg change)) (head : ReplicaFile) (elapsed : ℕ → ℚ) :
    Moves R (advance cfg head elapsed) := by
  have hqueries : ∀ (diff : SnapshotDiff) (total : ℚ) (units pos : ℕ) (queries : List String),
      Moves R (advanceQueries cfg diff elapsed total units pos queries) := by
    intro diff total units pos queries
    induction queries generalizing pos with
    | nil => exact pure _
    | cons queryId rest ih =>
      refine ite (throw _) (bind (hquery diff queryId) (fun changes => ?_))
      exact bind (ih (pos + 1)) (fun others => pure _)
  refine bind get (fun driver => ?_)
  cases driver.current with
  | none => exact throw _
  | some =>
    refine bind (modify (fun driver => hcurrent driver _)) (fun _ => ?_)
    refine bind (check _) (fun diff => bind get (fun driver => ?_))
    refine bind (hqueries _ _ _ _ _) (fun changes => ?_)
    exact bind (forM hsign changes) (fun _ => pure _)

/-- An advance keeps the active queries, whether it returns or is cut short. -/
theorem advance_sameActive (head : ReplicaFile) (elapsed : ℕ → ℚ) : Moves SameActive (advance cfg head elapsed) := by
  refine advance_moves cfg (fun driver _ queryId => Iff.rfl) (advanceQuery_sameActive cfg) (fun change => ?_) head elapsed
  refine ite (pure _) (bind (check _) (fun share => modify (fun driver => ?_)))
  exact fun queryId => active_sign driver _ queryId _

/-! ## Advances that return -/

variable {head : ReplicaFile}

/-- What an advance does once the difference is found. -/
theorem advance_run {prev : Snapshot} {diff : SnapshotDiff} (hcurrent : driver.current = some prev)
    (hdiff : materializeDiff cfg.env prev (create cfg.appId head) cfg.tableSpecs cfg.allTableNames = .ok diff) :
    advance cfg head elapsed driver = (do
      let changes ← advanceQueries cfg diff elapsed ((driver.hydrationTimeMs.map Prod.snd).sum)
        (driver.affectedQueries diff).length 0 (driver.affectedQueries diff)
      changes.forM (applySignatureChange cfg) return changes : Driving (List PipelineRowChange))
        { driver with current := some (create cfg.appId head) } := by
  simp only [advance, bind_run (get_run driver), hcurrent]
  rw [hdiff]
  rfl

/-- An advance that returns moved the snapshot, found a difference, advanced the affected queries and
then brought the signatures up to date. -/
theorem advance_ok {driver' : PipelineDriver}
    {changes : List PipelineRowChange} (h : advance cfg head elapsed driver = .ok changes driver') :
    ∃ prev diff advanced total, driver.current = some prev ∧
      materializeDiff cfg.env prev (create cfg.appId head) cfg.tableSpecs cfg.allTableNames = .ok diff ∧
      advanceQueries cfg diff elapsed total (driver.affectedQueries diff).length 0 (driver.affectedQueries diff)
        { driver with current := some (create cfg.appId head) } = .ok changes advanced ∧
      changes.forM (applySignatureChange cfg) advanced = .ok () driver' := by
  cases hcurrent : driver.current with
  | none =>
    simp only [advance, bind_run (get_run driver), hcurrent] at h
    cases h
  | some prev =>
    cases hdiff : materializeDiff cfg.env prev (create cfg.appId head) cfg.tableSpecs cfg.allTableNames with
    | error =>
      simp only [advance, bind_run (get_run driver), hcurrent, hdiff] at h
      cases h
    | ok diff =>
      rw [advance_run cfg hcurrent hdiff] at h
      simp only [Bind.bind, EStateM.bind] at h
      cases hadvance : advanceQueries cfg diff elapsed ((driver.hydrationTimeMs.map Prod.snd).sum)
          (driver.affectedQueries diff).length 0 (driver.affectedQueries diff)
          { driver with current := some (create cfg.appId head) } with
      | error e failed =>
        rw [hadvance] at h
        cases h
      | ok found advanced =>
        rw [hadvance] at h
        dsimp only at h
        cases hsign : found.forM (applySignatureChange cfg) advanced with
        | error =>
          rw [hsign] at h
          cases h
        | ok =>
          rw [hsign] at h
          cases h
          exact ⟨prev, diff, advanced, _, rfl, hdiff, hadvance, hsign⟩

end ZeroCache.ViewSyncer
