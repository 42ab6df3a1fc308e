import ZeroCache.Lib.Xor
import ZeroCache.Zql.Reads
import ZeroCache.ViewSyncer.DriverReports

/-!
# Runs of a driver

Queries are added, registered and removed, and the driver is advanced, in any order. In a run in
which no advance stops partway, the signature of every query is the exclusive or of the shares of
the rows it holds, and its rows are those of the query on the current snapshot. An advance that
stops partway has already moved the snapshot and the first queries: their signatures stay behind,
and the other queries never see the changes again.
-/

namespace ZeroCache.ViewSyncer

open Sqlite Replica Zql Lib List Assoc PipelineDriver Snapshot ViewSyncer Source Prod

/-! ## Snapshots with the same tables -/

variable {ast : Ast} {rows rows' previous : Fields MaterializedRow} {queryId : String}
  {changes : List PipelineRowChange} {curr prev : Snapshot}

variable {table : String}

theorem mem_referencedTables : table ∈ referencedTables ast ↔ ∃ entry ∈ referencedSources ast, entry.1 = table := by
  rw [referencedTables, mem_sortedKeys, mem_map]

/-- The pipeline of a query reads the tables the query refers to. -/
theorem reads_built (sourceOrder : String → Option QueryOrdering → QueryOrdering) (ast : Ast)
    (partitionKey : Option (List String)) :
    Reads (fun table => ∃ entry ∈ referencedSources ast, entry.1 = table) (built sourceOrder ast partitionKey) := by
  induction ast generalizing partitionKey with
  | level ast ih =>
    rw [built, foldAst_eq]
    refine reads_buildLevel ⟨_, table_mem_referencedSources ast, rfl⟩ (fun sub hsub key => ?_) partitionKey
    rw [Query.subs_map] at hsub
    obtain ⟨original, horiginal, rfl⟩ := mem_map.mp hsub
    refine (ih original horiginal key).mono (fun table htable => ?_)
    obtain ⟨entry, hentry, rfl⟩ := htable
    exact ⟨entry, mem_referencedSources_sub horiginal hentry, rfl⟩

variable {env : Env} {elapsed : ℕ → ℚ} {snapshot : Snapshot} {source : Source}

/-- A query has the same rows on two snapshots that agree on its tables. -/
theorem hydrateGraph_congr {specs : Fields SnapshotTableSpec} {source' : Source}
    (h : ∀ table ∈ referencedTables ast, source.fetch table = source'.fetch table) :
    hydrateGraph env specs source ast = hydrateGraph env specs source' ast := by
  have hfetch : fetch source (buildPipeline (graphSourceOrder specs) ast) none none =
      fetch source' (buildPipeline (graphSourceOrder specs) ast) none none :=
    (reads_built (graphSourceOrder specs) ast none).fetch_congr
      (fun table htable => h table (mem_referencedTables.mpr htable)) none none
  rw [hydrateGraph, hydrateGraph, hfetch]

variable (cfg : DriverConfig)

/-! ## Signatures of row sets -/

/-- The share of a row with a key. -/
def keyShare (table : String) (rowKey : Fields JsonValue) : BitVec 64 :=
  cfg.h64 (cfg.env.stringify (.array (.string "public" :: .string table ::
    (rowKey.insertionSort (fun a b => a.1 ≤ b.1)).flatMap (fun entry => [.string entry.1, entry.2]))))

/-- The share of a row. -/
def rowShare (entry : MaterializedRow) : BitVec 64 := keyShare cfg entry.table entry.rowKey

/-- What a change contributes: an edited row keeps its identity. -/
def changeShare (change : PipelineRowChange) : BitVec 64 :=
  if change.kind = .edit then 0 else keyShare cfg change.table change.rowKey

/-- Every table has a primary key. -/
def KeyedTables : Prop := ∀ table spec, cfg.tableSpecs.get? table = some spec → spec.primaryKey ≠ []

/-- Rows of one text key have one identity. -/
def TextsIdentify : Prop :=
  ∀ a b : MaterializedRow, a.rowKey ≠ [] → b.rowKey ≠ [] → materializedKey cfg.env a = materializedKey cfg.env b →
    rowIdSignatureUnit cfg a.table a.rowKey = rowIdSignatureUnit cfg b.table b.rowKey

/-- Every row is held under its own key and has a primary key. -/
def Identified (env : Env) (rows : Fields MaterializedRow) : Prop :=
  ∀ key entry, rows.get? key = some entry → materializedKey env entry = key ∧ entry.rowKey ≠ []

variable {cfg}

theorem rowIdSignatureUnit_eq {rowKey : Fields JsonValue} (h : rowKey ≠ []) :
    rowIdSignatureUnit cfg table rowKey = .ok (keyShare cfg table rowKey) := by
  rw [rowIdSignatureUnit, rowIdString, if_neg (by simpa using h)]
  rfl

theorem Identified.congr (h : Identified env rows)
    (hsame : ∀ key, rows'.get? key = rows.get? key) : Identified env rows' :=
  fun key entry hentry => h key entry ((hsame key).symm.trans hentry)

/-- Hydrated rows have the primary keys of their tables. -/
theorem hydrateGraph_identified (htables : KeyedTables cfg)
    (h : hydrateGraph cfg.env cfg.tableSpecs source ast = .ok rows) : Identified cfg.env rows := by
  refine hydrateGraph_forall (P := fun key entry => materializedKey cfg.env entry = key ∧ entry.rowKey ≠ [])
    (fun table row entry hentry => ⟨rfl, ?_⟩) h
  rw [materializedRow] at hentry
  cases hspec : cfg.tableSpecs.get? table with
  | none =>
    rw [hspec] at hentry
    cases hentry
  | some spec =>
    rw [hspec] at hentry
    cases hentry
    obtain ⟨column, hcolumn⟩ := exists_mem_of_ne_nil _ (htables table spec hspec)
    refine ne_nil_of_mem (a := (column, row.get column)) (mem_map.mpr ⟨column, ?_, rfl⟩)
    rwa [mem_insertionSort, mem_dedup]

theorem signRows_eq {rows : List MaterializedRow} (h : ∀ entry ∈ rows, entry.rowKey ≠ []) (start : BitVec 64) :
    signRows cfg start rows = .ok (start ^^^ xorAll (rows.map (rowShare cfg))) := by
  induction rows generalizing start with
  | nil => simp [signRows, pure, Except.pure]
  | cons entry rest ih =>
    have hrest := ih (fun other hother => h other (mem_cons_of_mem _ hother)) (start ^^^ rowShare cfg entry)
    rw [signRows] at hrest ⊢
    rw [foldlM_cons, rowIdSignatureUnit_eq (h entry mem_cons_self), map_cons, xorAll_cons,
      ← BitVec.xor_assoc, ← hrest]
    rfl

/-- The signature of rows is the exclusive or of their shares. -/
theorem signatureForRows_eq (h : Identified env rows) :
    signatureForRows cfg rows = .ok (xorAll ((rowsInOrder rows).map (rowShare cfg))) := by
  have hrows : ∀ entry ∈ rowsInOrder rows, entry.rowKey ≠ [] := by
    intro entry hentry
    obtain ⟨key, -, hkey⟩ := mem_filterMap.mp hentry
    exact (h key entry hkey).2
  rw [signatureForRows, signRows_eq hrows]
  simp

theorem mem_keys_of_get? {key : String} (h : (rows.get? key).isSome) : key ∈ rows.map fst := by
  obtain ⟨row, hrow⟩ := Option.isSome_iff_exists.mp h
  exact mem_map.mpr ⟨_, mem_of_get? hrow, rfl⟩

section

variable {keys : List String} (h : ∀ key, (rows.get? key).isSome → key ∈ keys)

include h

/-- The rows of a map are found under any keys that include its own. -/
theorem rowsInOrder_over : rowsInOrder rows = (sortedKeys keys).filterMap rows.get? :=
  filterMap_sortedKeys_congr (fun key hkey => iff_of_true (mem_keys_of_get? hkey) (h key hkey))

theorem xorAll_rowsInOrder : xorAll ((rowsInOrder rows).map (rowShare cfg)) =
      xorAll ((sortedKeys keys).map (fun key => ((rows.get? key).map (rowShare cfg)).getD 0)) := by
  rw [rowsInOrder_over h, map_filterMap, xorAll_filterMap]

end

section

variable (htexts : TextsIdentify cfg) {next : Fields MaterializedRow}
  (hprevious : Identified cfg.env previous) (hnext : Identified cfg.env next)

include htexts hprevious hnext

/-- The share of the change of one key is the difference of the shares of the rows there. -/
theorem changeShare_changeOf (queryId key : String) : ((previous.get? key).map (rowShare cfg)).getD 0 ^^^
        ((changeOf queryId (previous.get? key) (next.get? key)).map (changeShare cfg)).getD 0 =
      ((next.get? key).map (rowShare cfg)).getD 0 := by
  cases hold : previous.get? key with
  | none =>
    cases hnew : next.get? key with
    | none => simp [changeOf]
    | some => simp [changeOf, changeShare, rowShare]
  | some old =>
    cases hnew : next.get? key with
    | none => simp [changeOf, changeShare, rowShare]
    | some new =>
      obtain ⟨holdKey, holdNe⟩ := hprevious key old hold
      obtain ⟨hnewKey, hnewNe⟩ := hnext key new hnew
      have hunit := htexts old new holdNe hnewNe (holdKey.trans hnewKey.symm)
      rw [rowIdSignatureUnit_eq holdNe, rowIdSignatureUnit_eq hnewNe, Except.ok.injEq] at hunit
      have hshare : rowShare cfg old = rowShare cfg new := hunit
      by_cases hrow : old.row = new.row
      · simp [changeOf, hrow, hshare]
      · simp [changeOf, hrow, changeShare, hshare]

/-- The shares of the changes between two maps turn the signature of one into that of the other. -/
theorem xorAll_diffRows (queryId : String) : xorAll ((rowsInOrder previous).map (rowShare cfg)) ^^^
        xorAll ((diffRows queryId previous next).map (changeShare cfg)) =
      xorAll ((rowsInOrder next).map (rowShare cfg)) := by
  have hkeys : ∀ key, (previous.get? key).isSome → key ∈ previous.map fst ++ next.map fst :=
    fun key hkey => mem_append_left _ (mem_keys_of_get? hkey)
  have hkeys' : ∀ key, (next.get? key).isSome → key ∈ previous.map fst ++ next.map fst :=
    fun key hkey => mem_append_right _ (mem_keys_of_get? hkey)
  rw [xorAll_rowsInOrder hkeys, xorAll_rowsInOrder hkeys', diffRows, map_filterMap, xorAll_filterMap, xorAll_map_xor]
  congr 1
  exact map_congr_left (fun key _ => changeShare_changeOf htexts hprevious hnext queryId key)

end

/-- Every change between two maps is of a row with a primary key. -/
theorem rowKey_of_mem_diffRows {next : Fields MaterializedRow} (hprevious : Identified env previous)
    (hnext : Identified env next) {change : PipelineRowChange}
    (h : change ∈ diffRows queryId previous next) : change.rowKey ≠ [] := by
  obtain ⟨key, hkey⟩ := mem_diffRows.mp h
  cases hold : previous.get? key with
  | none =>
    cases hnew : next.get? key with
    | none =>
      rw [hold, hnew] at hkey
      cases hkey
    | some new =>
      rw [hold, hnew] at hkey
      cases hkey
      exact (hnext key new hnew).2
  | some old =>
    cases hnew : next.get? key with
    | none =>
      rw [hold, hnew] at hkey
      cases hkey
      exact (hprevious key old hold).2
    | some new =>
      rw [hold, hnew, changeOf] at hkey
      split at hkey
      · cases hkey
        exact (hnext key new hnew).2
      · cases hkey

/-- The changes of an advance bring the signature of every query up to date. -/
theorem applySignatureChanges_run (h : ∀ change ∈ changes, change.rowKey ≠ []) (driver : PipelineDriver) :
    ∃ driver', changes.forM (applySignatureChange cfg) driver = .ok () driver' ∧ driver'.current = driver.current ∧
      driver'.pipelines = driver.pipelines ∧ ∀ queryId signature, driver.rowSetSignatures.get? queryId = some signature →
        driver'.rowSetSignatures.get? queryId = some (signature ^^^
          xorAll ((changes.filter (fun change => change.queryId = queryId)).map (changeShare cfg))) := by
  induction changes generalizing driver with
  | nil => exact ⟨driver, rfl, rfl, rfl, fun queryId signature hsignature => by simpa using hsignature⟩
  | cons change rest ih =>
    obtain ⟨middle, hrun, hcurrent, hpipelines, hsigned⟩ : ∃ middle : PipelineDriver,
        applySignatureChange cfg change driver = .ok () middle ∧ middle.current = driver.current ∧
        middle.pipelines = driver.pipelines ∧ ∀ queryId signature, driver.rowSetSignatures.get? queryId = some signature →
          middle.rowSetSignatures.get? queryId = some (signature ^^^
            if change.queryId = queryId then changeShare cfg change else 0) := by
      by_cases hedit : change.kind = .edit
      · refine ⟨driver, by rw [applySignatureChange, if_pos hedit]; rfl, rfl, rfl, fun queryId signature hsignature => ?_⟩
        simp [changeShare, hedit, hsignature]
      · refine ⟨driver.sign change.queryId ((driver.rowSetSignatures.get? change.queryId).getD 0 ^^^
          keyShare cfg change.table change.rowKey), ?_, rfl, rfl, fun queryId signature hsignature => ?_⟩
        · rw [applySignatureChange, if_neg hedit, rowIdSignatureUnit_eq (h change mem_cons_self)]
          rfl
        · rw [sign, get?_set]
          by_cases hquery : queryId = change.queryId
          · simp [← hquery, hsignature, changeShare, hedit]
          · simp [hquery, Ne.symm hquery, hsignature]
    obtain ⟨final, hrest, hcurrent', hpipelines', hsigned'⟩ :=
      ih (fun other hother => h other (mem_cons_of_mem _ hother)) middle
    refine ⟨final, ?_, hcurrent'.trans hcurrent, hpipelines'.trans hpipelines, fun queryId signature hsignature => ?_⟩
    · have hcons : (change :: rest).forM (applySignatureChange cfg) driver =
          (applySignatureChange cfg change >>= fun _ => rest.forM (applySignatureChange cfg)) driver := rfl
      rw [hcons, bind_run hrun, hrest]
    · rw [hsigned' queryId _ (hsigned queryId signature hsignature)]
      by_cases hquery : change.queryId = queryId
      · simp [hquery, BitVec.xor_assoc]
      · simp [hquery]

/-! ## Queries that advance -/

section

variable {diff : SnapshotDiff} {driver : PipelineDriver} {pipeline advanced : Pipeline}

theorem AdvancedTo.queryId_eq (h : AdvancedTo cfg diff driver queryId pipeline advanced changes) :
    ∀ change ∈ changes, change.queryId = queryId := by
  have hdiff : ∃ previous next, changes = diffRows queryId previous next := by
    rcases h with ⟨-, hadvanced⟩ | ⟨-, snapshot, next, -, -, -, rfl⟩
    · obtain ⟨keyed, -, -, hchanges⟩ := applyDirectChanges_run hadvanced
      exact ⟨_, _, hchanges⟩
    · exact ⟨_, _, rfl⟩
  obtain ⟨previous, next, rfl⟩ := hdiff
  intro change hchange
  obtain ⟨key, hkey⟩ := mem_diffRows.mp hchange
  exact queryId_of_changeOf hkey

/-- A query that can advance does. -/
theorem advanceQuery_advancedTo (hpipeline : driver.pipelines.get? queryId = some pipeline)
    (h : AdvancedTo cfg diff driver queryId pipeline advanced changes) :
    advanceQuery cfg diff queryId driver = .ok changes (driver.hold queryId advanced) := by
  rcases h with ⟨hdirect, hadvanced⟩ | ⟨hdirect, snapshot, next, hcurrent, hnext, rfl, rfl⟩
  · simp only [advanceQuery, bind_run (get_run driver), hpipeline, hdirect, hadvanced]
    rfl
  · have hydrated : hydrateViaGraph cfg pipeline.ast driver = .ok next driver := by
      simp only [hydrateViaGraph, bind_run (get_run driver), hcurrent, hnext]
      rfl
    simp only [advanceQuery, bind_run (get_run driver), hpipeline, hdirect, Bool.false_eq_true, if_false,
      bind_run hydrated]
    rfl

end

/-- The queries advance one after another, each from the rows it had before. -/
theorem advanceQueries_returns (driver : PipelineDriver) {diff : SnapshotDiff} {total : ℚ}
    {units pos : ℕ} {queries : List String} (hnodup : queries.Nodup)
    (hbudget : ∀ i < queries.length, exceedsBudget (elapsed (pos + i)) total (pos + i) units = false)
    (hqueries : ∀ queryId ∈ queries, ∃ pipeline advanced changes, driver.pipelines.get? queryId = some pipeline ∧
      AdvancedTo cfg diff driver queryId pipeline advanced changes) :
    ∃ changes driver', advanceQueries cfg diff elapsed total units pos queries driver = .ok changes driver' ∧
      driver'.current = driver.current ∧ driver'.rowSetSignatures = driver.rowSetSignatures ∧
      (∀ queryId ∉ queries, driver'.pipelines.get? queryId = driver.pipelines.get? queryId ∧
        changes.filter (fun change => change.queryId = queryId) = []) ∧
      ∀ queryId ∈ queries, ∃ pipeline advanced, driver.pipelines.get? queryId = some pipeline ∧
        driver'.pipelines.get? queryId = some advanced ∧
        AdvancedTo cfg diff driver queryId pipeline advanced (changes.filter (fun change => change.queryId = queryId)) := by
  induction queries generalizing pos driver with
  | nil => exact ⟨[], driver, rfl, rfl, rfl, fun _ _ => ⟨rfl, rfl⟩, fun _ h => by cases h⟩
  | cons first rest ih =>
    obtain ⟨hfirst, hrest⟩ := nodup_cons.mp hnodup
    obtain ⟨pipeline, advanced, changes, hpipeline, hadvanced⟩ := hqueries first mem_cons_self
    have hother : ∀ queryId, queryId ≠ first →
        (driver.hold first advanced).pipelines.get? queryId = driver.pipelines.get? queryId := by
      intro queryId hne
      rw [hold, get?_set, if_neg hne]
    have hlater : ∀ i < rest.length, exceedsBudget (elapsed (pos + 1 + i)) total (pos + 1 + i) units = false := by
      intro i hi
      rw [Nat.add_assoc, Nat.add_comm 1]
      exact hbudget (i + 1) (Nat.succ_lt_succ hi)
    have hready : ∀ queryId ∈ rest, ∃ pipeline' advanced' changes',
        (driver.hold first advanced).pipelines.get? queryId = some pipeline' ∧
        AdvancedTo cfg diff (driver.hold first advanced) queryId pipeline' advanced' changes' := by
      intro queryId hquery
      obtain ⟨pipeline', advanced', changes', hpipeline', hadvanced'⟩ := hqueries queryId (mem_cons_of_mem _ hquery)
      exact ⟨pipeline', advanced', changes',
        (hother queryId (fun heq => hfirst (heq ▸ hquery))).trans hpipeline', hadvanced'⟩
    obtain ⟨others, final, hrun, hcurrent, hsignatures, houtside, hinside⟩ :=
      ih (driver.hold first advanced) hrest hlater hready
    have hown : ∀ queryId, queryId ≠ first → changes.filter (fun change => change.queryId = queryId) = [] := by
      intro queryId hne
      rw [filter_eq_nil_iff]
      intro change hchange
      rw [hadvanced.queryId_eq change hchange]
      simpa using Ne.symm hne
    refine ⟨changes ++ others, final, ?_, hcurrent, hsignatures, fun queryId hout => ?_, fun queryId hin => ?_⟩
    · have hnow : exceedsBudget (elapsed pos) total pos units = false := hbudget 0 (Nat.succ_pos _)
      rw [advanceQueries, if_neg (by simp [hnow]),
        bind_run (advanceQuery_advancedTo hpipeline hadvanced), bind_run hrun]
      rfl
    · have hne : queryId ≠ first := fun heq => hout (heq ▸ mem_cons_self)
      have hout : queryId ∉ rest := fun hmem => hout (mem_cons_of_mem _ hmem)
      rw [filter_append, hown queryId hne, (houtside queryId hout).2, (houtside queryId hout).1, hother queryId hne]
      exact ⟨rfl, rfl⟩
    · by_cases hne : queryId = first
      · subst hne
        refine ⟨pipeline, advanced, hpipeline, ?_, ?_⟩
        · rw [(houtside queryId hfirst).1, hold, get?_set, if_pos rfl]
        · rw [filter_append, (houtside queryId hfirst).2, append_nil, filter_eq_self.mpr
            (fun change hchange => by simpa using hadvanced.queryId_eq change hchange)]
          exact hadvanced
      · have hmem := (mem_cons.mp hin).resolve_left hne
        obtain ⟨pipeline', advanced', hpipeline', hadvanced', hto⟩ := hinside queryId hmem
        refine ⟨pipeline', advanced', (hother queryId hne).symm.trans hpipeline', hadvanced', ?_⟩
        rw [filter_append, hown queryId hne]
        exact hto

/-! ## Calls -/

/-- A call of a driver. -/
inductive DriverCall where
  | addQuery (queryId : String) (ast : Ast) (elapsedMs : ℚ)
  | registerQuery (queryId : String) (ast : Ast) (rows : List Row) (elapsedMs : ℚ)
  | removeQuery (queryId : String)
  | advance (head : ReplicaFile) (elapsed : ℕ → ℚ)

namespace PipelineDriver

variable (cfg)

/-- The driver after a call, whether it returned or failed. -/
def after (driver : PipelineDriver) : DriverCall → PipelineDriver
  | .addQuery queryId ast elapsedMs => finalState (addQuery cfg queryId ast elapsedMs) driver
  | .registerQuery queryId ast rows elapsedMs => finalState (registerQuery cfg queryId ast rows elapsedMs) driver
  | .removeQuery queryId => driver.removeQuery queryId
  | .advance head elapsed => finalState (advance cfg head elapsed) driver

/-- The driver after calls, opened at a head. -/
def afterAll (head : ReplicaFile) (calls : List DriverCall) : PipelineDriver :=
  calls.foldl (after cfg) (new cfg.appId head)

/-- The signature of every query is that of the rows it holds. -/
def Signed (driver : PipelineDriver) : Prop :=
  ∀ queryId pipeline, driver.pipelines.get? queryId = some pipeline →
    ∃ signature, signatureForRows cfg pipeline.rows = .ok signature ∧
      driver.rowSetSignatures.get? queryId = some signature

end PipelineDriver

variable (cfg)

/-- Rows are those of a query on a snapshot. -/
def RowsOn (snapshot : Snapshot) (ast : Ast) (rows : Fields MaterializedRow) : Prop :=
  ∃ found, hydrateGraph cfg.env cfg.tableSpecs (cfg.sourceOf snapshot) ast = .ok found ∧
    ∀ key, rows.get? key = found.get? key

/-- The rows of every query are those of the query on the current snapshot. -/
def PipelineDriver.Current (driver : PipelineDriver) : Prop :=
  ∀ snapshot queryId pipeline, driver.current = some snapshot → driver.pipelines.get? queryId = some pipeline →
    RowsOn cfg snapshot pipeline.ast pipeline.rows

/-- A direct query can follow the log between two snapshots: the log relates the two states of its
table, its condition can be evaluated, no entry takes back what an earlier one has set, and its
graph reads the same tables. -/
def DirectStep (prev curr : Snapshot) (ast : Ast) : Prop :=
  ∃ spec prevTable currTable, Consecutive cfg.env cfg.tableSpecs ast spec prev curr prevTable currTable ∧
    KeysIdentify cfg.env ast spec prevTable currTable ∧ Evaluates cfg.env ast spec prev curr currTable ∧
    NoTakeover cfg.env ast spec prev curr prevTable currTable ∧
    RowsOn cfg prev ast (directRows cfg.env ast spec prevTable.rows) ∧
    RowsOn cfg curr ast (directRows cfg.env ast spec currTable.rows)

/-- An advance that does not stop partway: the difference is found, the clock stays within the
budget, tables without a change are read as before, and every affected query can follow. -/
structure Steady (driver : PipelineDriver) (prev curr : Snapshot) (elapsed : ℕ → ℚ) (diff : SnapshotDiff) : Prop where
  budget : ∀ i < (driver.affectedQueries diff).length,
    exceedsBudget (elapsed i) ((driver.hydrationTimeMs.map Prod.snd).sum) i (driver.affectedQueries diff).length = false
  unchanged : ∀ table, (∀ change ∈ diff.rows, change.table ≠ table) →
    (cfg.sourceOf curr).fetch table = (cfg.sourceOf prev).fetch table
  direct : ∀ queryId ∈ driver.affectedQueries diff, ∀ pipeline, driver.pipelines.get? queryId = some pipeline →
    isDirectIncrementalQuery pipeline.ast = true → DirectStep cfg prev curr pipeline.ast
  hydrated : ∀ queryId ∈ driver.affectedQueries diff, ∀ pipeline, driver.pipelines.get? queryId = some pipeline →
    isDirectIncrementalQuery pipeline.ast = false →
      ∃ rows, hydrateGraph cfg.env cfg.tableSpecs (cfg.sourceOf curr) pipeline.ast = .ok rows

/-- A call that keeps rows and signatures right: rows are registered as they are on the current
snapshot, and an advance does not stop partway. -/
def PipelineDriver.Careful (driver : PipelineDriver) : DriverCall → Prop
  | .addQuery _ _ _ => True
  | .registerQuery _ ast rows _ => ∀ snapshot held, driver.current = some snapshot →
      materializeRows cfg ast rows = .ok held → RowsOn cfg snapshot ast held
  | .removeQuery _ => True
  | .advance head elapsed => ∀ prev, driver.current = some prev → ∃ diff,
      materializeDiff cfg.env prev (Snapshot.create cfg.appId head) cfg.tableSpecs cfg.allTableNames = .ok diff ∧
      Steady cfg driver prev (Snapshot.create cfg.appId head) elapsed diff

/-- What holds in every state of a careful run. -/
structure DriverInv (driver : PipelineDriver) : Prop where
  signed : driver.Signed cfg
  current : driver.Current cfg
  tables : ∀ queryId pipeline, driver.pipelines.get? queryId = some pipeline →
    pipeline.referencedTables = referencedTables pipeline.ast

variable {cfg}

theorem RowsOn.identified (htables : KeyedTables cfg)
    (h : RowsOn cfg snapshot ast rows) : Identified cfg.env rows := by
  obtain ⟨found, hfound, hsame⟩ := h
  exact (hydrateGraph_identified htables hfound).congr hsame

theorem RowsOn.congr
    (h : RowsOn cfg snapshot ast rows) (hsame : ∀ key, rows'.get? key = rows.get? key) : RowsOn cfg snapshot ast rows' := by
  obtain ⟨found, hfound, hrows⟩ := h
  exact ⟨found, hfound, fun key => (hsame key).trans (hrows key)⟩

/-- Rows of one query on one snapshot are the same rows. -/
theorem RowsOn.get?_eq (h : RowsOn cfg snapshot ast rows) (h' : RowsOn cfg snapshot ast rows') (key : String) :
    rows.get? key = rows'.get? key := by
  obtain ⟨found, hfound, hsame⟩ := h
  obtain ⟨found', hfound', hsame'⟩ := h'
  rw [hfound] at hfound'
  cases hfound'
  rw [hsame, hsame']

/-! ## Adding and removing queries -/

variable {driver : PipelineDriver}

section

variable (h : DriverInv cfg driver)

include h

theorem DriverInv.removeQuery (queryId : String) : DriverInv cfg (driver.removeQuery queryId) := by
  have hkept : ∀ other pipeline, (driver.removeQuery queryId).pipelines.get? other = some pipeline →
      other ≠ queryId ∧ driver.pipelines.get? other = some pipeline := by
    intro other pipeline hpipeline
    rw [PipelineDriver.removeQuery, get?_erase] at hpipeline
    split at hpipeline
    · cases hpipeline
    · next hne => exact ⟨hne, hpipeline⟩
  refine ⟨fun other pipeline hpipeline => ?_, fun snapshot other pipeline hcurrent hpipeline => ?_,
    fun other pipeline hpipeline => h.tables other pipeline (hkept other pipeline hpipeline).2⟩
  · obtain ⟨hne, hheld⟩ := hkept other pipeline hpipeline
    obtain ⟨signature, hsignature, hsigned⟩ := h.signed other pipeline hheld
    refine ⟨signature, hsignature, ?_⟩
    rw [PipelineDriver.removeQuery, get?_erase, if_neg hne, hsigned]
  · exact h.current snapshot other pipeline hcurrent (hkept other pipeline hpipeline).2

/-- Recording a query with its rows on the current snapshot. -/
theorem DriverInv.activate (hrows : ∀ snapshot, driver.current = some snapshot → RowsOn cfg snapshot ast rows)
    (elapsedMs : ℚ) : DriverInv cfg (finalState (activate cfg queryId ast elapsedMs rows) driver) := by
  rw [finalState, activate_run]
  cases hsignature : signatureForRows cfg rows with
  | error => exact ⟨h.signed, h.current, h.tables⟩
  | ok signature =>
    refine ⟨fun other pipeline hpipeline => ?_, fun snapshot other pipeline hcurrent hpipeline => ?_,
      fun other pipeline hpipeline => ?_⟩
    · dsimp only [hold, sign] at hpipeline ⊢
      rw [get?_set] at hpipeline ⊢
      split at hpipeline
      · next hquery =>
        cases hpipeline
        exact ⟨signature, hsignature, if_pos hquery⟩
      · next hquery =>
        rw [if_neg hquery]
        exact h.signed other pipeline hpipeline
    · dsimp only [hold, sign] at hpipeline hcurrent
      rw [get?_set] at hpipeline
      split at hpipeline
      · cases hpipeline
        exact hrows snapshot hcurrent
      · exact h.current snapshot other pipeline hcurrent hpipeline
    · dsimp only [hold, sign] at hpipeline
      rw [get?_set] at hpipeline
      split at hpipeline
      · cases hpipeline
        rfl
      · exact h.tables other pipeline hpipeline

/-- A hydration that fails leaves the queries, and may lose the snapshot. -/
theorem DriverInv.withCurrentShared {α : Type}
    (result : Except PipelineError α) : DriverInv cfg (finalState (withCurrentShared result) driver) := by
  cases result with
  | ok => exact h
  | error e =>
    cases e with
    | panic => exact ⟨h.signed, (fun snapshot queryId pipeline hcurrent => by cases hcurrent), h.tables⟩
    | snapshot | unknownTable | resetPipelines | emptyRowKey => exact h

theorem DriverInv.hydrate (queryId : String) (ast : Ast) (elapsedMs : ℚ) :
    DriverInv cfg (finalState (hydrateViaGraph cfg ast >>= ViewSyncer.activate cfg queryId ast elapsedMs) driver) := by
  rcases hydrateViaGraph_run cfg ast driver with ⟨snapshot, rows, hcurrent, hrows, hydrated⟩ | ⟨e, failed, hfailed, -, -⟩
  · rw [finalState, bind_run hydrated]
    refine h.activate (fun other hother => ?_) elapsedMs
    rw [hcurrent] at hother
    cases hother
    exact ⟨rows, hrows, fun _ => rfl⟩
  · have hthrown : (hydrateViaGraph cfg ast >>= ViewSyncer.activate cfg queryId ast elapsedMs) driver = .error e failed := by
      simp only [Bind.bind, EStateM.bind, hfailed]
    have hstate : failed = finalState (hydrateViaGraph cfg ast) driver := by
      rw [finalState, hfailed]
    rw [finalState, hthrown]
    rw [hstate, hydrateViaGraph, finalState_get_bind]
    cases driver.current with
    | none => exact h
    | some => exact h.withCurrentShared _

theorem DriverInv.addQuery (queryId : String) (ast : Ast)
    (elapsedMs : ℚ) : DriverInv cfg (finalState (addQuery cfg queryId ast elapsedMs) driver) := by
  cases hactive : (driver.pipelines.get? queryId).isSome with
  | true =>
    have hrun : ViewSyncer.addQuery cfg queryId ast elapsedMs driver =
        (hydrateViaGraph cfg ast >>= ViewSyncer.activate cfg queryId ast elapsedMs) (driver.removeQuery queryId) := by
      simp only [ViewSyncer.addQuery, bind_run (get_run driver), hactive]
      rfl
    rw [finalState, hrun]
    exact (h.removeQuery queryId).hydrate queryId ast elapsedMs
  | false =>
    have hrun : ViewSyncer.addQuery cfg queryId ast elapsedMs driver =
        (hydrateViaGraph cfg ast >>= ViewSyncer.activate cfg queryId ast elapsedMs) driver := by
      simp only [ViewSyncer.addQuery, bind_run (get_run driver), hactive]
      rfl
    rw [finalState, hrun]
    exact h.hydrate queryId ast elapsedMs

theorem DriverInv.registerQuery
    {rows : List Row} (elapsedMs : ℚ) (hcareful : driver.Careful cfg (.registerQuery queryId ast rows elapsedMs)) :
    DriverInv cfg (finalState (registerQuery cfg queryId ast rows elapsedMs) driver) := by
  have hrun : ViewSyncer.registerQuery cfg queryId ast rows elapsedMs driver =
      (if (driver.pipelines.get? queryId).isSome then pure [] else
        check (materializeRows cfg ast rows) >>= ViewSyncer.activate cfg queryId ast elapsedMs :
          Driving (List PipelineRowChange)) driver := rfl
  rw [finalState, hrun, ← finalState]
  split
  · exact h
  · cases hheld : materializeRows cfg ast rows with
    | error => exact h
    | ok held =>
      exact h.activate (fun snapshot hcurrent => hcareful snapshot held hcurrent hheld) elapsedMs

end

/-! ## Advancing -/

variable (cfg) in
/-- A query that followed: what it reports is the difference of the rows it held and those it holds,
and these are its rows on the new snapshot. -/
structure Followed (curr : Snapshot) (queryId : String) (pipeline advanced : Pipeline)
    (changes : List PipelineRowChange) : Prop where
  ast_eq : advanced.ast = pipeline.ast
  tables_eq : advanced.referencedTables = pipeline.referencedTables
  changes_eq : changes = diffRows queryId pipeline.rows advanced.rows
  rows_on : RowsOn cfg curr pipeline.ast advanced.rows

variable {diff : SnapshotDiff} {driver : PipelineDriver} {pipeline : Pipeline}

theorem AdvancedTo.unique {advanced advanced' : Pipeline} {changes' : List PipelineRowChange}
    (h : AdvancedTo cfg diff driver queryId pipeline advanced changes)
    (h' : AdvancedTo cfg diff driver queryId pipeline advanced' changes') : advanced = advanced' ∧ changes = changes' := by
  rcases h with ⟨hdirect, hadvanced⟩ | ⟨hdirect, snapshot, next, hcurrent, hnext, rfl, rfl⟩
  · rcases h' with ⟨-, hadvanced'⟩ | ⟨hnot, -⟩
    · rw [hadvanced] at hadvanced'
      cases hadvanced'
      exact ⟨rfl, rfl⟩
    · rw [hdirect] at hnot
      cases hnot
  · rcases h' with ⟨hnot, -⟩ | ⟨-, snapshot', next', hcurrent', hnext', rfl, rfl⟩
    · rw [hdirect] at hnot
      cases hnot
    · rw [hcurrent] at hcurrent'
      cases hcurrent'
      rw [hnext] at hnext'
      cases hnext'
      exact ⟨rfl, rfl⟩

/-- A direct query follows the log from its rows on the previous snapshot. -/
theorem direct_followed (driver : PipelineDriver) (queryId : String)
    (hdiff : materializeDiff cfg.env prev curr cfg.tableSpecs cfg.allTableNames = .ok diff)
    (hdirect : isDirectIncrementalQuery pipeline.ast = true) (hheld : RowsOn cfg prev pipeline.ast pipeline.rows)
    (hstep : DirectStep cfg prev curr pipeline.ast) :
    ∃ advanced changes, AdvancedTo cfg diff driver queryId pipeline advanced changes ∧
      Followed cfg curr queryId pipeline advanced changes := by
  obtain ⟨spec, prevTable, currTable, hconsecutive, hkeys, hevaluates, hkeeps, hprev, hcurr⟩ := hstep
  have hbefore := hheld.get?_eq hprev
  have hexact : DirectExact cfg.env queryId pipeline diff cfg.tableSpecs spec prevTable currTable :=
    (directExact_iff hconsecutive hkeys hdiff hbefore).mpr ⟨hevaluates, hkeeps⟩
  obtain ⟨advanced, emitted, hadvanced, hrows, hemitted⟩ := hexact
  obtain ⟨keyed, -, hpipeline, -⟩ := applyDirectChanges_run hadvanced
  refine ⟨advanced, emitted, .inl ⟨hdirect, hadvanced⟩, ?_, ?_, ?_, hcurr.congr hrows⟩
  · rw [hpipeline]
  · rw [hpipeline]
  · rw [hemitted]
    exact diffRows_congr (fun key => by rw [hbefore, hrows])

/-- A query that is hydrated again has its rows on the current snapshot. -/
theorem hydrated_followed (diff : SnapshotDiff) (queryId : String) (hcurrent : driver.current = some curr)
    (hdirect : isDirectIncrementalQuery pipeline.ast = false)
    (h : ∃ rows, hydrateGraph cfg.env cfg.tableSpecs (cfg.sourceOf curr) pipeline.ast = .ok rows) :
    ∃ advanced changes, AdvancedTo cfg diff driver queryId pipeline advanced changes ∧
      Followed cfg curr queryId pipeline advanced changes := by
  obtain ⟨rows, hrows⟩ := h
  exact ⟨_, _, .inr ⟨hdirect, curr, rows, hcurrent, hrows, rfl, rfl⟩, rfl, rfl, rfl, rows, hrows, fun _ => rfl⟩

theorem mem_affectedQueries
    (hpipeline : driver.pipelines.get? queryId = some pipeline) : queryId ∈ driver.affectedQueries diff ↔
      ∃ table ∈ pipeline.referencedTables, ∃ change ∈ diff.rows, change.table = table := by
  have hkey : queryId ∈ driver.pipelines.map fst := mem_map.mpr ⟨_, mem_of_get? hpipeline, rfl⟩
  rw [affectedQueries, mem_filter, mem_sortedKeys, hpipeline]
  simp [hkey]

/-- A query whose tables have no change keeps its rows. -/
theorem unaffected_followed (hpipeline : driver.pipelines.get? queryId = some pipeline)
    (htables : pipeline.referencedTables = referencedTables pipeline.ast)
    (hheld : RowsOn cfg prev pipeline.ast pipeline.rows)
    (hunchanged : ∀ table, (∀ change ∈ diff.rows, change.table ≠ table) →
      (cfg.sourceOf curr).fetch table = (cfg.sourceOf prev).fetch table)
    (hquery : queryId ∉ driver.affectedQueries diff) : Followed cfg curr queryId pipeline pipeline [] := by
  obtain ⟨found, hfound, hsame⟩ := hheld
  have hnone : ∀ key ∈ sortedKeys (pipeline.rows.map fst ++ pipeline.rows.map fst),
      changeOf queryId (pipeline.rows.get? key) (pipeline.rows.get? key) = none := fun key _ => changeOf_self queryId _
  refine ⟨rfl, rfl, (filterMap_eq_nil_iff.mpr hnone).symm, found, ?_, hsame⟩
  rw [hydrateGraph_congr (fun table htable => hunchanged table (fun change hchange heq => ?_)), hfound]
  exact hquery ((mem_affectedQueries hpipeline).mpr ⟨table, htables ▸ htable, change, hchange, heq⟩)

/-- Two states in which a query is held alike. -/
def SameQuery (queryId : String) (driver driver' : PipelineDriver) : Prop :=
  driver'.pipelines.get? queryId = driver.pipelines.get? queryId

instance (queryId : String) : IsPreorder PipelineDriver (SameQuery queryId) where
  refl _ := rfl
  trans _ _ _ h h' := Eq.trans h' h

open Moves

/-- A query that is not advanced is held as before, whether the others return or not. -/
theorem advanceQueries_sameQuery {total : ℚ} {units pos : ℕ} {queries : List String} (h : queryId ∉ queries) :
    Moves (SameQuery queryId) (advanceQueries cfg diff elapsed total units pos queries) := by
  induction queries generalizing pos with
  | nil => exact pure _
  | cons first rest ih =>
    obtain ⟨hfirst, hrest⟩ := not_or.mp (mem_cons.not.mp h)
    refine ite (throw _) (bind (fun driver => ?_) (fun _ => bind (ih hrest) (fun _ => pure _)))
    rw [finalState]
    rcases advanceQuery_run cfg diff first driver with ⟨pipeline, advanced, changes, -, -, hrun⟩ | ⟨e, failed, hrun, hkept⟩
    · rw [hrun]
      simp [SameQuery, hold, get?_set, hfirst]
    · rw [hrun]
      rw [SameQuery, hkept]

/-- Every affected query can follow a steady advance. -/
theorem Steady.follows (h : DriverInv cfg driver) (hcurrent : driver.current = some prev)
    (hdiff : materializeDiff cfg.env prev curr cfg.tableSpecs cfg.allTableNames = .ok diff)
    (hsteady : Steady cfg driver prev curr elapsed diff) (hquery : queryId ∈ driver.affectedQueries diff) :
    ∃ pipeline advanced changes, driver.pipelines.get? queryId = some pipeline ∧
      AdvancedTo cfg diff { driver with current := some curr } queryId pipeline advanced changes ∧
      Followed cfg curr queryId pipeline advanced changes := by
  cases hpipeline : driver.pipelines.get? queryId with
  | none => simp [affectedQueries, hpipeline] at hquery
  | some pipeline =>
    cases hdirect : isDirectIncrementalQuery pipeline.ast with
    | true =>
      obtain ⟨advanced, changes, hto⟩ := direct_followed { driver with current := some curr } queryId hdiff hdirect
        (h.current prev queryId pipeline hcurrent hpipeline) (hsteady.direct queryId hquery pipeline hpipeline hdirect)
      exact ⟨pipeline, advanced, changes, rfl, hto⟩
    | false =>
      have hmoved : current { driver with current := some curr } = some curr := rfl
      obtain ⟨advanced, changes, hto⟩ := hydrated_followed diff queryId hmoved hdirect
        (hsteady.hydrated queryId hquery pipeline hpipeline hdirect)
      exact ⟨pipeline, advanced, changes, rfl, hto⟩

/-- Queries that all followed, with the signatures brought up to date by what they report. -/
theorem DriverInv.followed (htables : KeyedTables cfg) (htexts : TextsIdentify cfg) {driver' : PipelineDriver}
    (h : DriverInv cfg driver) (hprev : driver.current = some prev) (hcurr : driver'.current = some curr)
    (hqueries : ∀ queryId advanced, driver'.pipelines.get? queryId = some advanced →
      ∃ pipeline, driver.pipelines.get? queryId = some pipeline ∧
        Followed cfg curr queryId pipeline advanced (changes.filter (fun change => change.queryId = queryId)))
    (hsigned : ∀ queryId signature, driver.rowSetSignatures.get? queryId = some signature →
      driver'.rowSetSignatures.get? queryId = some (signature ^^^
        xorAll ((changes.filter (fun change => change.queryId = queryId)).map (changeShare cfg)))) :
    DriverInv cfg driver' := by
  refine ⟨fun queryId advanced hadvanced => ?_, fun snapshot queryId advanced hsnapshot hadvanced => ?_,
    fun queryId advanced hadvanced => ?_⟩
  · obtain ⟨pipeline, hpipeline, hfollowed⟩ := hqueries queryId advanced hadvanced
    have hbefore := (h.current prev queryId pipeline hprev hpipeline).identified htables
    have hafter := hfollowed.rows_on.identified htables
    obtain ⟨signature, hsignature, hheld⟩ := h.signed queryId pipeline hpipeline
    rw [signatureForRows_eq hbefore] at hsignature
    cases hsignature
    refine ⟨_, signatureForRows_eq hafter, ?_⟩
    rw [hsigned queryId _ hheld, hfollowed.changes_eq, xorAll_diffRows htexts hbefore hafter]
  · obtain ⟨pipeline, -, hfollowed⟩ := hqueries queryId advanced hadvanced
    rw [hcurr] at hsnapshot
    cases hsnapshot
    rw [hfollowed.ast_eq]
    exact hfollowed.rows_on
  · obtain ⟨pipeline, hpipeline, hfollowed⟩ := hqueries queryId advanced hadvanced
    rw [hfollowed.tables_eq, hfollowed.ast_eq]
    exact h.tables queryId pipeline hpipeline

variable {head : ReplicaFile}

/-- A steady advance returns, and every query is where it should be. -/
theorem DriverInv.advance (htables : KeyedTables cfg) (htexts : TextsIdentify cfg)
    (h : DriverInv cfg driver) (hcurrent : driver.current = some prev)
    (hdiff : materializeDiff cfg.env prev (create cfg.appId head) cfg.tableSpecs cfg.allTableNames = .ok diff)
    (hsteady : Steady cfg driver prev (create cfg.appId head) elapsed diff) :
    ∃ changes driver', advance cfg head elapsed driver = .ok changes driver' ∧ DriverInv cfg driver' := by
  rw [advance_run cfg hcurrent hdiff]
  generalize create cfg.appId head = curr at hdiff hsteady
  have hnodup : (driver.affectedQueries diff).Nodup :=
    ((sortedKeys_sorted _).imp ne_of_lt).filter _
  have hready : ∀ queryId ∈ driver.affectedQueries diff, ∃ pipeline advanced changes,
      driver.pipelines.get? queryId = some pipeline ∧
      AdvancedTo cfg diff { driver with current := some curr } queryId pipeline advanced changes := by
    intro queryId hquery
    obtain ⟨pipeline, advanced, changes, hpipeline, hto, -⟩ := hsteady.follows h hcurrent hdiff hquery
    exact ⟨pipeline, advanced, changes, hpipeline, hto⟩
  have hbudget : ∀ i < (driver.affectedQueries diff).length,
      exceedsBudget (elapsed (0 + i)) ((driver.hydrationTimeMs.map snd).sum) (0 + i)
        (driver.affectedQueries diff).length = false := by
    intro i hi
    rw [Nat.zero_add]
    exact hsteady.budget i hi
  obtain ⟨changes, moved, hrun, hmoved, hsignatures, houtside, hinside⟩ :=
    advanceQueries_returns { driver with current := some curr } hnodup hbudget hready
  -- A query follows whether it is affected or not.
  have hqueries : ∀ queryId advanced, moved.pipelines.get? queryId = some advanced →
      ∃ pipeline, driver.pipelines.get? queryId = some pipeline ∧
        Followed cfg curr queryId pipeline advanced (changes.filter (fun change => change.queryId = queryId)) := by
    intro queryId advanced hadvanced
    by_cases hquery : queryId ∈ driver.affectedQueries diff
    · obtain ⟨pipeline, advanced', hpipeline, hadvanced', hto⟩ := hinside queryId hquery
      obtain ⟨pipeline', advanced'', changes', hpipeline', hto', hfollowed⟩ := hsteady.follows h hcurrent hdiff hquery
      cases hpipeline.symm.trans hpipeline'
      cases hadvanced.symm.trans hadvanced'
      obtain ⟨rfl, rfl⟩ := hto.unique hto'
      exact ⟨pipeline, hpipeline, hfollowed⟩
    · obtain ⟨hsame, hnone⟩ := houtside queryId hquery
      have hpipeline : driver.pipelines.get? queryId = some advanced := hsame.symm.trans hadvanced
      rw [hnone]
      exact ⟨advanced, hpipeline, unaffected_followed hpipeline (h.tables queryId advanced hpipeline)
        (h.current prev queryId advanced hcurrent hpipeline) hsteady.unchanged hquery⟩
  have hkeys : ∀ change ∈ changes, change.rowKey ≠ [] := by
    intro change hchange
    have hown : change ∈ changes.filter (fun other => other.queryId = change.queryId) := by
      simpa using hchange
    by_cases hquery : change.queryId ∈ driver.affectedQueries diff
    · obtain ⟨-, advanced, -, hadvanced, -⟩ := hinside change.queryId hquery
      obtain ⟨pipeline, hpipeline, hfollowed⟩ := hqueries change.queryId advanced hadvanced
      rw [hfollowed.changes_eq] at hown
      exact rowKey_of_mem_diffRows ((h.current prev _ pipeline hcurrent hpipeline).identified htables)
        (hfollowed.rows_on.identified htables) hown
    · rw [(houtside change.queryId hquery).2] at hown
      cases hown
  obtain ⟨final, hsign, hfinal, hpipelines, hsigned⟩ := applySignatureChanges_run hkeys moved
  refine ⟨changes, final, ?_, ?_⟩
  · rw [bind_run hrun, bind_run hsign]
    rfl
  · rw [← hpipelines] at hqueries
    rw [hsignatures] at hsigned
    exact h.followed htables htexts hcurrent (hfinal.trans hmoved) hqueries hsigned

/-! ## Runs -/

/-- A careful call keeps what holds in every state. -/
theorem DriverInv.after (htables : KeyedTables cfg) (htexts : TextsIdentify cfg)
    (h : DriverInv cfg driver) {call : DriverCall} (hcareful : driver.Careful cfg call) :
    DriverInv cfg (driver.after cfg call) := by
  cases call with
  | addQuery queryId ast elapsedMs => exact h.addQuery queryId ast elapsedMs
  | registerQuery queryId ast rows elapsedMs => exact h.registerQuery elapsedMs hcareful
  | removeQuery queryId => exact h.removeQuery queryId
  | advance =>
    rw [PipelineDriver.after]
    cases hcurrent : driver.current with
    | none =>
      rw [ViewSyncer.advance, finalState_get_bind, hcurrent]
      exact h
    | some prev =>
      obtain ⟨diff, hdiff, hsteady⟩ := hcareful prev hcurrent
      obtain ⟨changes, driver', hrun, hinv⟩ := h.advance htables htexts hcurrent hdiff hsteady
      rw [finalState, hrun]
      exact hinv

theorem driverInv_new (head : ReplicaFile) : DriverInv cfg (new cfg.appId head) := by
  have hnone : ∀ queryId pipeline, (new cfg.appId head).pipelines.get? queryId ≠ some pipeline :=
    fun queryId pipeline h => by cases h
  exact ⟨fun queryId pipeline h => absurd h (hnone queryId pipeline),
    fun snapshot queryId pipeline _ h => absurd h (hnone queryId pipeline),
    fun queryId pipeline h => absurd h (hnone queryId pipeline)⟩

theorem driverInv_afterAll (htables : KeyedTables cfg) (htexts : TextsIdentify cfg) {calls : List DriverCall}
    (hcareful : ∀ before call rest, calls = before ++ call :: rest → (afterAll cfg head before).Careful cfg call) :
    ∀ before rest, calls = before ++ rest → DriverInv cfg (afterAll cfg head before) :=
  foldl_prefix_invariant (driverInv_new head)
    (fun before call rest hcalls h => h.after htables htexts (hcareful before call rest hcalls))

/-- In a run of careful calls the signature of every query is always that of its rows, and after
every advance that returns the rows are those of the query on the current snapshot. -/
theorem signed_and_current (htables : KeyedTables cfg) (htexts : TextsIdentify cfg) (head : ReplicaFile)
    (calls : List DriverCall) (hcareful : ∀ before call rest, calls = before ++ call :: rest →
      (PipelineDriver.afterAll cfg head before).Careful cfg call) :
    (∀ before rest, calls = before ++ rest → (PipelineDriver.afterAll cfg head before).Signed cfg) ∧
      ∀ before head' elapsed rest changes driver', calls = before ++ .advance head' elapsed :: rest →
        advance cfg head' elapsed (PipelineDriver.afterAll cfg head before) = .ok changes driver' →
          driver'.Current cfg := by
  have hinv := driverInv_afterAll htables htexts hcareful
  refine ⟨fun before rest hcalls => (hinv before rest hcalls).signed,
    fun before head' elapsed rest changes driver' hcalls hrun => ?_⟩
  have hafter := hinv (before ++ [.advance head' elapsed]) rest (by rw [hcalls, append_assoc]; rfl)
  rw [afterAll, foldl_append, foldl_cons, foldl_nil, PipelineDriver.after, ← afterAll, finalState, hrun] at hafter
  exact hafter.current

/-! ## Drivers of the issues -/

/-- The issues of a snapshot as the sources of a graph read them. -/
def issuesRead (snapshot : Snapshot) (table : String) : List Row :=
  match snapshot.file.database.getTable table with
  | .ok t => t.rows.map (fun row => sqlRowToZql textKeyEnv (project issueSpec.columns row) [] none)
  | .error _ => []

/-- A driver that syncs the issues. -/
def issueDriver : DriverConfig :=
  ⟨textKeyEnv, "zero", [("issue", issueSpec)], ["issue"], fun snapshot => Source.ofTables (issuesRead snapshot), fun _ => 1⟩

/-- No issues yet. -/
def withoutIssues : ReplicaFile := (issuesAt "00" [] []).file

/-- A first issue was replicated. -/
def withOneIssue : ReplicaFile := (issuesAt "01" [issueRow "1" "x"] [issueSet 0 "1"]).file

theorem issueDriver_keyedTables : KeyedTables issueDriver := by
  intro table spec hspec
  have hmem := mem_of_get? hspec
  rw [issueDriver, mem_singleton] at hmem
  cases hmem
  simp [issueSpec]

theorem issueDriver_textsIdentify : TextsIdentify issueDriver := by
  intro a b ha hb _
  rw [rowIdSignatureUnit_eq ha, rowIdSignatureUnit_eq hb]
  rfl

theorem issuesRead_other {rows : List SqlRow} {version : String} {log : List ChangeLogEntry} (h : table ≠ "issue") :
    issuesRead (issuesAt version rows log) table = [] := by
  have hnone : (issuesAt version rows log).file.database.table? table = none := by
    simp [Database.table?, issuesAt, issues, Ne.symm h]
  rw [issuesRead, Database.getTable, hnone]

theorem issues_directStep : DirectStep issueDriver (issuesAt "00" [] [])
    (issuesAt "01" [issueRow "1" "x"] [issueSet 0 "1"]) allIssues := by
  refine ⟨issueSpec, issues [], issues [issueRow "1" "x"], issues_consecutive (by decide) (by decide) (by decide)
    (by simp [issueSet]) (by simp) (by simp) (by decide), ?_, ?_, ?_, ⟨_, rfl, fun _ => rfl⟩, ⟨_, rfl, fun _ => rfl⟩⟩
  · unfold KeysIdentify
    decide
  · intro entry _ _ row _ _
    rfl
  · exact pairwise_singleton _ _

/-- All issues are added and the driver is advanced to the first one. -/
def addedThenAdvanced : List DriverCall := [.addQuery "p" allIssues 1, .advance withOneIssue (fun _ => 0)]

/-- An advance to the first issue is careful. -/
theorem careful_advance : (afterAll issueDriver withoutIssues [.addQuery "p" allIssues 1]).Careful
    issueDriver (.advance withOneIssue (fun _ => 0)) := by
  have hast : ∀ queryId pipeline, (afterAll issueDriver withoutIssues
      [.addQuery "p" allIssues 1]).pipelines.get? queryId = some pipeline → pipeline.ast = allIssues := by
    intro queryId pipeline hpipeline
    have hmem : (queryId, pipeline) ∈ [("p", (⟨allIssues, [], ["issue"]⟩ : Pipeline))] := mem_of_get? hpipeline
    cases mem_singleton.mp hmem
    rfl
  intro prev hprev
  cases hprev
  refine ⟨_, rfl, by decide, fun table htable => ?_, fun queryId _ pipeline hpipeline _ => ?_,
    fun queryId _ pipeline hpipeline hdirect => ?_⟩
  · have hother : table ≠ "issue" := fun heq => htable _ mem_cons_self heq.symm
    change (ofTables (issuesRead (issuesAt "01" _ _))).fetch table =
      (ofTables (issuesRead (issuesAt "00" _ _))).fetch table
    simp only [ofTables, issuesRead_other hother]
  · rw [hast queryId pipeline hpipeline]
    exact issues_directStep
  · rw [hast queryId pipeline hpipeline] at hdirect
    cases hdirect

/-- After the advance the query holds the first issue and is signed. -/
theorem signed_and_current_first :
    (PipelineDriver.afterAll issueDriver withoutIssues addedThenAdvanced).Signed issueDriver ∧
      ∃ changes driver', advance issueDriver withOneIssue (fun _ => 0)
        (PipelineDriver.afterAll issueDriver withoutIssues [.addQuery "p" allIssues 1]) = .ok changes driver' ∧
          driver'.Current issueDriver := by
  have hcareful : ∀ before call rest, addedThenAdvanced = before ++ call :: rest →
      (afterAll issueDriver withoutIssues before).Careful issueDriver call := by
    intro before call rest hcalls
    cases before with
    | nil =>
      cases hcalls
      trivial
    | cons first before =>
      cases before with
      | nil =>
        cases hcalls
        exact careful_advance
      | cons =>
        obtain ⟨-, hcalls⟩ := cons.inj hcalls
        exact absurd hcalls (by simp)
  obtain ⟨hsigned, hcurrent⟩ := signed_and_current issueDriver_keyedTables issueDriver_textsIdentify withoutIssues
    addedThenAdvanced hcareful
  exact ⟨hsigned addedThenAdvanced [] rfl, _, _, rfl, hcurrent [_] _ _ [] _ _ rfl rfl⟩

/-- The clock shows that the time is up before the second query. -/
def slowSecond : ℕ → ℚ
  | 0 => 0
  | _ => 100

/-- Two queries for all issues are added, and an advance to the first issue stops before the second. -/
def stoppedPartway : List DriverCall :=
  [.addQuery "p" allIssues 1, .addQuery "q" allIssues 1, .advance withOneIssue slowSecond]

/-- The first issue as a query holds it. -/
def heldIssue : Fields MaterializedRow := directRows textKeyEnv allIssues issueSpec [issueRow "1" "x"]

/-- The driver with both queries at the first issue, as far as an advance has brought them. -/
def driverAtFirst (rowsOfFirst : Fields MaterializedRow) (snapshot : Snapshot) : PipelineDriver :=
  ⟨some snapshot, [("p", ⟨allIssues, rowsOfFirst, ["issue"]⟩), ("q", ⟨allIssues, [], ["issue"]⟩)],
    [("p", 0), ("q", 0)], [("p", 1), ("q", 1)]⟩

/-- The snapshot with the first issue. -/
def atFirst : Snapshot := issuesAt "01" [issueRow "1" "x"] [issueSet 0 "1"]

/-- The advance that stops leaves the snapshot and the first query at the first issue, but not the
second query and neither of the signatures. -/
theorem afterAll_stoppedPartway :
    afterAll issueDriver withoutIssues stoppedPartway = driverAtFirst heldIssue atFirst := by
  obtain ⟨diff, hdiff⟩ : ∃ diff, materializeDiff textKeyEnv (issuesAt "00" [] []) atFirst [("issue", issueSpec)]
      ["issue"] = .ok diff := ⟨_, rfl⟩
  obtain ⟨changes, hfirst⟩ : ∃ changes, advanceQuery issueDriver diff "p" (driverAtFirst [] atFirst) =
      .ok changes (driverAtFirst heldIssue atFirst) := by
    cases hdiff
    exact ⟨_, rfl⟩
  have hqueries : (driverAtFirst [] (issuesAt "00" [] [])).affectedQueries diff = ["p", "q"] := by
    cases hdiff
    decide
  have htotal : ((driverAtFirst [] (issuesAt "00" [] [])).hydrationTimeMs.map snd).sum = 2 := by
    norm_num [driverAtFirst]
  have hstart : exceedsBudget (slowSecond 0) 2 0 2 = false := by
    norm_num [exceedsBudget, slowSecond, minAdvancementTimeLimitMs]
  have hbudget : exceedsBudget (slowSecond 1) 2 1 2 = true := by
    norm_num [exceedsBudget, slowSecond, minAdvancementTimeLimitMs, lateAdvancementFinishProgress]
  have hstop : advanceQueries issueDriver diff slowSecond 2 2 1 ["q"] (driverAtFirst heldIssue atFirst) =
      .error (.resetPipelines .advancementTimeout) (driverAtFirst heldIssue atFirst) := by
    rw [advanceQueries, if_pos hbudget]
    rfl
  have hloop : advanceQueries issueDriver diff slowSecond 2 2 0 ["p", "q"] (driverAtFirst [] atFirst) =
      .error (.resetPipelines .advancementTimeout) (driverAtFirst heldIssue atFirst) := by
    rw [advanceQueries, if_neg (by simp [hstart]), bind_run hfirst]
    simp only [Bind.bind, EStateM.bind, hstop]
  have hrun : advance issueDriver withOneIssue slowSecond (driverAtFirst [] (issuesAt "00" [] [])) =
      .error (.resetPipelines .advancementTimeout) (driverAtFirst heldIssue atFirst) := by
    rw [advance_run _ rfl hdiff, hqueries, htotal]
    have hmoved : { driverAtFirst [] (issuesAt "00" [] []) with
        current := some (create issueDriver.appId withOneIssue) } = driverAtFirst [] atFirst := rfl
    simp only [hmoved, length_cons, length_nil, Bind.bind, EStateM.bind, hloop]
  have hstate : afterAll issueDriver withoutIssues stoppedPartway =
      finalState (advance issueDriver withOneIssue slowSecond) (driverAtFirst [] (issuesAt "00" [] [])) := rfl
  rw [hstate, finalState, hrun]

/-- After an advance that stopped partway the signature of the first query is not that of its rows,
and the second query still misses the issue after an advance that returns. -/
theorem not_signed_stoppedPartway :
    ¬ (PipelineDriver.afterAll issueDriver withoutIssues stoppedPartway).Signed issueDriver ∧
      ∃ changes driver', advance issueDriver withOneIssue (fun _ => 0)
        (PipelineDriver.afterAll issueDriver withoutIssues stoppedPartway) = .ok changes driver' ∧
          ¬ driver'.Current issueDriver := by
  rw [afterAll_stoppedPartway]
  refine ⟨fun hsigned => ?_, _, _, rfl, fun hcurrent => ?_⟩
  · obtain ⟨signature, hrows, hheld⟩ := hsigned "p" ⟨allIssues, heldIssue, ["issue"]⟩ rfl
    have hone : signatureForRows issueDriver heldIssue = .ok 1 := rfl
    cases hone.symm.trans hrows
    exact absurd hheld (by decide)
  · obtain ⟨found, hfound, hsame⟩ := hcurrent atFirst "q" ⟨allIssues, [], ["issue"]⟩ rfl rfl
    have hread : hydrateGraph issueDriver.env issueDriver.tableSpecs (issueDriver.sourceOf atFirst) allIssues =
        .ok heldIssue := rfl
    cases hread.symm.trans hfound
    exact absurd (hsame "issue:1") (by decide)

end ZeroCache.ViewSyncer
