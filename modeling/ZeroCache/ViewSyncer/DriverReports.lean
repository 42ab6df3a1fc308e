import ZeroCache.Lib.Overwrite
import ZeroCache.ViewSyncer.Driver

/-!
# What an advance reports

A driver reports the rows that were added, removed and edited. A client that writes each reported
row under its key, or drops it, follows the rows of a query: `advance_reports` says that the reports
of an advance turn the rows of every query into the rows held after it, provided that no direct
query loses a row again that was written in the same advance.
-/

namespace ZeroCache.ViewSyncer

open Sqlite Replica Zql Lib List Option Assoc PipelineDriver Prod DiffState Moves

/-- What a client does with a reported change: the row of its key is written or dropped. -/
def writeOf (env : Env) (change : PipelineRowChange) : String × Option Row :=
  (materializedKeyFor env change.table change.rowKey, if change.kind = .remove then none else some change.row)

/-- What a client does with the reported changes of a query. -/
def writesFor (env : Env) (queryId : String) (changes : List PipelineRowChange) : List (String × Option Row) :=
  (changes.filter (fun change => change.queryId = queryId)).map (writeOf env)

/-- The contents of rows, by key. -/
def rowsShown (rows : Fields MaterializedRow) : String → Option Row :=
  fun key => (rows.get? key).map MaterializedRow.row

/-- The contents of the rows of a query; a query that is not active has none. -/
def PipelineDriver.rowsOf (driver : PipelineDriver) (queryId : String) : String → Option Row :=
  rowsShown (((driver.pipelines.get? queryId).map Pipeline.rows).getD [])

/-- Every row is held under its own key. -/
def WellKeyed (env : Env) (rows : Fields MaterializedRow) : Prop :=
  ∀ key entry, rows.get? key = some entry → materializedKey env entry = key

/-- Every row of every query is held under its own key. -/
def PipelineDriver.WellKeyed (env : Env) (driver : PipelineDriver) : Prop :=
  ∀ queryId pipeline, driver.pipelines.get? queryId = some pipeline → ViewSyncer.WellKeyed env pipeline.rows

/-- No direct query loses a row again that was written in the same advance. -/
def PipelineDriver.KeepsWritten (cfg : DriverConfig) (driver : PipelineDriver) (diff : SnapshotDiff) : Prop :=
  ∀ queryId pipeline, driver.pipelines.get? queryId = some pipeline → isDirectIncrementalQuery pipeline.ast = true →
    ∀ spec, cfg.tableSpecs.get? pipeline.ast.table = some spec →
      Lib.KeepsWritten ((diff.rows.filter (fun change => change.table = pipeline.ast.table)).map
        (keyedChange cfg.env pipeline.ast spec))

variable {env : Env}

theorem writesFor_append (queryId : String) (changes changes' : List PipelineRowChange) :
    writesFor env queryId (changes ++ changes') = writesFor env queryId changes ++ writesFor env queryId changes' := by
  rw [writesFor, filter_append, map_append]
  rfl

variable {queryId : String}

variable {changes : List PipelineRowChange} {previous : Fields MaterializedRow} {advanced pipeline : Pipeline}

/-- The changes of one query are those of its own and none of another. -/
theorem writesFor_of_forall (h : ∀ change ∈ changes, change.queryId = queryId) (other : String) :
    writesFor env other changes = if other = queryId then changes.map (writeOf env) else [] := by
  rw [writesFor]
  by_cases hother : other = queryId
  · rw [if_pos hother, filter_eq_self.mpr (fun change hchange => by simpa [hother] using h change hchange)]
  · have hnone : changes.filter (fun change => change.queryId = other) = [] := by
      rw [filter_eq_nil_iff]
      intro change hchange
      rw [h change hchange]
      simpa using Ne.symm hother
    rw [if_neg hother, hnone]
    rfl

/-! ## Differences -/

variable {change : PipelineRowChange} {next held rows : Fields MaterializedRow} {ast : Ast}
  {emitted : List PipelineRowChange} {diff : SnapshotDiff} {elapsed : ℕ → ℚ}

theorem queryId_of_changeOf {old new : Option MaterializedRow}
    (h : changeOf queryId old new = some change) : change.queryId = queryId := by
  cases old with
  | none =>
    cases new with
    | none => cases h
    | some =>
      cases h
      rfl
  | some =>
    cases new with
    | none =>
      cases h
      rfl
    | some =>
      rw [changeOf] at h
      split at h
      · cases h
        rfl
      · cases h

/-- The change of a key is a write of that key, of what the new map shows there. -/
theorem writeOf_changeOf {key : String} (hprevious : WellKeyed env previous) (hnext : WellKeyed env next)
    (h : changeOf queryId (previous.get? key) (next.get? key) = some change) :
    writeOf env change = (key, rowsShown next key) := by
  cases hold : previous.get? key with
  | none =>
    cases hnew : next.get? key with
    | none =>
      rw [hold, hnew] at h
      cases h
    | some new =>
      rw [hold, hnew] at h
      cases h
      rw [rowsShown, hnew]
      exact Prod.ext (hnext key new hnew) rfl
  | some old =>
    cases hnew : next.get? key with
    | none =>
      rw [hold, hnew] at h
      cases h
      rw [rowsShown, hnew]
      exact Prod.ext (hprevious key old hold) rfl
    | some new =>
      rw [hold, hnew, changeOf] at h
      split at h
      · cases h
        rw [rowsShown, hnew]
        exact Prod.ext (hnext key new hnew) rfl
      · cases h

/-- A key without a change holds the same content in both maps. -/
theorem rowsShown_of_changeOf_none {key : String}
    (h : changeOf queryId (previous.get? key) (next.get? key) = none) : rowsShown previous key = rowsShown next key := by
  rw [rowsShown, rowsShown]
  cases hold : previous.get? key with
  | none =>
    cases hnew : next.get? key with
    | none => rfl
    | some =>
      rw [hold, hnew] at h
      cases h
  | some =>
    cases hnew : next.get? key with
    | none =>
      rw [hold, hnew] at h
      cases h
    | some =>
      rw [hold, hnew, changeOf] at h
      split at h
      · cases h
      · next hsame =>
        rw [not_not] at hsame
        rw [map_some, map_some, hsame]

/-- Writing the changes between two recorded maps turns one map into another, if the records of a
key are right or nothing can come of them. -/
theorem overwrite_diffRows {before after : Fields MaterializedRow}
    (hprevious : WellKeyed env previous) (hnext : WellKeyed env next)
    (h : ∀ key, (next.get? key = after.get? key ∧ (previous.get? key = before.get? key ∨
        (previous.get? key = none ∧ (after.get? key).isSome))) ∨
      (next.get? key = none ∧ previous.get? key = none ∧ after.get? key = before.get? key)) :
    overwrite (rowsShown before) ((diffRows queryId previous next).map (writeOf env)) = rowsShown after := by
  funext key
  have hnodup : (sortedKeys (previous.map fst ++ next.map fst)).Nodup := (sortedKeys_sorted _).imp ne_of_lt
  rw [diffRows, overwrite_filterMap hnodup
    (fun key _ change hchange => congrArg fst (writeOf_changeOf hprevious hnext hchange))]
  cases hchange : changeOf queryId (previous.get? key) (next.get? key) with
  | some =>
    have hmem : key ∈ sortedKeys (previous.map fst ++ next.map fst) :=
      mem_sortedKeys.mpr (mem_keys_of_changeOf (by rw [hchange]; rfl))
    rw [if_pos hmem, map_some, getD_some, writeOf_changeOf hprevious hnext hchange]
    rcases h key with ⟨hsame, -⟩ | ⟨hnone, hnone', -⟩
    · rw [rowsShown, rowsShown, hsame]
    · rw [hnone, hnone'] at hchange
      cases hchange
  | none =>
    have hunchanged : rowsShown before key = rowsShown after key := by
      rcases h key with ⟨hsame, hrecord | ⟨hnone, hsome⟩⟩ | ⟨-, -, hsame⟩
      · have hshown := rowsShown_of_changeOf_none hchange
        rwa [rowsShown, rowsShown, hrecord, hsame] at hshown
      · rw [hnone, hsame] at hchange
        obtain ⟨row, hrow⟩ := isSome_iff_exists.mp hsome
        rw [hrow] at hchange
        cases hchange
      · rw [rowsShown, rowsShown, hsame]
    rw [map_none, getD_none, ite_self, hunchanged]

/-! ## Direct queries -/

variable {specs : Fields SnapshotTableSpec}

/-- Without a specification of its table a query cannot be advanced over any row. -/
theorem foldlM_applyDirectChange_unknown (hspec : specs.get? ast.table = none) {changes : List SnapshotChange}
    (htable : ∀ change ∈ changes, change.table = ast.table) {s s' : DiffState String MaterializedRow}
    (h : changes.foldlM (applyDirectChange env ast specs) s = .ok s') : s' = s := by
  have hunknown : ∀ row, materializeSqlRow env ast specs ast.table row = .error (.unknownTable ast.table) := by
    intro row
    rw [materializeSqlRow, materializedRow, hspec]
  induction changes generalizing s with
  | nil =>
    cases h
    rfl
  | cons change rest ih =>
    obtain ⟨middle, hfirst, hrest⟩ := bind_ok h
    have hmiddle : middle = s := by
      rw [applyDirectChange, htable change mem_cons_self] at hfirst
      cases hprev : change.prevValues with
      | cons =>
        rw [hprev, foldlM_cons, removePrevValue, hunknown] at hfirst
        cases hfirst
      | nil =>
        rw [hprev] at hfirst
        cases hnext : change.nextValue with
        | none =>
          rw [hnext] at hfirst
          cases hfirst
          rfl
        | some =>
          rw [hnext] at hfirst
          obtain ⟨same, hsame, hinsert⟩ := bind_ok hfirst
          dsimp only at hinsert
          rw [insertNextValue, hunknown] at hinsert
          cases hinsert
    rw [hmiddle] at hrest
    exact ih (fun other hother => htable other (mem_cons_of_mem _ hother)) hrest

/-- A run of changes, the rows it holds and what it reports. -/
theorem applyDirectChanges_run {changes : List SnapshotChange}
    (h : applyDirectChanges env queryId pipeline changes specs = .ok (advanced, emitted)) :
    ∃ keyed, (keyed = [] ∨ ∃ spec, specs.get? pipeline.ast.table = some spec ∧
        keyed = (changes.filter (fun change => change.table = pipeline.ast.table)).map
          (keyedChange env pipeline.ast spec)) ∧
      advanced = { pipeline with rows := (run ⟨pipeline.rows, [], []⟩ keyed).rows } ∧
      emitted = diffRows queryId (run ⟨pipeline.rows, [], []⟩ keyed).previous
        ((run ⟨pipeline.rows, [], []⟩ keyed).affected.filterMap (fun key =>
          ((run ⟨pipeline.rows, [], []⟩ keyed).rows.get? key).map (fun row => (key, row)))) := by
  have htable : ∀ change ∈ changes.filter (fun change => change.table = pipeline.ast.table),
      change.table = pipeline.ast.table := fun change hchange => by simpa using (mem_filter.mp hchange).2
  obtain ⟨s, hs, hresult⟩ := bind_ok h
  cases hspec : specs.get? pipeline.ast.table with
  | none =>
    obtain rfl := foldlM_applyDirectChange_unknown hspec htable hs
    cases hresult
    exact ⟨[], .inl rfl, rfl, rfl⟩
  | some spec =>
    rw [foldlM_applyDirectChange hspec htable] at hs
    split at hs
    · cases hs
      cases hresult
      exact ⟨_, .inr ⟨spec, rfl, rfl⟩, rfl, rfl⟩
    · cases hs

theorem wellKeyed_keyedChange {spec : SnapshotTableSpec} {change : SnapshotChange} {key : String}
    {row : MaterializedRow} (h : (keyedChange env ast spec change).keptAt key = some row) :
    materializedKey env row = key := by
  have hwritten := keptAt_eq_some.mp h
  obtain ⟨value, -, hvalue⟩ := map_eq_some_iff.mp hwritten
  obtain ⟨hkey, hrow⟩ := mk.inj hvalue
  rw [(keptRow_eq_some.mp hrow).2] at hkey
  exact hkey

/-- A direct advance holds rows under their keys and reports what it changed, if it keeps what it
writes. -/
theorem applyDirectChanges_reports {changes : List SnapshotChange}
    (h : applyDirectChanges env queryId pipeline changes specs = .ok (advanced, emitted))
    (hkeyed : WellKeyed env pipeline.rows) : WellKeyed env advanced.rows ∧ advanced.ast = pipeline.ast ∧
      (∀ change ∈ emitted, change.queryId = queryId) ∧ ((∀ spec, specs.get? pipeline.ast.table = some spec →
          Lib.KeepsWritten ((changes.filter (fun change => change.table = pipeline.ast.table)).map
            (keyedChange env pipeline.ast spec))) →
        overwrite (rowsShown pipeline.rows) (emitted.map (writeOf env)) = rowsShown advanced.rows) := by
  obtain ⟨keyed, hcase, rfl, rfl⟩ := applyDirectChanges_run h
  have hwritten : ∀ change ∈ keyed, ∀ key row, change.keptAt key = some row → materializedKey env row = key := by
    intro change hchange key row hrow
    rcases hcase with rfl | ⟨spec, -, rfl⟩
    · cases hchange
    · obtain ⟨source, -, rfl⟩ := mem_map.mp hchange
      exact wellKeyed_keyedChange hrow
  obtain ⟨hrows, hprevious⟩ := run_forall (s := ⟨pipeline.rows, [], []⟩)
    (P := fun key row => materializedKey env row = key) hwritten hkeyed (fun key row h => by cases h)
  refine ⟨hrows, rfl, fun change hchange => ?_, fun hkeeps => ?_⟩
  · obtain ⟨key, hkey⟩ := mem_diffRows.mp hchange
    exact queryId_of_changeOf hkey
  · have hkept : Lib.KeepsWritten keyed := by
      rcases hcase with rfl | ⟨spec, hspec, rfl⟩
      · exact List.Pairwise.nil
      · exact hkeeps spec hspec
    refine overwrite_diffRows hprevious (fun key entry hentry => ?_) (fun key => ?_)
    · rw [get?_affected] at hentry
      split at hentry
      · exact hrows key entry hentry
      · cases hentry
    · rcases hkept.record pipeline.rows key with ⟨htouched, hrecord⟩ | ⟨huntouched, hnone, hsame⟩
      · exact .inl ⟨by rw [get?_affected, if_pos htouched], hrecord⟩
      · exact .inr ⟨by rw [get?_affected, if_neg huntouched], hnone, hsame⟩

/-! ## Hydrated rows -/

/-- Rows inserted one after another are held under their keys, and have what every row of a known
table has. -/
theorem foldlM_insertRow_forall {β : Type} {table : β → String} {row : β → Row} {P : String → MaterializedRow → Prop}
    (hrow : ∀ table row entry, materializedRow table row specs = .ok entry → P (materializedKey env entry) entry)
    {items : List β} {output : Fields MaterializedRow} (houtput : ∀ key entry, output.get? key = some entry → P key entry)
    (h : items.foldlM (fun output item => insertRow env (table item) (row item) specs output) output = .ok held) :
    ∀ key entry, held.get? key = some entry → P key entry := by
  induction items generalizing output with
  | nil =>
    cases h
    exact houtput
  | cons item rest ih =>
    rw [foldlM_cons] at h
    obtain ⟨middle, hfirst, hrest⟩ := bind_ok h
    refine ih (fun key other hother => ?_) hrest
    rw [insertRow] at hfirst
    cases hentry : materializedRow (table item) (row item) specs with
    | error =>
      rw [hentry] at hfirst
      cases hfirst
    | ok =>
      rw [hentry] at hfirst
      cases hfirst
      rw [get?_set] at hother
      split at hother
      · next hkey =>
        cases hother
        rw [hkey]
        exact hrow _ _ _ hentry
      · exact houtput key other hother

/-- What every row of a known table has, every hydrated row has. -/
theorem hydrateGraph_forall {source : Source} {P : String → MaterializedRow → Prop}
    (hrow : ∀ table row entry, materializedRow table row specs = .ok entry → P (materializedKey env entry) entry)
    (h : hydrateGraph env specs source ast = .ok rows) : ∀ key entry, rows.get? key = some entry → P key entry := by
  rw [hydrateGraph] at h
  split at h
  · cases h
  · split at h
    · cases h
    · rw [insertGraphNodes_eq] at h
      exact foldlM_insertRow_forall hrow (fun _ _ h => by cases h) h

theorem hydrateGraph_wellKeyed {source : Source}
    (h : hydrateGraph env specs source ast = .ok rows) : WellKeyed env rows :=
  hydrateGraph_forall (P := fun key entry => materializedKey env entry = key) (fun _ _ _ _ => rfl) h

/-! ## Calls -/

variable {cfg : DriverConfig}

theorem materializeRows_wellKeyed {rows : List Row}
    (h : materializeRows cfg ast rows = .ok held) : WellKeyed cfg.env held :=
  foldlM_insertRow_forall (P := fun key entry => materializedKey cfg.env entry = key) (fun _ _ _ _ => rfl)
    (fun _ _ h => by cases h) h

variable {driver : PipelineDriver}

theorem PipelineDriver.WellKeyed.hold (h : driver.WellKeyed cfg.env) (queryId : String)
    (hrows : ViewSyncer.WellKeyed cfg.env pipeline.rows) : (driver.hold queryId pipeline).WellKeyed cfg.env := by
  intro other held hheld
  rw [PipelineDriver.hold, get?_set] at hheld
  split at hheld
  · cases hheld
    exact hrows
  · exact h other held hheld

@[simp]
theorem rowsOf_hold (driver : PipelineDriver) (queryId other : String) (pipeline : Pipeline) :
    (driver.hold queryId pipeline).rowsOf other = if other = queryId then rowsShown pipeline.rows else driver.rowsOf other := by
  rw [rowsOf, hold, get?_set]
  split
  · rfl
  · rfl

theorem rowsOf_eq
    (h : driver.pipelines.get? queryId = some pipeline) : driver.rowsOf queryId = rowsShown pipeline.rows := by
  rw [rowsOf, h]
  rfl

variable {driver' : PipelineDriver}

/-- The rows of two states, compared by what they hold. -/
theorem rowsOf_congr (h : driver'.pipelines = driver.pipelines) : driver'.rowsOf = driver.rowsOf := by
  funext queryId
  rw [rowsOf, rowsOf, h]

/-- A query that advanced holds its rows under their keys and reports the changes of its own rows. -/
theorem AdvancedTo.reports (hkeyed : driver.WellKeyed cfg.env)
    (hpipeline : driver.pipelines.get? queryId = some pipeline)
    (h : AdvancedTo cfg diff driver queryId pipeline advanced changes) :
    WellKeyed cfg.env advanced.rows ∧ advanced.ast = pipeline.ast ∧ (∀ change ∈ changes, change.queryId = queryId) ∧
      (driver.KeepsWritten cfg diff →
        overwrite (rowsShown pipeline.rows) (changes.map (writeOf cfg.env)) = rowsShown advanced.rows) := by
  have hrows := hkeyed queryId pipeline hpipeline
  rcases h with ⟨hdirect, hadvanced⟩ | ⟨-, snapshot, next, -, hnext, rfl, rfl⟩
  · obtain ⟨hwell, hast, hids, hwrites⟩ := applyDirectChanges_reports hadvanced hrows
    exact ⟨hwell, hast, hids, fun hkeeps => hwrites (hkeeps queryId pipeline hpipeline hdirect)⟩
  · have hwell := hydrateGraph_wellKeyed hnext
    refine ⟨hwell, rfl, fun change hchange => ?_, fun _ => ?_⟩
    · obtain ⟨key, hkey⟩ := mem_diffRows.mp hchange
      exact queryId_of_changeOf hkey
    · exact overwrite_diffRows hrows hwell (fun key => .inl ⟨rfl, .inl rfl⟩)

/-- Whether a row is kept that a direct query writes depends on the queries alone. -/
theorem KeepsWritten_hold (h : driver.KeepsWritten cfg diff)
    (hpipeline : driver.pipelines.get? queryId = some pipeline)
    (hast : advanced.ast = pipeline.ast) : (driver.hold queryId advanced).KeepsWritten cfg diff := by
  intro other held hheld hdirect
  rw [hold, get?_set] at hheld
  split at hheld
  · cases hheld
    rw [hast] at hdirect ⊢
    exact h queryId pipeline hpipeline hdirect
  · exact h other held hheld hdirect

/-- Queries advanced one after another report the changes of the rows of every query. -/
theorem advanceQueries_reports {total : ℚ} {units pos : ℕ}
    {queries : List String} (hkeyed : driver.WellKeyed cfg.env) (hkeeps : driver.KeepsWritten cfg diff)
    (h : advanceQueries cfg diff elapsed total units pos queries driver = .ok changes driver') (queryId : String) :
    driver'.rowsOf queryId = overwrite (driver.rowsOf queryId) (writesFor cfg.env queryId changes) := by
  induction queries generalizing pos driver changes with
  | nil =>
    cases h
    rfl
  | cons first rest ih =>
    rw [advanceQueries] at h
    split at h
    · cases h
    · rcases advanceQuery_run cfg diff first driver with
        ⟨pipeline, advanced, reported, hpipeline, hadvanced, hrun⟩ | ⟨e, failed, hrun, -⟩
      · rw [bind_run hrun] at h
        simp only [Bind.bind, EStateM.bind] at h
        cases hrest : advanceQueries cfg diff elapsed total units (pos + 1) rest (driver.hold first advanced) with
        | error =>
          rw [hrest] at h
          cases h
        | ok =>
          rw [hrest] at h
          cases h
          obtain ⟨hwell, hast, hids, hwrites⟩ := hadvanced.reports hkeyed hpipeline
          have hlater := ih (hkeyed.hold first hwell) (KeepsWritten_hold hkeeps hpipeline hast) hrest
          rw [hlater, writesFor_append, overwrite_append, rowsOf_hold, writesFor_of_forall hids]
          by_cases hfirst : queryId = first
          · rw [if_pos hfirst, if_pos hfirst, hfirst, rowsOf_eq hpipeline, hwrites hkeeps]
          · rw [if_neg hfirst, if_neg hfirst, overwrite_nil]
      · simp only [Bind.bind, EStateM.bind, hrun] at h
        cases h

/-- Two states that hold the same rows. -/
def SamePipelines (driver driver' : PipelineDriver) : Prop := driver'.pipelines = driver.pipelines

instance : IsPreorder PipelineDriver SamePipelines where
  refl _ := rfl
  trans _ _ _ h h' := Eq.trans h' h

theorem applySignatureChange_samePipelines (cfg : DriverConfig) (change : PipelineRowChange) :
    Moves SamePipelines (applySignatureChange cfg change) := by
  exact ite (pure _) (bind (check _) (fun share => modify (fun driver => rfl)))

/-- The reports of an advance that returns turn the rows of every query into the rows held after it,
provided no direct query loses a row it has just written. -/
theorem advance_reports {head : ReplicaFile} (hkeyed : driver.WellKeyed cfg.env)
    (hkeeps : ∀ prev diff, driver.current = some prev →
      materializeDiff cfg.env prev (Snapshot.create cfg.appId head) cfg.tableSpecs cfg.allTableNames = .ok diff →
        driver.KeepsWritten cfg diff)
    (h : advance cfg head elapsed driver = .ok changes driver') (queryId : String) :
    driver'.rowsOf queryId = overwrite (driver.rowsOf queryId) (writesFor cfg.env queryId changes) := by
  obtain ⟨prev, diff, advanced, total, hcurrent, hdiff, hadvance, hsign⟩ := advance_ok cfg h
  have hsame := forM (applySignatureChange_samePipelines cfg) changes advanced
  rw [finalState, hsign] at hsame
  have hmoved : PipelineDriver.WellKeyed cfg.env { driver with current := some (Snapshot.create cfg.appId head) } := hkeyed
  rw [rowsOf_congr hsame]
  exact advanceQueries_reports hmoved (hkeeps prev diff hcurrent hdiff) hadvance queryId

/-! ## Keys through calls -/

/-- Calls that keep every row under its own key. -/
def KeepsKeys (env : Env) (driver driver' : PipelineDriver) : Prop := driver.WellKeyed env → driver'.WellKeyed env

instance (env : Env) : IsPreorder PipelineDriver (KeepsKeys env) where
  refl _ := id
  trans _ _ _ h h' := h' ∘ h

theorem keepsKeys_of_samePipelines (h : driver'.pipelines = driver.pipelines) : KeepsKeys env driver driver' := by
  intro hkeyed queryId pipeline hpipeline
  rw [h] at hpipeline
  exact hkeyed queryId pipeline hpipeline

theorem advanceQuery_keepsKeys (diff : SnapshotDiff) (queryId : String) :
    Moves (KeepsKeys cfg.env) (advanceQuery cfg diff queryId) := by
  intro driver hkeyed
  rw [finalState]
  rcases advanceQuery_run cfg diff queryId driver with
    ⟨pipeline, advanced, changes, hpipeline, hadvanced, hrun⟩ | ⟨e, failed, hrun, hkept⟩
  · rw [hrun]
    exact hkeyed.hold queryId (hadvanced.reports hkeyed hpipeline).1
  · rw [hrun]
    exact keepsKeys_of_samePipelines hkept hkeyed

theorem advance_keepsKeys (cfg : DriverConfig) (head : ReplicaFile) (elapsed : ℕ → ℚ) :
    Moves (KeepsKeys cfg.env) (advance cfg head elapsed) := by
  refine advance_moves cfg (fun driver _ => keepsKeys_of_samePipelines rfl) advanceQuery_keepsKeys
    (fun change driver => keepsKeys_of_samePipelines ?_) head elapsed
  exact applySignatureChange_samePipelines cfg change driver

end ZeroCache.ViewSyncer
