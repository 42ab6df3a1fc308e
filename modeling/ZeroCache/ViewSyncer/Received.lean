import ZeroCache.ViewSyncer.Cvr

/-!
# Rows received for a query

When a query is executed, its rows are merged into the record of the group: their counts are added
to those they have, rows of the query that were not received lose its count, and each change is
turned into a patch for the clients (`cvr_row_received.rs`, `cvr_delete_unreferenced_rows.rs`,
`query_hydration.rs`). Rows are keyed by a text here. `none` is a panic: a row may only be patched at
a version after the one the transition started from.
-/

namespace ZeroCache.ViewSyncer

open Option CvrVersion

/-! ## Reference counts -/

/-- Add up counts, without those of removed queries; a count of zero is dropped. -/
def addCounts (removed : List String) (merged counts : RefCounts) : RefCounts :=
  counts.foldl (fun merged entry =>
    if entry.1 ∈ removed then merged
    else if (merged.get? entry.1).getD 0 + entry.2 = 0 then merged.erase entry.1
    else merged.set entry.1 ((merged.get? entry.1).getD 0 + entry.2)) merged

/-- Merge received counts into existing ones; nothing is left without a positive count. -/
def mergeRefCounts (existing received : Option RefCounts) (removed : List String) : Option RefCounts :=
  let merged := match existing with
    | none => received.getD []
    | some existing => addCounts [] (addCounts removed [] existing) (received.getD [])
  if merged.any (fun entry => 0 < entry.2) then some merged else none

/-! ## One received row -/

/-- What is recorded of a row before it is received. -/
structure ExistingRow where
  rowVersion : String
  patchVersion : CvrVersion
  refCounts : Option RefCounts

/-- A received row. -/
structure RowUpdateInput where
  version : Option String
  hasContents : Bool
  refCounts : Option RefCounts

/-- What is written to the row records. -/
inductive RowStoreWrite where
  | put (rowVersion : String) (patchVersion : CvrVersion) (refCounts : Option RefCounts)
  | delete

/-- What clients are told of a row. -/
inductive RowClientPatch where
  | del (toVersion : CvrVersion)
  | put (toVersion : CvrVersion)

/-- What clients were last told of a row. -/
structure LastPatchInfo where
  rowVersion : Option String
  toVersion : CvrVersion

/-- The effects of a received row. -/
structure RowOutcome where
  storeWrite : RowStoreWrite
  clientPatch : Option RowClientPatch

/-- The rows received so far, with their merged counts, and what clients were told of them. -/
structure Received where
  rows : Fields (Option RefCounts)
  lastPatches : Fields LastPatchInfo

/-- The current version, if it is after the original one (`assert_new_version`). -/
def assertNewVersion (orig current : CvrVersion) : Option CvrVersion :=
  if orig.lt current then some current else none

/-- The version a row is patched at: the recorded one if the row has not changed. -/
def patchVersionOf (existing : Option ExistingRow) (newRowVersion : Option String) (orig current : CvrVersion) :
    Option CvrVersion :=
  match existing with
  | some row => if some row.rowVersion = newRowVersion then some row.patchVersion else assertNewVersion orig current
  | none => assertNewVersion orig current

/-- What clients are told of a row, unless they have been told already. -/
def clientPatchOf (known : Bool) (merged : Option RefCounts) (hasContents : Bool) (rowVersion : Option String)
    (toVersion : CvrVersion) (lastPatch : Option LastPatchInfo) :
    Option (Option (RowClientPatch × LastPatchInfo)) :=
  if merged.isNone then
    if known ∧ lastPatch.map LastPatchInfo.rowVersion ≠ some none then
      some (some (.del toVersion, ⟨none, toVersion⟩))
    else some none
  else if hasContents then
    -- Contents without a version are a panic.
    rowVersion.map (fun version =>
      if (lastPatch.bind LastPatchInfo.rowVersion).all (fun previous => previous < version) then
        some (.put toVersion, ⟨some version, toVersion⟩)
      else none)
  else some none

/-- The counts of a received row: they are added to those it was received with before, and only the
first time to the recorded ones. -/
def mergedCounts (previous : Option (Option RefCounts)) (existing : Option ExistingRow) (update : RowUpdateInput)
    (removed : List String) : Option RefCounts :=
  match previous with
  | some previous => mergeRefCounts previous update.refCounts []
  | none => mergeRefCounts (existing.bind ExistingRow.refCounts) update.refCounts removed

/-- Receive a row. -/
def processReceivedRow (id : String) (existing : Option ExistingRow) (update : RowUpdateInput)
    (removed : List String) (orig current : CvrVersion) (received : Received) : Option (RowOutcome × Received) := do
  let merged := mergedCounts (received.rows.get? id) existing update removed
  let patchVersion ← patchVersionOf existing (if merged.isNone then none else update.version) orig current
  let rowVersion := update.version.or (existing.map ExistingRow.rowVersion)
  let storeWrite := match rowVersion with
    | some version => .put version patchVersion merged
    | none => .delete
  let lastPatch := received.lastPatches.get? id
  let told ← clientPatchOf (existing.isSome || (received.rows.get? id).isSome) merged update.hasContents rowVersion
    (patchVersion.maxVersion (lastPatch.map LastPatchInfo.toVersion)) lastPatch
  return ({ storeWrite := storeWrite, clientPatch := told.map Prod.fst },
    { rows := received.rows.set id merged
      lastPatches := told.elim received.lastPatches (fun entry => received.lastPatches.set id entry.2) })

/-! ## Rows that were not received -/

/-- A row record to write. -/
structure RowRecordWrite where
  id : String
  rowVersion : String
  patchVersion : CvrVersion
  refCounts : Option RefCounts

/-- Drop the counts of executed queries from a row that was not received. -/
def deleteUnreferencedRow (id : String) (existing : ExistingRow) (received : Received) (executed : List String)
    (orig current : CvrVersion) : Option (Option RowRecordWrite) :=
  match received.rows.get? id with
  | some (some _) => some none
  | _ =>
    let refCounts := mergeRefCounts existing.refCounts none executed
    (if refCounts.isSome then some existing.patchVersion else assertNewVersion orig current).map
      (fun patchVersion => some ⟨id, existing.rowVersion, patchVersion, refCounts⟩)

/-- What the rows that were not received lead to, and what clients were told afterwards. -/
structure DeletionResult where
  rowWrites : List RowRecordWrite
  patches : List (String × CvrVersion)
  lastPatches : Fields LastPatchInfo

/-- Handle one row that may not have been received. -/
def deleteStep (received : Received) (executed : List String) (orig current : CvrVersion) (result : DeletionResult)
    (row : String × ExistingRow) : Option DeletionResult := do
  match ← deleteUnreferencedRow row.1 row.2 received executed orig current with
  | none => return result
  | some write =>
    let lastPatch := result.lastPatches.get? row.1
    if write.refCounts.isSome ∨ lastPatch.map LastPatchInfo.rowVersion = some none then
      return { result with rowWrites := result.rowWrites ++ [write] }
    else
      let toVersion := current.maxVersion (lastPatch.map LastPatchInfo.toVersion)
      return { rowWrites := result.rowWrites ++ [write]
               patches := result.patches ++ [(row.1, toVersion)]
               lastPatches := result.lastPatches.set row.1 ⟨none, toVersion⟩ }

/-- Drop the counts of executed queries from the rows that were not received. -/
def deleteUnreferencedRows (existing : List (String × ExistingRow)) (received : Received) (executed : List String)
    (orig current : CvrVersion) : Option DeletionResult :=
  if executed.isEmpty then
    if received.rows.isEmpty then some ⟨[], [], received.lastPatches⟩ else none
  else
    existing.foldlM (deleteStep received executed orig current) ⟨[], [], received.lastPatches⟩

/-! ## Executing a query -/

/-- Note that a query has been executed; clients are told when they get it for the first time
(`track_executed`). -/
def trackExecuted (cvr : Cvr) (orig : CvrVersion) (tracked : List String) (queryId transformationHash : String) :
    Cvr × List String × List QueryPatch :=
  if queryId ∈ tracked then (cvr, tracked, [])
  else
    match cvr.queries.get? queryId with
    | none => (cvr, queryId :: tracked, [])
    | some query =>
      if query.transformationHash = some transformationHash then (cvr, queryId :: tracked, [])
      else
        let version := orig.ensureNewVersion cvr.version
        let isNew := query.patchVersion.isNone && !query.isInternal
        let query := { query with
          transformationHash := some transformationHash
          transformationVersion := some version
          patchVersion := if isNew then some version else query.patchVersion }
        ({ cvr with version := version, queries := cvr.queries.set queryId query }, queryId :: tracked,
          if isNew then [⟨.put, queryId, none⟩] else [])

/-- How the rows of a query are identified. -/
structure RowIdentity where
  rowKey : Row → String
  rowRefCounts : RefCounts
  rowVersion : Row → String
  wireRowId : String → RowId

/-- A row as it is received. -/
def RowIdentity.update (identity : RowIdentity) (row : Row) : RowUpdateInput :=
  ⟨some (identity.rowVersion row), true, some identity.rowRefCounts⟩

/-- Receive rows one after another. -/
def receiveRows (identity : RowIdentity) (existing : Fields ExistingRow) (orig current : CvrVersion) :
    List Row → Received → Option (List (String × RowOutcome) × Received)
  | [], received => some ([], received)
  | row :: rest, received => do
    let key := identity.rowKey row
    let (outcome, received) ← processReceivedRow key (existing.get? key) (identity.update row) [] orig current received
    let (outcomes, received) ← receiveRows identity existing orig current rest received
    return ((key, outcome) :: outcomes, received)

/-- What receiving the rows of a query led to. -/
structure HydrationResult where
  queryPatches : List QueryPatch
  rowOutcomes : List (String × RowOutcome)
  deletedRowPatches : List (String × CvrVersion)
  deletionRowWrites : List RowRecordWrite
  fetchedRows : Fields Row

/-- Rows with their keys. -/
def keyed (identity : RowIdentity) (rows : List Row) : List (String × Row) :=
  rows.map (fun row => (identity.rowKey row, row))

/-- Execute a query on the rows fetched for it. -/
def hydrateQueryFromRows (identity : RowIdentity) (cvr : Cvr) (orig : CvrVersion) (tracked : List String)
    (queryId transformationHash : String) (rows : List Row) (existing : Fields ExistingRow)
    (forDeletion : List (String × ExistingRow)) : Option (HydrationResult × Cvr × List String) := do
  let (cvr, tracked, queryPatches) := trackExecuted cvr orig tracked queryId transformationHash
  let cvr := { cvr with version := orig.ensureNewVersion cvr.version }
  let (outcomes, received) ← receiveRows identity existing orig cvr.version rows ⟨[], []⟩
  let deletion ← deleteUnreferencedRows forDeletion received [queryId] orig cvr.version
  return (⟨queryPatches, outcomes, deletion.patches, deletion.rowWrites, keyed identity rows⟩, cvr, tracked)

/-- The patches of executing a query; a row is put with the contents of the first row of its key. -/
def hydrationToPatches (identity : RowIdentity) (result : HydrationResult) (version : CvrVersion) :
    List PatchToVersion :=
  result.queryPatches.map (fun patch => ⟨.config patch, version⟩) ++
    result.rowOutcomes.filterMap (fun entry => match entry.2.clientPatch with
      | none => none
      | some (.put toVersion) => (result.fetchedRows.get? entry.1).map
          (fun row => ⟨.putRow (identity.wireRowId entry.1) row, toVersion⟩)
      | some (.del toVersion) => some ⟨.deleteRow (identity.wireRowId entry.1), toVersion⟩) ++
    result.deletedRowPatches.map (fun entry => ⟨.deleteRow (identity.wireRowId entry.1), entry.2⟩)

/-- The updates of the row records that executing a query leads to. -/
def hydrationRowUpdates (identity : RowIdentity) (result : HydrationResult) : List (RowId × Option RowRecord) :=
  result.rowOutcomes.map (fun entry => match entry.2.storeWrite with
    | .put rowVersion patchVersion refCounts =>
      (identity.wireRowId entry.1, some ⟨patchVersion, identity.wireRowId entry.1, rowVersion, refCounts⟩)
    | .delete => (identity.wireRowId entry.1, none)) ++
    result.deletionRowWrites.map (fun write =>
      (identity.wireRowId write.id, some ⟨write.patchVersion, identity.wireRowId write.id, write.rowVersion,
        write.refCounts⟩))

/-! ## Receiving rows at a new version -/

theorem clientPatchOf_returns (known : Bool) (merged : Option RefCounts) (hasContents : Bool) (version : String)
    (toVersion : CvrVersion) (lastPatch : Option LastPatchInfo) :
    ∃ told, clientPatchOf known merged hasContents (some version) toVersion lastPatch = some told := by
  unfold clientPatchOf
  split_ifs
  · exact ⟨_, rfl⟩
  · exact ⟨_, rfl⟩
  · exact ⟨_, rfl⟩
  · exact ⟨_, rfl⟩

section Returns

variable {orig current : CvrVersion} (h : orig.lt current = true)
include h

theorem assertNewVersion_of_lt : assertNewVersion orig current = some current := if_pos h

theorem patchVersionOf_returns (existing : Option ExistingRow) (newRowVersion : Option String) :
    ∃ patchVersion, patchVersionOf existing newRowVersion orig current = some patchVersion := by
  unfold patchVersionOf
  rw [assertNewVersion_of_lt h]
  split
  · split
    · exact ⟨_, rfl⟩
    · exact ⟨_, rfl⟩
  · exact ⟨_, rfl⟩

/-- A row with a version is received at a new version: it is written with its merged counts. -/
theorem processReceivedRow_spec (id : String) (existing : Option ExistingRow) {update : RowUpdateInput}
    {version : String} (hversion : update.version = some version) (removed : List String) (received : Received) :
    ∃ patchVersion clientPatch lastPatches, processReceivedRow id existing update removed orig current received =
        some (⟨.put version patchVersion (mergedCounts (received.rows.get? id) existing update removed), clientPatch⟩,
          ⟨received.rows.set id (mergedCounts (received.rows.get? id) existing update removed), lastPatches⟩) := by
  obtain ⟨patchVersion, hpatch⟩ := patchVersionOf_returns h existing
    (if (mergedCounts (received.rows.get? id) existing update removed).isNone then none else some version)
  obtain ⟨told, htold⟩ := clientPatchOf_returns
    (existing.isSome || (received.rows.get? id).isSome) (mergedCounts (received.rows.get? id) existing update removed)
    update.hasContents version
    (patchVersion.maxVersion ((received.lastPatches.get? id).map LastPatchInfo.toVersion)) (received.lastPatches.get? id)
  refine ⟨patchVersion, told.map Prod.fst,
    told.elim received.lastPatches (fun entry => received.lastPatches.set id entry.2), ?_⟩
  simp only [processReceivedRow, hversion, some_or, hpatch, bind_eq_bind, bind_some, htold]
  rfl

theorem receiveRows_returns (identity : RowIdentity) (existing : Fields ExistingRow) (rows : List Row)
    (received : Received) : ∃ result, receiveRows identity existing orig current rows received = some result := by
  induction rows generalizing received with
  | nil => exact ⟨_, rfl⟩
  | cons row rest ih =>
    obtain ⟨patchVersion, clientPatch, lastPatches, houtcome⟩ := processReceivedRow_spec h (identity.rowKey row)
      (existing.get? (identity.rowKey row)) (show (identity.update row).version = _ from rfl) [] received
    obtain ⟨⟨outcomes, received'⟩, hrest⟩ := ih ⟨received.rows.set (identity.rowKey row) (mergedCounts
      (received.rows.get? (identity.rowKey row)) (existing.get? (identity.rowKey row)) (identity.update row) []),
      lastPatches⟩
    exact ⟨_, by simp only [receiveRows, houtcome, bind_eq_bind, bind_some, hrest]; rfl⟩

theorem deleteUnreferencedRow_returns (id : String) (existing : ExistingRow) (received : Received)
    (executed : List String) :
    ∃ write, deleteUnreferencedRow id existing received executed orig current = some write := by
  unfold deleteUnreferencedRow
  rw [assertNewVersion_of_lt h]
  split
  · exact ⟨_, rfl⟩
  · simp only
    split
    · exact ⟨_, rfl⟩
    · exact ⟨_, rfl⟩

theorem deleteUnreferencedRows_returns (existing : List (String × ExistingRow)) (received : Received)
    {executed : List String} (hexecuted : executed ≠ []) :
    ∃ result, deleteUnreferencedRows existing received executed orig current = some result := by
  have hsteps : ∀ result, ∃ after, existing.foldlM (deleteStep received executed orig current) result = some after := by
    induction existing with
    | nil => exact fun result => ⟨result, rfl⟩
    | cons row rest ih =>
      intro result
      have hstep : ∃ after, deleteStep received executed orig current result row = some after := by
        obtain ⟨write, hwrite⟩ := deleteUnreferencedRow_returns h row.1 row.2 received executed
        simp only [deleteStep, hwrite, bind_eq_bind, bind_some]
        cases write with
        | none => exact ⟨_, rfl⟩
        | some =>
          simp only
          split
          · exact ⟨_, rfl⟩
          · exact ⟨_, rfl⟩
      obtain ⟨after, hafter⟩ := hstep
      obtain ⟨last, hlast⟩ := ih after
      exact ⟨last, by rw [List.foldlM_cons, hafter]; exact hlast⟩
  rw [deleteUnreferencedRows, if_neg (by simpa using hexecuted)]
  exact hsteps _

end Returns

theorem trackExecuted_version (cvr : Cvr) (orig : CvrVersion) (tracked : List String)
    (queryId transformationHash : String) :
    (trackExecuted cvr orig tracked queryId transformationHash).1.version = cvr.version ∨
      (trackExecuted cvr orig tracked queryId transformationHash).1.version = orig.ensureNewVersion cvr.version := by
  unfold trackExecuted
  split
  · exact .inl rfl
  · split
    · exact .inl rfl
    · split
      · exact .inl rfl
      · exact .inr rfl

/-- A query can be executed when the version is not before the original one. -/
theorem hydrateQueryFromRows_returns (identity : RowIdentity) {cvr : Cvr} {orig : CvrVersion}
    (h : cvr.version.lt orig = false) (tracked : List String) (queryId transformationHash : String) (rows : List Row)
    (existing : Fields ExistingRow) (forDeletion : List (String × ExistingRow)) :
    ∃ result cvr' tracked', hydrateQueryFromRows identity cvr orig tracked queryId transformationHash rows existing
      forDeletion = some (result, cvr', tracked') ∧ orig.lt cvr'.version = true := by
  rcases htrack : trackExecuted cvr orig tracked queryId transformationHash with ⟨cvr', tracked', queryPatches⟩
  have htracked : cvr'.version.lt orig = false := by
    have hversion := trackExecuted_version cvr orig tracked queryId transformationHash
    rw [htrack] at hversion
    rcases hversion with hsame | hnew
    · rwa [hsame]
    · rw [hnew]
      exact not_lt_of_lt (lt_ensureNewVersion h)
  have hlt := lt_ensureNewVersion htracked
  obtain ⟨⟨outcomes, received⟩, hreceive⟩ := receiveRows_returns hlt identity existing rows ⟨[], []⟩
  obtain ⟨deletion, hdelete⟩ := deleteUnreferencedRows_returns hlt forDeletion received
    (List.cons_ne_nil queryId [])
  refine ⟨⟨queryPatches, outcomes, deletion.patches, deletion.rowWrites, keyed identity rows⟩,
    { cvr' with version := orig.ensureNewVersion cvr'.version }, tracked', ?_, hlt⟩
  simp only [hydrateQueryFromRows, htrack, bind_eq_bind, hreceive, bind_some, hdelete, pure_def]

end ZeroCache.ViewSyncer
