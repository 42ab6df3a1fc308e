import ZeroCache.Replica.Apply

/-!
# The change dispatcher

The begin, apply, commit and rollback calls of `change_dispatcher.rs` with the specification
caches they keep. A change is routed to the row or schema applier; what the whole of `apply` may
change is the frame `Within` of the single statements.
-/

namespace ZeroCache.Replica

open Sqlite Lib Within Moves

/-- A relation of the change stream, with its row key. -/
structure Relation where
  schema : String
  name : String
  keyColumns : List String
  keyKind : Option RowKeyKind
  deriving DecidableEq, Repr

/-- A schema-qualified name. -/
structure Identifier where
  schema : String
  name : String
  deriving DecidableEq, Repr

/-- Upstream metadata of a table. -/
structure TableMetadata where
  rowKey : Fields JsonValue
  extra : Fields JsonValue
  deriving DecidableEq

/-- A change of the change stream (`data.rs`); a backfill id is a map of JSON values. -/
inductive Change where
  | begin
  | commit
  | rollback
  | insert (relation : Relation) (new : Row)
  | update (relation : Relation) (key : Option Row) (new : Row)
  | delete (relation : Relation) (key : Row)
  | truncate (relations : List Relation)
  | backfill (relation : Relation) (columns : List String) (watermark : String)
      (rowValues : List (List JsonValue))
  | createTable (spec : TableSpec) (metadata : Option TableMetadata)
      (backfill : Option (Fields (Fields JsonValue)))
  | renameTable (old new : Identifier)
  | updateTableMetadata (table : Identifier) (new : TableMetadata)
  | addColumn (table : Identifier) (column : String) (spec : ColumnSpec)
      (metadata : Option TableMetadata) (backfill : Option (Fields JsonValue))
  | updateColumn (table : Identifier) (old : String) (oldSpec : ColumnSpec) (new : String)
      (newSpec : ColumnSpec)
  | dropColumn (table : Identifier) (column : String)
  | dropTable (id : Identifier)
  | createIndex (spec : IndexSpec)
  | dropIndex (id : Identifier)
  | backfillCompleted (relation : Relation) (columns : List String) (status : Option DownloadStatus)

/-! ## Specification caches -/

/-- Names `list_tables` hides: `LIKE` patterns, in which an underscore is any character. -/
def hiddenTable (name : String) : Bool :=
  let chars := (lowercase name).toList
  (chars.take 6 == "sqlite".toList && 7 ≤ chars.length) ||
    ((chars.drop 1).take 5 == "zero.".toList) ||
    ((chars.drop 1).take 10 == "litestream".toList && 12 ≤ chars.length)

/-- The order in which unique indexes are considered as a row identity. -/
def identityIndexLe (table : String) (a b : Index) : Bool :=
  let primary := fun i : Index => i.name == table ++ "_pkey" || "_pkey".toList.isSuffixOf i.name.toList
  if primary a != primary b then primary a
  else if a.columns.length ≠ b.columns.length then a.columns.length ≤ b.columns.length
  else a.name ≤ b.name

/-- The row identity of a table: its declared primary key, or its first unique index. -/
def rowIdentity (db : Database) (t : Table) : Option (List String) :=
  if t.primaryKey.isEmpty then
    let candidates := db.indexes.filter (fun i => i.tableName == t.name && i.unique && !i.columns.isEmpty)
    (candidates.insertionSort (fun a b => identityIndexLe t.name a b)).head?.map
      (fun i => i.columns.map Prod.fst)
  else some t.primaryKey

/-- The specification of a table as introspection of the database gives it. -/
def liteTableSpec (db : Database) (t : Table) : LiteTableSpec :=
  { name := t.name
    columns := t.columns.zipIdx.map (fun (c, i) => (c.name,
      { pos := i + 1, dataType := c.declType, pgTypeClass := none,
        elemPgTypeClass := if isArray c.declType then
          some (if isEnum c.declType then .enum else .base) else none,
        characterMaximumLength := none, notNull := some c.notNull, dflt := c.dflt }))
    primaryKey := rowIdentity db t }

/-- The specifications of all user tables, columns under backfill included. -/
def loadTableSpecs (file : ReplicaFile) : Fields LiteTableSpec :=
  (file.database.tables.filter (fun t => !hiddenTable t.name)).map
    (fun t => (t.name, liteTableSpec file.database t))

/-- The columns under backfill of each table that has one, by name. -/
def loadBackfillingColumns (file : ReplicaFile) (specs : Fields LiteTableSpec) : Fields (List String) :=
  (specs.map (fun entry => (entry.1,
    ((file.columnMetadata.filter (fun row => row.tableName == entry.1 && row.backfill.isSome)).map
      ColumnMetadataRow.columnName).insertionSort (· ≤ ·)))).filter (fun entry => !entry.2.isEmpty)

/-- A dispatcher over a replica file. -/
def Dispatcher.new (file : ReplicaFile) : Dispatcher :=
  let specs := loadTableSpecs file
  { committed := file, replica := file, tableSpecs := specs,
    backfillingColumns := loadBackfillingColumns file specs, inTransaction := false, version := "",
    pos := 0, schemaChanged := false, numChangeLogEntries := 0, completedBackfill := none }

/-- Reload both caches from the replica. -/
def reloadTableSpecs : Apply Unit :=
  modify (fun s =>
    let specs := loadTableSpecs s.replica
    { s with tableSpecs := specs, backfillingColumns := loadBackfillingColumns s.replica specs })

/-- The cached specification of a table. -/
def tableSpec (name : String) : Apply LiteTableSpec := do
  match (← get).tableSpecs.get? name with
  | some spec => return spec
  | none => throw (.unknownTable name)

/-- The columns under backfill that a row sets; `none` when the table has no backfill. -/
def backfilledColumnsForRow (table : String) (row : Fields LiteValue) : Apply (Option (List String)) := do
  return ((← get).backfillingColumns.get? table).map (fun columns =>
    columns.filter (fun column => row.any (fun entry => entry.1 == column)))

/-- Whether every upstream column of a table is under backfill. -/
def tableIsFullyBackfilling (table : String) : Apply Bool := do
  let spec ← tableSpec table
  let sourceColumns := (spec.columns.filter (fun c => c.1 != zeroVersionColumnName)).length
  return (((← get).backfillingColumns.get? table).map List.length).getD 0 == sourceColumns

/-- Count logged entries. -/
def countEntries (n : ℤ) : Apply Unit :=
  modify (fun s => { s with numChangeLogEntries := s.numChangeLogEntries + n })

/-- Mark the transaction as one that changed the schema. -/
def markSchemaChanged : Apply Unit := modify (fun s => { s with schemaChanged := true })

/-- The JSON object of a table's metadata. -/
def tableMetadataJson (metadata : TableMetadata) : JsonValue := .object (metadata.rowKey ++ metadata.extra)

/-- Store the upstream metadata of a table when there is some. -/
def storeUpstreamMetadata (schema name : String) (metadata : Option TableMetadata) : Apply Unit :=
  match metadata with
  | some m => onTableMetadata (fun rows _ => .ok (setUpstreamMetadata rows schema name (tableMetadataJson m)))
  | none => pure ()

variable (env : Env)

/-! ## Backfill -/

/-- The check of the declared columns of a backfill: none twice and none unknown. -/
def checkBackfillColumns (table : String) (spec : LiteTableSpec) :
    List String → List String → Except DispatchError Unit
  | _, [] => .ok ()
  | seen, column :: rest =>
    if seen.contains column then
      .error (.invalidBackfill table ("column \"" ++ column ++ "\" appears more than once"))
    else if (spec.columns.get? column).isNone then
      .error (.invalidBackfill table ("unknown column \"" ++ column ++ "\""))
    else checkBackfillColumns table spec (column :: seen) rest

/-- The columns a backfill row may write: those without a later live write. -/
def backfillUpdates (latest : Option ChangeLogEntry) (columns : List String) (watermark : String) :
    List String :=
  match latest with
  | some entry =>
    if entry.op = .set then
      columns.filter (fun column => ((entry.backfillingColumnVersions.get? column).getD "") ≤ watermark)
    else columns
  | none => columns

/-- Merge one row of a backfill batch, guarded by the latest live operation on the row. -/
def processBackfillRow (relation : Relation) (table : String) (spec : LiteTableSpec)
    (columns : List String) (watermark : String) (values : List JsonValue) : Apply Unit := do
  if values.length ≠ columns.length then
    throw (.invalidBackfill table ("row has " ++ toString values.length ++ " values but " ++
      toString columns.length ++ " key/backfill columns were declared"))
  let row ← mapped (liteRow env.stringify (columns.zip values) spec)
  let key ← check (getKey row (relation.keyKind.getD .default) relation.keyColumns table spec.primaryKey)
  let latest ← check ((getLatestRowOp (← get).replica.changeLog table (toJsonRowKey key)).mapError .db)
  if latest.any (fun entry => entry.op == .del && watermark < entry.stateVersion) then
    return
  let updates := backfillUpdates latest columns watermark
  if updates.isEmpty then
    return
  sql (fun db => db.upsertOn env.engine table
    (boundRow row ++ [(zeroVersionColumnName, .text watermark)]) relation.keyColumns updates)

/-- Merge a backfill batch; its rows are not logged. -/
def processBackfill (relation : Relation) (columns : List String) (watermark : String)
    (rowValues : List (List JsonValue)) : Apply Unit := do
  let table := liteTableName relation.schema relation.name
  let spec ← tableSpec table
  if relation.keyColumns.isEmpty then
    throw (.invalidBackfill table "backfill requires relation row-key columns")
  let cols := relation.keyColumns ++ columns
  check (checkBackfillColumns table spec [] cols)
  rowValues.forM (processBackfillRow env relation table spec cols watermark)

/-- Clear the backfill markers and make the columns visible. -/
def processBackfillCompleted (relation : Relation) (columns : List String)
    (status : Option DownloadStatus) : Apply Unit := do
  let table := liteTableName relation.schema relation.name
  let completed := relation.keyColumns ++ columns
  completed.forM (fun column => onColumnMetadata (fun rows => .ok (clearBackfilling rows table column)))
  bumpVersions table relation.schema relation.name
  reloadTableSpecs
  markSchemaChanged
  countEntries 1
  modify (fun s => match status with
    | some status => { s with completedBackfill := some ⟨table, completed, status⟩ }
    | none => s)

/-! ## Applying a change -/

/-- Insert a row of the change stream. -/
def applyInsert (relation : Relation) (new : Row) : Apply Unit := do
  let table := liteTableName relation.schema relation.name
  let spec ← tableSpec table
  let row ← mapped (liteRow env.stringify new spec)
  let backfilled ← backfilledColumnsForRow table row
  let before ← get
  processInsert env table (row ++ [(zeroVersionColumnName, .text before.version)])
    (relation.keyKind.getD .default) relation.keyColumns spec.primaryKey backfilled
  countEntries ((← get).pos - before.pos)

/-- Delete a row of the change stream. -/
def applyDelete (relation : Relation) (key : Row) : Apply Unit := do
  let table := liteTableName relation.schema relation.name
  let spec ← tableSpec table
  let row ← mapped (liteRow env.stringify key spec)
  let rowKey ← check (getKey row (relation.keyKind.getD .default) relation.keyColumns table spec.primaryKey)
  let before ← get
  processDelete env table rowKey
  countEntries ((← get).pos - before.pos)

/-- The key of a row before an update, when the change carries one. -/
def oldRowKey (relation : Relation) (table : String) (spec : LiteTableSpec) (key : Option Row) :
    Except DispatchError (Option (Fields LiteValue)) :=
  match key with
  | none => .ok none
  | some key => do
    let row ← (liteRow env.stringify key spec).mapError .spec
    some <$> getKey row (relation.keyKind.getD .default) relation.keyColumns table spec.primaryKey

/-- Update a row of the change stream. -/
def applyUpdate (relation : Relation) (key : Option Row) (new : Row) : Apply Unit := do
  let table := liteTableName relation.schema relation.name
  let spec ← tableSpec table
  let row ← mapped (liteRow env.stringify new spec)
  let backfilled ← backfilledColumnsForRow table row
  let oldKey ← check (oldRowKey env relation table spec key)
  let newKey ← check (getKey row (relation.keyKind.getD .default) relation.keyColumns table spec.primaryKey)
  let before ← get
  processUpdate env table (row ++ [(zeroVersionColumnName, .text before.version)]) oldKey newKey backfilled
  countEntries ((← get).pos - before.pos)

/-- Truncate the tables of a change. -/
def applyTruncate (relations : List Relation) : Apply Unit :=
  relations.forM (fun relation => do
    let table := liteTableName relation.schema relation.name
    sql (fun db => db.deleteAll table)
    logTable table .truncate
    countEntries 1)

/-- After a schema change: count its reset, reload the caches and mark the transaction. -/
def finishSchemaChange : Apply Unit := do
  countEntries 1
  reloadTableSpecs
  markSchemaChanged

/-- Create a table of the change stream, hidden while all its columns are under backfill. -/
def applyCreateTable (spec : TableSpec) (metadata : Option TableMetadata)
    (backfill : Option (Fields (Fields JsonValue))) : Apply Unit := do
  storeUpstreamMetadata spec.schema spec.name metadata
  let lite ← mapped (mapPostgresToLite spec)
  let allBackfilled := (backfill.map List.length).getD 0 = spec.columns.length
  createTable lite (!allBackfilled)
  spec.columns.forM (fun entry => onColumnMetadata (fun rows => insertColumnMetadata rows
    (columnMetadataRow lite.name entry.1 entry.2
      ((backfill.bind (fun ids => ids.get? entry.1)).map JsonValue.object))))
  reloadTableSpecs
  if allBackfilled then
    return
  countEntries 1
  markSchemaChanged

/-- Add a column of the change stream, hidden while it is under backfill. -/
def applyAddColumn (table : Identifier) (column : String) (spec : ColumnSpec)
    (metadata : Option TableMetadata) (backfill : Option (Fields JsonValue)) : Apply Unit := do
  storeUpstreamMetadata table.schema table.name metadata
  addColumn env (liteTableName table.schema table.name) column spec table.schema table.name
    (backfill.map JsonValue.object) backfill.isNone
  reloadTableSpecs
  if backfill.isSome then
    return
  countEntries 1
  markSchemaChanged

/-- Create an index of the change stream; the table of a hidden one is not reset. -/
def applyCreateIndex (spec : IndexSpec) : Apply Unit := do
  let hidden ← tableIsFullyBackfilling (liteTableName spec.schema spec.tableName)
  createIndex spec (!hidden)
  reloadTableSpecs
  if hidden then
    return
  countEntries 1
  markSchemaChanged

/-- Route a change to its applier. -/
def route : Change → Apply Unit
  | .insert relation new => applyInsert env relation new
  | .delete relation key => applyDelete env relation key
  | .update relation key new => applyUpdate env relation key new
  | .truncate relations => applyTruncate relations
  | .createTable spec metadata backfill => applyCreateTable spec metadata backfill
  | .dropTable id => do
    dropTable id.schema id.name
    finishSchemaChange
  | .renameTable old new => do
    renameTable old.schema old.name new.schema new.name
    finishSchemaChange
  | .dropColumn table column => do
    dropColumn (liteTableName table.schema table.name) column table.schema table.name
    finishSchemaChange
  | .addColumn table column spec metadata backfill => applyAddColumn env table column spec metadata backfill
  | .updateColumn table old oldSpec new newSpec => do
    updateColumn env (liteTableName table.schema table.name) old new oldSpec newSpec table.schema table.name
    finishSchemaChange
  | .createIndex spec => applyCreateIndex spec
  | .dropIndex id => sql (fun db => .ok (db.dropIndex (liteTableName id.schema id.name)))
  | .backfill relation columns watermark rowValues => processBackfill env relation columns watermark rowValues
  | .backfillCompleted relation columns status => processBackfillCompleted relation columns status
  | .updateTableMetadata table new => storeUpstreamMetadata table.schema table.name (some new)
  -- Framing messages are not routed through `apply`.
  | .begin => throw .alreadyInTransaction
  | .commit => throw .alreadyInTransaction
  | .rollback => throw .alreadyInTransaction

/-- Apply a change within the open transaction. -/
def apply (change : Change) : Apply Unit := do
  if !(← get).inTransaction then
    throw .noActiveTransaction
  route env change

/-! ## The frame of `apply` -/

/-- A relation of dispatcher states that everything a change does is a move of. -/
structure ChangeFrame (env : Env) (R : Dispatcher → Dispatcher → Prop) : Prop extends SchemaFrame env R where
  reloaded : Moves R reloadTableSpecs
  marked : ∀ s, R s { s with schemaChanged := true }
  completed : ∀ backfill s, R s { s with completedBackfill := some backfill }

section Frame

variable {env} {R : Dispatcher → Dispatcher → Prop} [IsPreorder Dispatcher R]

theorem tableSpec_moves (name : String) : Moves R (tableSpec name) := by
  refine bind get (fun s => ?_)
  cases s.tableSpecs.get? name with
  | some => exact pure _
  | none => exact throw _

variable (table : String)

theorem backfilledColumnsForRow_moves (row : Fields LiteValue) : Moves R (backfilledColumnsForRow table row) :=
  bind get (fun _ => pure _)

theorem tableIsFullyBackfilling_moves : Moves R (tableIsFullyBackfilling table) :=
  bind (tableSpec_moves _) (fun _ => bind get (fun _ => pure _))

namespace RowFrame

variable (h : RowFrame env R)
include h

omit [IsPreorder Dispatcher R] in
theorem countEntries (n : ℤ) : Moves R (countEntries n) := modify (h.counted n)

theorem storeUpstreamMetadata (schema name : String) (metadata : Option TableMetadata) :
    Moves R (storeUpstreamMetadata schema name metadata) := by
  cases metadata with
  | some m => exact h.tableMetadata (fun rows _ => .ok (setUpstreamMetadata rows schema name (tableMetadataJson m)))
  | none => exact pure _

section

variable (relation : Relation)

theorem processBackfillRow (spec : LiteTableSpec)
    (columns : List String) (watermark : String) (values : List JsonValue) :
    Moves R (processBackfillRow env relation table spec columns watermark values) := by
  refine ite (throw _) (bind (mapped_moves _) (fun _ => ?_))
  refine bind (check _) (fun _ => bind get (fun _ => ?_))
  refine bind (check _) (fun _ => ite (pure _) ?_)
  exact ite (pure _) (h.rows _ (.upsertOn _ _ _ _))

theorem processBackfill (columns : List String) (watermark : String) (rowValues : List (List JsonValue)) :
    Moves R (processBackfill env relation columns watermark rowValues) := by
  refine bind (tableSpec_moves _) (fun _ => ite (throw _) ?_)
  refine bind (check _) (fun _ => ?_)
  exact forM (fun values => h.processBackfillRow _ _ _ _ _ values) _

theorem applyInsert (new : Row) : Moves R (applyInsert env relation new) := by
  refine bind (tableSpec_moves _) (fun _ => bind (mapped_moves _) (fun _ => ?_))
  refine bind (backfilledColumnsForRow_moves _ _) (fun _ => bind get (fun _ => ?_))
  refine bind (h.processInsert _ _ _ _ _ _) (fun _ => ?_)
  exact bind get (fun _ => h.countEntries _)

theorem applyDelete (key : Row) : Moves R (applyDelete env relation key) := by
  refine bind (tableSpec_moves _) (fun _ => bind (mapped_moves _) (fun _ => ?_))
  refine bind (check _) (fun _ => bind get (fun _ => ?_))
  refine bind (h.processDelete _ _) (fun _ => ?_)
  exact bind get (fun _ => h.countEntries _)

theorem applyUpdate (key : Option Row) (new : Row) : Moves R (applyUpdate env relation key new) := by
  refine bind (tableSpec_moves _) (fun _ => bind (mapped_moves _) (fun _ => ?_))
  refine bind (backfilledColumnsForRow_moves _ _) (fun _ => ?_)
  refine bind (check _) (fun _ => bind (check _) (fun _ => ?_))
  refine bind get (fun _ => bind (h.processUpdate _ _ _ _ _) (fun _ => ?_))
  exact bind get (fun _ => h.countEntries _)

end

theorem applyTruncate (relations : List Relation) : Moves R (applyTruncate relations) :=
  forM (fun _ => bind (h.rows _ (.deleteAll _)) (fun _ =>
    bind (h.logsTable _ _) (fun _ => h.countEntries _))) _

end RowFrame

namespace ChangeFrame

variable (h : ChangeFrame env R)
include h

omit [IsPreorder Dispatcher R] in
theorem markSchemaChanged : Moves R markSchemaChanged := modify h.marked

theorem finishSchemaChange : Moves R finishSchemaChange :=
  bind (h.countEntries _) (fun _ => bind h.reloaded (fun _ => h.markSchemaChanged))

theorem processBackfillCompleted (relation : Relation) (columns : List String) (status : Option DownloadStatus) :
    Moves R (processBackfillCompleted relation columns status) := by
  refine bind (forM (fun _ => h.columnMetadata _) _) (fun _ => ?_)
  refine bind (h.bumpVersions _ _ _) (fun _ => bind h.reloaded (fun _ => ?_))
  refine bind h.markSchemaChanged (fun _ => bind (h.countEntries _) (fun _ => ?_))
  cases status with
  | some => exact modify (h.completed _)
  | none => exact modify (fun s => refl_of R s)

theorem applyCreateTable (spec : TableSpec) (metadata : Option TableMetadata)
    (backfill : Option (Fields (Fields JsonValue))) : Moves R (applyCreateTable spec metadata backfill) := by
  refine bind (h.storeUpstreamMetadata _ _ _) (fun _ => ?_)
  refine bind (mapped_moves _) (fun _ => bind (h.createTable _ _) (fun _ => ?_))
  refine bind (forM (fun _ => h.columnMetadata _) _) (fun _ => ?_)
  refine bind h.reloaded (fun _ => ite (pure _) ?_)
  exact bind (h.countEntries _) (fun _ => h.markSchemaChanged)

theorem applyAddColumn (table : Identifier) (column : String) (spec : ColumnSpec)
    (metadata : Option TableMetadata) (backfill : Option (Fields JsonValue)) :
    Moves R (applyAddColumn env table column spec metadata backfill) := by
  refine bind (h.storeUpstreamMetadata _ _ _) (fun _ => ?_)
  refine bind (h.addColumn _ _ _ _ _ _ _) (fun _ => ?_)
  refine bind h.reloaded (fun _ => ite (pure _) ?_)
  exact bind (h.countEntries _) (fun _ => h.markSchemaChanged)

theorem applyCreateIndex (spec : IndexSpec) : Moves R (applyCreateIndex spec) := by
  refine bind (tableIsFullyBackfilling_moves _) (fun _ => ?_)
  refine bind (h.createIndex _ _) (fun _ => ?_)
  refine bind h.reloaded (fun _ => ite (pure _) ?_)
  exact bind (h.countEntries _) (fun _ => h.markSchemaChanged)

/-- Every change is a move, one case per kind of change. -/
theorem route (change : Change) : Moves R (route env change) := by
  cases change with
  | begin | commit | rollback => exact throw _
  | insert relation new => exact h.applyInsert relation new
  | update relation key new => exact h.applyUpdate relation key new
  | delete relation key => exact h.applyDelete relation key
  | truncate relations => exact h.applyTruncate relations
  | backfill relation columns watermark rowValues => exact h.processBackfill relation columns watermark rowValues
  | createTable spec metadata backfill => exact h.applyCreateTable spec metadata backfill
  | renameTable => exact bind (h.renameTable _ _ _ _) (fun _ => h.finishSchemaChange)
  | updateTableMetadata table new => exact h.storeUpstreamMetadata table.schema table.name (some new)
  | addColumn table column spec metadata backfill => exact h.applyAddColumn table column spec metadata backfill
  | updateColumn =>
    exact bind (h.updateColumn _ _ _ _ _ _ _) (fun _ => h.finishSchemaChange)
  | dropColumn => exact bind (h.dropColumn _ _ _ _) (fun _ => h.finishSchemaChange)
  | dropTable => exact bind (h.dropTable _ _) (fun _ => h.finishSchemaChange)
  | createIndex spec => exact h.applyCreateIndex spec
  | dropIndex id => exact h.schema _ (.dropIndex (liteTableName id.schema id.name))
  | backfillCompleted relation columns status => exact h.processBackfillCompleted relation columns status

/-- `apply` is a move, whether it succeeds or fails. -/
theorem apply (change : Change) : Moves R (apply env change) := bind get (fun _ => ite (throw _) (h.route change))

end ChangeFrame

end Frame

/-- Everything a change does stays within the frame of the transaction. -/
theorem within_changeFrame : ChangeFrame env Within := { within_schemaFrame env with
    reloaded := modify (fun _ => of_log_eq rfl rfl rfl rfl rfl)
    marked := fun _ => of_log_eq rfl rfl rfl rfl rfl
    completed := fun _ _ => of_log_eq rfl rfl rfl rfl rfl }

/-- `apply` stays within the frame, whether it succeeds or fails. -/
theorem apply_within (change : Change) : Moves Within (apply env change) := (within_changeFrame env).apply change

/-! ## Transactions -/

/-- The outcome of a commit. -/
structure CommitResult where
  watermark : String
  completedBackfill : Option CompletedBackfill
  schemaChanged : Bool
  numChangeLogEntries : ℤ
  deriving DecidableEq, Repr

/-- Start a transaction whose changes are logged under `commitVersion`. -/
def begin (commitVersion : String) : Apply Unit := do
  if (← get).inTransaction then
    throw .alreadyInTransaction
  modify (fun s => { s with inTransaction := true, version := commitVersion, pos := 0,
                            schemaChanged := false, numChangeLogEntries := 0, completedBackfill := none })

/-- Commit the open transaction: what it wrote becomes visible to other connections. -/
def commit (watermark : String) : Apply CommitResult := do
  let s ← get
  if !s.inTransaction then
    throw .noActiveTransaction
  set { s with committed := s.replica, inTransaction := false, completedBackfill := none }
  return { watermark := watermark, completedBackfill := s.completedBackfill,
           schemaChanged := s.schemaChanged, numChangeLogEntries := s.numChangeLogEntries }

/-- Abort the open transaction, if there is one. The caches are not reloaded. -/
def rollback : Apply Unit :=
  modify (fun s =>
    let s := if s.inTransaction then { s with replica := s.committed, inTransaction := false } else s
    { s with completedBackfill := none })

end ZeroCache.Replica
