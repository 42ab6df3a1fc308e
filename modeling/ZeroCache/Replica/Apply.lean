import ZeroCache.Lib.Frame
import ZeroCache.Replica.Store

/-!
# Applying row and schema changes

The row applier (`row_apply.rs`) and the schema applier (`ddl_apply.rs`) write the replica inside
the transaction of a change dispatcher and log what they did. Each statement either takes effect
or fails; a failing change keeps the writes of its earlier statements, since nothing but a
rollback undoes them. A panic of the source is an error here.
-/

namespace ZeroCache.Replica

open Sqlite Lib Moves

/-- The row-key kind of a relation's replica identity. -/
inductive RowKeyKind where
  | default
  | nothing
  | full
  | index
  deriving DecidableEq, Repr

/-- Progress of a download, as a backfill reports it. -/
structure DownloadStatus where
  rows : ℚ
  totalRows : ℚ
  totalBytes : Option ℚ
  deriving DecidableEq, Repr

/-- A backfill that a committed transaction made visible. -/
structure CompletedBackfill where
  table : String
  columns : List String
  status : DownloadStatus
  deriving DecidableEq, Repr

/-- Why a change was refused. -/
inductive DispatchError where
  | alreadyInTransaction
  | noActiveTransaction
  | unknownTable (table : String)
  | db (e : DbError)
  | noKeyColumns (table : String)
  | spec (e : SpecError)
  | invalidBackfill (table message : String)
  deriving DecidableEq, Repr

/-- The change dispatcher: the replica as other connections see it and as the open transaction
sees it, the caches of specifications, and the state of the transaction. -/
structure Dispatcher where
  committed : ReplicaFile
  replica : ReplicaFile
  tableSpecs : Fields LiteTableSpec
  backfillingColumns : Fields (List String)
  inTransaction : Bool
  version : String
  pos : ℤ
  schemaChanged : Bool
  numChangeLogEntries : ℤ
  completedBackfill : Option CompletedBackfill
  deriving DecidableEq

/-- A dispatcher call. -/
abbrev Apply := EStateM DispatchError Dispatcher

/-! ## Statements -/

/-- Run a statement on the user tables. -/
def sql (f : Database → Except SqlError Database) : Apply Unit :=
  attempt (fun s => match f s.replica.database with
    | .ok db => .ok { s with replica := { s.replica with database := db } }
    | .error e => .error (.db (.sql e)))

/-- Run a statement on the change log at the transaction's version. -/
def logStatement (f : List ChangeLogEntry → String → ℤ → Except DbError (List ChangeLogEntry)) :
    Apply Unit :=
  attempt (fun s => match f s.replica.changeLog s.version s.pos with
    | .ok log => .ok { s with replica := { s.replica with changeLog := log } }
    | .error e => .error (.db e))

/-- Log a set or a delete of a row and take the next position. -/
def logRow (table : String) (key : Fields JsonValue) (op : Op) (backfilled : Option (List String)) :
    Apply Unit := do
  logStatement (fun log version pos => logRowOp log version pos table key op backfilled)
  modify (fun s => { s with pos := s.pos + 1 })

/-- Log a truncation or a reset of a table. -/
def logTable (table : String) (op : Op) : Apply Unit :=
  logStatement (fun log version _ => .ok (logTableWideOp log version table op))

/-- Run a statement on the column metadata. -/
def onColumnMetadata (f : List ColumnMetadataRow → Except DbError (List ColumnMetadataRow)) :
    Apply Unit :=
  attempt (fun s => match f s.replica.columnMetadata with
    | .ok rows => .ok { s with replica := { s.replica with columnMetadata := rows } }
    | .error e => .error (.db e))

/-- Run a statement on the table metadata. -/
def onTableMetadata (f : List TableMetadataRow → String → Except DbError (List TableMetadataRow)) :
    Apply Unit :=
  attempt (fun s => match f s.replica.tableMetadata s.version with
    | .ok rows => .ok { s with replica := { s.replica with tableMetadata := rows } }
    | .error e => .error (.db e))

/-- A specification mapped, or the dispatch error of its failure. -/
def mapped {α : Type} (x : Except SpecError α) : Apply α := check (x.mapError .spec)

/-! ## What a statement may change -/

/-- The frame of a dispatcher's writes: they stay in the open transaction, keep the replication
state, and log at the version of the transaction only. -/
structure Within (s s' : Dispatcher) : Prop where
  committed : s'.committed = s.committed
  stateVersion : s'.replica.stateVersion = s.replica.stateVersion
  inTransaction : s'.inTransaction = s.inTransaction
  version : s'.version = s.version
  changeLog : LogExtends s.version s.replica.changeLog s'.replica.changeLog

instance : IsPreorder Dispatcher Within where
  refl _ := ⟨rfl, rfl, rfl, rfl, LogExtends.refl _ _⟩
  trans _ _ _ hab hbc :=
    { committed := hbc.committed.trans hab.committed
      stateVersion := hbc.stateVersion.trans hab.stateVersion
      inTransaction := hbc.inTransaction.trans hab.inTransaction
      version := hbc.version.trans hab.version
      changeLog := hab.changeLog.trans (hab.version ▸ hbc.changeLog) }

open Within

/-- A write that leaves the log alone is within the frame. -/
theorem Within.of_log_eq {s s' : Dispatcher} (hc : s'.committed = s.committed)
    (hsv : s'.replica.stateVersion = s.replica.stateVersion)
    (ht : s'.inTransaction = s.inTransaction) (hv : s'.version = s.version)
    (hlog : s'.replica.changeLog = s.replica.changeLog) : Within s s' :=
  ⟨hc, hsv, ht, hv, hlog ▸ LogExtends.refl _ _⟩

/-- The statements run on the rows of user tables. -/
inductive RowStatement (engine : Engine) : (Database → Except SqlError Database) → Prop
  | insertOrReplace (table : String) (fields : SqlRow) :
      RowStatement engine (fun db => db.insertOrReplace engine table fields)
  | deleteWhere (table : String) (key : SqlRow) : RowStatement engine (fun db => db.deleteWhere engine table key)
  | deleteAll (table : String) : RowStatement engine (fun db => db.deleteAll table)
  | updateOrInsert (table : String) (fields key : SqlRow) : RowStatement engine (fun db => do
      let (updated, changes) ← db.updateWhere engine table fields key
      if changes = 0 then db.insertOrReplace engine table fields else return updated)
  | upsertOn (table : String) (fields : SqlRow) (target updates : List String) :
      RowStatement engine (fun db => db.upsertOn engine table fields target updates)

/-- The statements run on the schema of user tables. -/
inductive SchemaStatement (engine : Engine) : (Database → Except SqlError Database) → Prop
  | createTable (t : Table) : SchemaStatement engine (fun db => db.createTable t)
  | dropTable (table : String) : SchemaStatement engine (fun db => .ok (db.dropTable table))
  | renameTable (old new : String) : SchemaStatement engine (fun db => db.renameTable old new)
  | addColumn (table : String) (column : Column) : SchemaStatement engine (fun db => db.addColumn engine table column)
  | dropColumn (table column : String) : SchemaStatement engine (fun db => db.dropColumn table column)
  | renameColumn (table old new : String) : SchemaStatement engine (fun db => db.renameColumn table old new)
  | copyColumn (table dst src : String) : SchemaStatement engine (fun db => db.copyColumn engine table dst src)
  | createIndex (index : Index) : SchemaStatement engine (fun db => db.createIndex index)
  | dropIndex (name : String) : SchemaStatement engine (fun db => .ok (db.dropIndex name))

/-- A relation of dispatcher states that every write of rows is a move of. -/
structure RowFrame (env : Env) (R : Dispatcher → Dispatcher → Prop) : Prop where
  rows : ∀ f, RowStatement env.engine f → Moves R (sql f)
  logsRow : ∀ table key op backfilled, Moves R (logRow table key op backfilled)
  logsTable : ∀ table op, Moves R (logTable table op)
  tableMetadata : ∀ f, Moves R (onTableMetadata f)
  counted : ∀ n s, R s { s with numChangeLogEntries := s.numChangeLogEntries + n }

/-- A relation of dispatcher states that every write is a move of. -/
structure SchemaFrame (env : Env) (R : Dispatcher → Dispatcher → Prop) : Prop extends RowFrame env R where
  schema : ∀ f, SchemaStatement env.engine f → Moves R (sql f)
  columnMetadata : ∀ f, Moves R (onColumnMetadata f)

section

variable {R : Dispatcher → Dispatcher → Prop} [IsPreorder Dispatcher R]

theorem Moves.sql {f : Database → Except SqlError Database}
    (h : ∀ s db, f s.replica.database = .ok db → R s { s with replica := { s.replica with database := db } }) :
    Moves R (sql f) := by
  refine attempt (fun s s' hs => ?_)
  split at hs
  · next db hdb =>
    cases hs
    exact h s db hdb
  · cases hs

theorem Moves.logStatement {f : List ChangeLogEntry → String → ℤ → Except DbError (List ChangeLogEntry)}
    (h : ∀ s log, f s.replica.changeLog s.version s.pos = .ok log →
      R s { s with replica := { s.replica with changeLog := log } }) : Moves R (logStatement f) := by
  refine attempt (fun s s' hs => ?_)
  split at hs
  · next log hlog =>
    cases hs
    exact h s log hlog
  · cases hs

theorem Moves.onColumnMetadata {f : List ColumnMetadataRow → Except DbError (List ColumnMetadataRow)}
    (h : ∀ s rows, f s.replica.columnMetadata = .ok rows →
      R s { s with replica := { s.replica with columnMetadata := rows } }) : Moves R (onColumnMetadata f) := by
  refine attempt (fun s s' hs => ?_)
  split at hs
  · next rows hrows =>
    cases hs
    exact h s rows hrows
  · cases hs

theorem Moves.onTableMetadata {f : List TableMetadataRow → String → Except DbError (List TableMetadataRow)}
    (h : ∀ s rows, f s.replica.tableMetadata s.version = .ok rows →
      R s { s with replica := { s.replica with tableMetadata := rows } }) : Moves R (onTableMetadata f) := by
  refine attempt (fun s s' hs => ?_)
  split at hs
  · next rows hrows =>
    cases hs
    exact h s rows hrows
  · cases hs

end

/-- Every write stays within the frame of the transaction. -/
theorem within_schemaFrame (env : Env) : SchemaFrame env Within where
  rows _ _ := Moves.sql (fun _ _ _ => of_log_eq rfl rfl rfl rfl rfl)
  schema _ _ := Moves.sql (fun _ _ _ => of_log_eq rfl rfl rfl rfl rfl)
  logsRow _ _ _ _ := bind (Moves.logStatement fun _ _ h => ⟨rfl, rfl, rfl, rfl, logRowOp_extends h⟩)
    (fun _ => modify (fun _ => of_log_eq rfl rfl rfl rfl rfl))
  logsTable table op := Moves.logStatement fun s log h => by
    cases h
    exact ⟨rfl, rfl, rfl, rfl, logTableWideOp_extends _ s.version table op⟩
  columnMetadata _ := Moves.onColumnMetadata (fun _ _ _ => of_log_eq rfl rfl rfl rfl rfl)
  tableMetadata _ := Moves.onTableMetadata (fun _ _ _ => of_log_eq rfl rfl rfl rfl rfl)
  counted _ _ := of_log_eq rfl rfl rfl rfl rfl

theorem mapped_moves {R : Dispatcher → Dispatcher → Prop} [IsPreorder Dispatcher R] {α : Type}
    (x : Except SpecError α) : Moves R (mapped x) := check _

/-! ## Rows -/

/-- The key of a row: the declared key columns, or the table's primary key under full identity.
A row with exactly as many columns as the key is the key. -/
def getKey (row : Fields LiteValue) (kind : RowKeyKind) (relationKey : List String) (table : String)
    (primaryKey : Option (List String)) : Except DispatchError (Fields LiteValue) :=
  let keyColumns := if kind ≠ .full then relationKey else primaryKey.getD []
  if keyColumns.isEmpty then .error (.noKeyColumns table)
  else if row.length = keyColumns.length then .ok row
  else .ok (keyColumns.filterMap (fun c => (row.get? c).map (fun v => (c, v))))

/-- A lite row key as the change log prints it; a blob key prints as null. -/
def toJsonRowKey (key : Fields LiteValue) : Fields JsonValue :=
  key.map (fun entry => (entry.1, match entry.2 with
    | .null => .null
    | .text s => .string s
    | .number n => .number n
    | .big n => .bigint n
    | .blob _ => .null))

/-- A lite row as it is bound. -/
def boundRow (row : Fields LiteValue) : SqlRow := row.map (fun entry => (entry.1, toSqlValue entry.2))

variable (env : Env) {R : Dispatcher → Dispatcher → Prop} [IsPreorder Dispatcher R]

/-- Insert a row and log it, unless the relation has no key at all. -/
def processInsert (table : String) (row : Fields LiteValue) (kind : RowKeyKind)
    (relationKey : List String) (primaryKey : Option (List String)) (backfilled : Option (List String)) :
    Apply Unit := do
  sql (fun db => db.insertOrReplace env.engine table (boundRow row))
  if relationKey.isEmpty && kind ≠ .full then
    return
  let key ← check (getKey row kind relationKey table primaryKey)
  logRow table (toJsonRowKey key) .set backfilled

variable {env}

theorem RowFrame.processInsert (h : RowFrame env R) (table : String) (row : Fields LiteValue) (kind : RowKeyKind)
    (relationKey : List String) (primaryKey : Option (List String)) (backfilled : Option (List String)) :
    Moves R (processInsert env table row kind relationKey primaryKey backfilled) := by
  refine bind (h.rows _ (.insertOrReplace _ _)) (fun _ => ite (pure _) ?_)
  exact bind (check _) (fun _ => h.logsRow _ _ _ _)

variable (env)

/-- Update a row: log the delete of its old key and the set of its new one, then write; a row that
is not there is inserted. -/
def processUpdate (table : String) (row : Fields LiteValue) (oldKey : Option (Fields LiteValue))
    (newKey : Fields LiteValue) (backfilled : Option (List String)) : Apply Unit := do
  match oldKey with
  | some key => logRow table (toJsonRowKey key) .del none
  | none => pure ()
  logRow table (toJsonRowKey newKey) .set backfilled
  sql (fun db => do
    let (updated, changes) ← db.updateWhere env.engine table (boundRow row) (boundRow (oldKey.getD newKey))
    if changes = 0 then db.insertOrReplace env.engine table (boundRow row) else return updated)

variable {env}

theorem RowFrame.processUpdate (h : RowFrame env R) (table : String) (row : Fields LiteValue)
    (oldKey : Option (Fields LiteValue)) (newKey : Fields LiteValue) (backfilled : Option (List String)) :
    Moves R (processUpdate env table row oldKey newKey backfilled) := by
  have hset : Moves R (do
      logRow table (toJsonRowKey newKey) .set backfilled
      sql (fun db => do
        let (updated, changes) ← db.updateWhere env.engine table (boundRow row) (boundRow (oldKey.getD newKey))
        if changes = 0 then db.insertOrReplace env.engine table (boundRow row) else return updated)) :=
    bind (h.logsRow _ _ _ _) (fun _ => h.rows _ (.updateOrInsert _ _ _))
  cases oldKey with
  | some => exact bind (h.logsRow _ _ _ _) (fun _ => hset)
  | none => exact hset

variable (env)

/-- Delete a row and log it. -/
def processDelete (table : String) (key : Fields LiteValue) : Apply Unit := do
  sql (fun db => db.deleteWhere env.engine table (boundRow key))
  logRow table (toJsonRowKey key) .del none

variable {env}

theorem RowFrame.processDelete (h : RowFrame env R) (table : String) (key : Fields LiteValue) :
    Moves R (processDelete env table key) :=
  bind (h.rows _ (.deleteWhere _ _)) (fun _ => h.logsRow _ _ _ _)

/-! ## Schema -/

/-- Make a table's new shape visible: raise its minimum row version and reset its consumers. -/
def bumpVersions (table schema name : String) : Apply Unit := do
  onTableMetadata (fun rows version => .ok (setMinRowVersion rows schema name version))
  logTable table .reset

theorem RowFrame.bumpVersions (h : RowFrame env R) (table schema name : String) :
    Moves R (bumpVersions table schema name) :=
  bind (h.tableMetadata _) (fun _ => h.logsTable _ _)

variable (env)

/-- Add a column; it stays hidden while it is being backfilled. -/
def addColumn (table column : String) (spec : ColumnSpec) (schema name : String)
    (backfill : Option JsonValue) (makeVisible : Bool) : Apply Unit := do
  let lite ← mapped (mapPostgresToLiteColumn table column spec false)
  let declared ← mapped (liteColumnDef column lite)
  sql (fun db => db.addColumn env.engine table declared)
  onColumnMetadata (fun rows => insertColumnMetadata rows (columnMetadataRow table column spec backfill))
  if makeVisible then bumpVersions table schema name

variable {env}

theorem SchemaFrame.addColumn (h : SchemaFrame env R) (table column : String) (spec : ColumnSpec)
    (schema name : String) (backfill : Option JsonValue) (makeVisible : Bool) :
    Moves R (addColumn env table column spec schema name backfill makeVisible) := by
  refine bind (mapped_moves _) (fun _ => bind (mapped_moves _) (fun _ => ?_))
  refine bind (h.schema _ (.addColumn _ _)) (fun _ => bind (h.columnMetadata _) (fun _ => ?_))
  exact ite (h.bumpVersions _ _ _) (pure _)

variable (env)

/-- The indexes of a table over a column, by name (`list_indexes` with a filter). -/
def indexesOver (db : Database) (table column : String) : List Index :=
  (db.indexes.insertionSort (fun a b => a.name ≤ b.name)).filter (fun i =>
    i.tableName == table && i.columns.any (fun c => c.1 == column))

/-- Rename or retype a column. A changed type needs a new column, the values copied over, and the
indexes on the old one created again. -/
def updateColumn (table old new : String) (oldSpec newSpec : ColumnSpec) (schema name : String) :
    Apply Unit := do
  let oldLite ← mapped (mapPostgresToLiteColumn table old oldSpec true)
  let newLite ← mapped (mapPostgresToLiteColumn table new newSpec true)
  if old = new ∧ oldLite.dataType = newLite.dataType then
    return
  let retyped := oldLite.dataType ≠ newLite.dataType
  let tmp := "tmp." ++ new
  if retyped then
    let indexes := indexesOver (← get).replica.database table old
    indexes.forM (fun i => sql (fun db => .ok (db.dropIndex i.name)))
    let declared ← mapped (liteColumnDef tmp newLite)
    sql (fun db => db.addColumn env.engine table declared)
    sql (fun db => db.copyColumn env.engine table tmp old)
    sql (fun db => db.dropColumn table old)
    indexes.forM (fun i => sql (fun db => db.createIndex
      { i with columns := i.columns.map (fun c => if c.1 = old then (tmp, c.2) else c) }))
  let current := if retyped then tmp else old
  if current ≠ new then
    sql (fun db => db.renameColumn table current new)
  onColumnMetadata (fun rows => updateColumnMetadata rows table old new newSpec)
  bumpVersions table schema name

variable {env}

theorem SchemaFrame.updateColumn (h : SchemaFrame env R) (table old new : String) (oldSpec newSpec : ColumnSpec)
    (schema name : String) :
    Moves R (updateColumn env table old new oldSpec newSpec schema name) := by
  have hdone : Moves R (do
      onColumnMetadata (fun rows => updateColumnMetadata rows table old new newSpec)
      bumpVersions table schema name) :=
    bind (h.columnMetadata _) (fun _ => h.bumpVersions _ _ _)
  have hrename (current : String) : Moves R (do
      if current ≠ new then
        sql (fun db => db.renameColumn table current new)
      onColumnMetadata (fun rows => updateColumnMetadata rows table old new newSpec)
      bumpVersions table schema name) :=
    ite (bind (h.schema _ (.renameColumn _ _ _)) (fun _ => hdone)) hdone
  refine bind (mapped_moves _) (fun oldLite => bind (mapped_moves _) (fun newLite => ?_))
  refine ite (pure _) (ite ?_ (hrename _))
  refine bind get (fun _ =>
    bind (forM (fun _ => h.schema _ (.dropIndex _)) _) (fun _ => ?_))
  refine bind (mapped_moves _) (fun _ => bind (h.schema _ (.addColumn _ _)) (fun _ => ?_))
  refine bind (h.schema _ (.copyColumn _ _ _)) (fun _ => bind (h.schema _ (.dropColumn _ _)) (fun _ => ?_))
  exact bind (forM (fun _ => h.schema _ (.createIndex _)) _) (fun _ => hrename _)

/-- Create a table, visible unless every column is being backfilled. -/
def createTable (spec : LiteTableSpec) (makeVisible : Bool) : Apply Unit := do
  let table ← mapped (createLiteTable spec)
  sql (fun db => db.createTable table)
  if makeVisible then logTable spec.name .reset

theorem SchemaFrame.createTable (h : SchemaFrame env R) (spec : LiteTableSpec) (makeVisible : Bool) :
    Moves R (createTable spec makeVisible) := by
  refine bind (mapped_moves _) (fun _ => bind (h.schema _ (.createTable _)) (fun _ => ?_))
  exact ite (h.logsTable _ _) (pure _)

/-- Rename a table with its metadata, and reset the consumers of the old name. -/
def renameTable (oldSchema oldName newSchema newName : String) : Apply Unit := do
  let old := liteTableName oldSchema oldName
  let new := liteTableName newSchema newName
  onTableMetadata (fun rows _ => renameTableMetadata rows oldSchema oldName newSchema newName)
  sql (fun db => db.renameTable old new)
  onColumnMetadata (fun rows =>
    let renamed := rows.map (fun row => if row.tableName == old then { row with tableName := new } else row)
    if columnKeysDistinct renamed then .ok renamed else .error .metadataConflict)
  onTableMetadata (fun rows version => .ok (setMinRowVersion rows newSchema newName version))
  logTable old .reset

theorem SchemaFrame.renameTable (h : SchemaFrame env R) (oldSchema oldName newSchema newName : String) :
    Moves R (renameTable oldSchema oldName newSchema newName) := by
  refine bind (h.tableMetadata _) (fun _ => bind (h.schema _ (.renameTable _ _)) (fun _ => ?_))
  refine bind (h.columnMetadata _) (fun _ => ?_)
  exact bind (h.tableMetadata _) (fun _ => h.logsTable _ _)

/-- Drop a column. -/
def dropColumn (table column schema name : String) : Apply Unit := do
  sql (fun db => db.dropColumn table column)
  onColumnMetadata (fun rows =>
    .ok (rows.filter (fun row => !(row.tableName == table && row.columnName == column))))
  bumpVersions table schema name

theorem SchemaFrame.dropColumn (h : SchemaFrame env R) (table column schema name : String) :
    Moves R (dropColumn table column schema name) := by
  refine bind (h.schema _ (.dropColumn _ _)) (fun _ => bind (h.columnMetadata _) (fun _ => ?_))
  exact h.bumpVersions _ _ _

/-- Drop a table with its metadata. -/
def dropTable (schema name : String) : Apply Unit := do
  let table := liteTableName schema name
  onTableMetadata (fun rows _ => .ok (dropTableMetadata rows schema name))
  sql (fun db => .ok (db.dropTable table))
  onColumnMetadata (fun rows => .ok (rows.filter (fun row => row.tableName != table)))
  logTable table .reset

theorem SchemaFrame.dropTable (h : SchemaFrame env R) (schema name : String) : Moves R (dropTable schema name) := by
  refine bind (h.tableMetadata _) (fun _ => bind (h.schema _ (.dropTable _)) (fun _ => ?_))
  exact bind (h.columnMetadata _) (fun _ => h.logsTable _ _)

/-- Create an index, and reset its table unless that is still hidden. -/
def createIndex (spec : IndexSpec) (makeVisible : Bool) : Apply Unit := do
  let index := mapPostgresToLiteIndex spec
  sql (fun db => db.createIndex index)
  if makeVisible then logTable index.tableName .reset

theorem SchemaFrame.createIndex (h : SchemaFrame env R) (spec : IndexSpec) (makeVisible : Bool) :
    Moves R (createIndex spec makeVisible) :=
  bind (h.schema _ (.createIndex _)) (fun _ => ite (h.logsTable _ _) (pure _))

end ZeroCache.Replica
