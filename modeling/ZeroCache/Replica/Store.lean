import ZeroCache.Replica.Specs
import Mathlib.Data.List.Find

/-!
# The replica's own tables

A replica is a SQLite database of user tables together with the tables replication keeps beside
them: the change log (`change_log.rs`), the column and table metadata (`column_metadata.rs`,
`table_metadata.rs`) and the replication state. The change log holds identifiers only. Its row
key is the canonical JSON text of the key for a row operation and the version itself for a
table-wide one; two texts of keys are the same text exactly when the sorted keys are equal.
-/

namespace ZeroCache.Replica

open Sqlite List Bool

/-- Operations of the change log. -/
inductive Op where
  | set
  | del
  | truncate
  | reset
  deriving DecidableEq, Repr

/-- The text in the `rowKey` column: a printed key, or any other text. -/
inductive RowKeyText where
  | json (key : Fields JsonValue)
  | raw (text : String)
  deriving DecidableEq

/-- An entry of the change log. -/
structure ChangeLogEntry where
  stateVersion : String
  pos : ℤ
  table : String
  rowKey : RowKeyText
  op : Op
  backfillingColumnVersions : Fields String
  deriving DecidableEq

/-- A row of the column metadata table. -/
structure ColumnMetadataRow where
  tableName : String
  columnName : String
  upstreamType : String
  isNotNull : Bool
  isEnum : Bool
  isArray : Bool
  characterMaxLength : Option ℤ
  backfill : Option JsonValue
  deriving DecidableEq

/-- A row of the table metadata table. -/
structure TableMetadataRow where
  schema : String
  table : String
  minRowVersion : String
  upstreamMetadata : Option JsonValue
  deriving DecidableEq

/-- The replica file. -/
structure ReplicaFile where
  database : Database
  changeLog : List ChangeLogEntry
  columnMetadata : List ColumnMetadataRow
  tableMetadata : List TableMetadataRow
  /-- The version of `_zero.replicationState`. -/
  stateVersion : String
  deriving DecidableEq

/-- Why a statement on the replica failed. -/
inductive DbError where
  | sql (e : SqlError)
  | emptyRowKey
  | logConflict
  | metadataConflict
  deriving DecidableEq, Repr

/-- The key ordered by column, as it is printed. -/
def normalizedKeyOrder (key : Fields JsonValue) : Except DbError (Fields JsonValue) :=
  if key.isEmpty then .error .emptyRowKey
  else .ok (key.insertionSort (fun a b => a.1 ≤ b.1))

/-- Whether two entries share the log's primary key `(stateVersion, pos)`. -/
def ChangeLogEntry.sameSlot (a b : ChangeLogEntry) : Bool :=
  a.stateVersion == b.stateVersion && a.pos == b.pos

/-- Whether two entries share the log's unique key `(table, rowKey)`. -/
def ChangeLogEntry.sameRow (a b : ChangeLogEntry) : Bool := a.table == b.table && a.rowKey == b.rowKey

/-- `INSERT OR REPLACE` of an entry. -/
def replaceEntry (log : List ChangeLogEntry) (entry : ChangeLogEntry) : List ChangeLogEntry :=
  log.filter (fun other => !entry.sameSlot other && !entry.sameRow other) ++ [entry]

/-- `json_patch` of two version maps. -/
def patchVersions (old new : Fields String) : Fields String :=
  new.foldl (fun versions entry => versions.set entry.1 entry.2) old

/-- The backfill-aware upsert of an entry: the entry of the row moves to the new position and
keeps its column versions; any other entry at the position makes the statement fail. -/
def upsertEntry (log : List ChangeLogEntry) (entry : ChangeLogEntry) :
    Except DbError (List ChangeLogEntry) :=
  if log.any (fun other => entry.sameSlot other && !entry.sameRow other) then .error .logConflict
  else if log.any entry.sameRow then
    .ok (log.map (fun other =>
      if entry.sameRow other then
        { entry with backfillingColumnVersions :=
            patchVersions other.backfillingColumnVersions entry.backfillingColumnVersions }
      else other))
  else .ok (log ++ [entry])

/-- Log a row operation; `backfilled` is present while the table is being backfilled. -/
def logRowOp (log : List ChangeLogEntry) (version : String) (pos : ℤ) (table : String)
    (key : Fields JsonValue) (op : Op) (backfilled : Option (List String)) :
    Except DbError (List ChangeLogEntry) := do
  let ordered ← normalizedKeyOrder key
  let entry : ChangeLogEntry :=
    { stateVersion := version, pos := pos, table := table, rowKey := .json ordered, op := op,
      backfillingColumnVersions := [] }
  match backfilled with
  | none => return replaceEntry log entry
  | some columns =>
    upsertEntry log { entry with backfillingColumnVersions := columns.map (fun c => (c, version)) }

/-- Log a truncation or a reset of a whole table. -/
def logTableWideOp (log : List ChangeLogEntry) (version table : String) (op : Op) :
    List ChangeLogEntry :=
  replaceEntry log
    { stateVersion := version, pos := -1, table := table, rowKey := .raw version, op := op,
      backfillingColumnVersions := [] }

/-- The latest operation logged for a row. -/
def getLatestRowOp (log : List ChangeLogEntry) (table : String) (key : Fields JsonValue) :
    Except DbError (Option ChangeLogEntry) := do
  let ordered ← normalizedKeyOrder key
  return log.find? (fun entry => entry.table == table && entry.rowKey == .json ordered)

/-- The order entries are read in. -/
def ChangeLogEntry.le (a b : ChangeLogEntry) : Prop :=
  a.stateVersion < b.stateVersion ∨ (a.stateVersion = b.stateVersion ∧ a.pos ≤ b.pos)

instance : DecidableRel ChangeLogEntry.le := fun a b => by unfold ChangeLogEntry.le; infer_instance

/-- All entries after a version, in commit order. -/
def readSince (log : List ChangeLogEntry) (after : String) : List ChangeLogEntry :=
  (log.filter (fun entry => after < entry.stateVersion)).insertionSort ChangeLogEntry.le

variable {entry : ChangeLogEntry} {log : List ChangeLogEntry}

/-- An entry is read exactly when it is logged after the version. -/
@[simp]
theorem mem_readSince {after : String} : entry ∈ readSince log after ↔ entry ∈ log ∧ after < entry.stateVersion := by
  simp [readSince]

/-- Logging keeps an old entry or adds one at the given version: what a step may do to the log. -/
def LogExtends (version : String) (old new : List ChangeLogEntry) : Prop :=
  ∀ entry ∈ new, entry ∈ old ∨ entry.stateVersion = version

theorem LogExtends.refl (version : String) (log : List ChangeLogEntry) :
    LogExtends version log log := fun _ h => .inl h

variable {version : String}

theorem LogExtends.trans {a b c : List ChangeLogEntry}
    (hab : LogExtends version a b) (hbc : LogExtends version b c) : LogExtends version a c := by
  intro entry hc
  rcases hbc entry hc with hb | hv
  · exact hab entry hb
  · exact .inr hv

theorem replaceEntry_extends (log : List ChangeLogEntry) (entry : ChangeLogEntry) :
    LogExtends entry.stateVersion log (replaceEntry log entry) := by
  intro e he
  rcases mem_append.mp he with hold | hnew
  · exact .inl (mem_of_mem_filter hold)
  · exact .inr (by rw [mem_singleton.mp hnew])

variable {log' : List ChangeLogEntry}

theorem upsertEntry_extends (h : upsertEntry log entry = .ok log') : LogExtends entry.stateVersion log log' := by
  unfold upsertEntry at h
  split at h
  · cases h
  · split at h
    · cases h
      intro e he
      obtain ⟨other, hother, rfl⟩ := mem_map.mp he
      split
      · exact .inr rfl
      · exact .inl hother
    · cases h
      intro e he
      rcases mem_append.mp he with hold | hnew
      · exact .inl hold
      · exact .inr (by rw [mem_singleton.mp hnew])

/-- A logged row operation adds entries at its version only. -/
theorem logRowOp_extends {table : String} {pos : ℤ}
    {key : Fields JsonValue} {op : Op} {backfilled : Option (List String)}
    (h : logRowOp log version pos table key op backfilled = .ok log') : LogExtends version log log' := by
  unfold logRowOp at h
  cases hkey : normalizedKeyOrder key with
  | error => rw [hkey] at h; cases h
  | ok =>
    rw [hkey] at h
    cases backfilled with
    | none => cases h; exact replaceEntry_extends log _
    | some => exact upsertEntry_extends h

/-- A logged table operation adds entries at its version only. -/
theorem logTableWideOp_extends (log : List ChangeLogEntry) (version table : String) (op : Op) :
    LogExtends version log (logTableWideOp log version table op) :=
  replaceEntry_extends log _

/-- An entry is the one of a row. -/
def ChangeLogEntry.IsOf (entry : ChangeLogEntry) (table : String) (ordered : Fields JsonValue) : Prop :=
  entry.table = table ∧ entry.rowKey = .json ordered

instance (entry : ChangeLogEntry) (table : String) (ordered : Fields JsonValue) :
    Decidable (entry.IsOf table ordered) := by unfold ChangeLogEntry.IsOf; infer_instance

section

variable {table : String} {key ordered : Fields JsonValue} (hkey : normalizedKeyOrder key = .ok ordered)

include hkey

theorem getLatestRowOp_eq :
    getLatestRowOp log table key = .ok (log.find? (fun entry => entry.IsOf table ordered)) := by
  have hsame : (fun entry : ChangeLogEntry => entry.table == table && entry.rowKey == .json ordered) =
      (fun entry => decide (entry.IsOf table ordered)) := by
    funext entry
    rw [Bool.eq_iff_iff, decide_eq_true_iff, ChangeLogEntry.IsOf]
    simp
  rw [getLatestRowOp, hkey, ← hsame]
  rfl

/-- The row just logged is looked up with its operation. -/
theorem getLatestRowOp_replaceEntry (hentry : entry.IsOf table ordered) :
    getLatestRowOp (replaceEntry log entry) table key = .ok (some entry) := by
  have hnone : (log.filter (fun other => !entry.sameSlot other && !entry.sameRow other)).find?
      (fun other => other.IsOf table ordered) = none := by
    rw [find?_eq_none]
    intro other hother hof
    have hof : other.IsOf table ordered := by simpa using hof
    have hsame : entry.sameRow other = true := by
      simp [ChangeLogEntry.sameRow, hentry.1, hentry.2, hof.1, hof.2]
    simpa [hsame] using (mem_filter.mp hother).2
  rw [getLatestRowOp_eq hkey, replaceEntry, find?_append, hnone]
  simp [hentry]

/-- Another row is looked up as before, when nothing was logged at the position. -/
theorem getLatestRowOp_replaceEntry_ne
    (hentry : ¬ entry.IsOf table ordered) (hfree : ∀ other ∈ log, entry.sameSlot other = false) :
    getLatestRowOp (replaceEntry log entry) table key = getLatestRowOp log table key := by
  have hkept : (log.filter (fun other => !entry.sameSlot other && !entry.sameRow other)).find?
      (fun other => other.IsOf table ordered) = log.find? (fun other => other.IsOf table ordered) := by
    rw [find?_filter]
    refine find?_congr (fun other hmem => ?_)
    by_cases hof : other.IsOf table ordered
    · have hrow : entry.sameRow other = false := by
        rw [eq_false_iff]
        intro hsame
        simp only [ChangeLogEntry.sameRow, and_eq_true, beq_iff_eq] at hsame
        exact hentry ⟨hsame.1.trans hof.1, hsame.2.trans hof.2⟩
      simp [hfree other hmem, hrow]
    · simp [hof]
  rw [getLatestRowOp_eq hkey, getLatestRowOp_eq hkey, replaceEntry, find?_append, hkept]
  simp [hentry]

end

/-- An entry with the column versions of the one it replaces. -/
def ChangeLogEntry.carrying (entry old : ChangeLogEntry) : ChangeLogEntry :=
  { entry with backfillingColumnVersions :=
      patchVersions old.backfillingColumnVersions entry.backfillingColumnVersions }

/-! ## Metadata -/

/-- The metadata row of a Postgres column. -/
def columnMetadataRow (table column : String) (spec : ColumnSpec) (backfill : Option JsonValue) :
    ColumnMetadataRow :=
  { tableName := table, columnName := column, upstreamType := spec.dataType,
    isNotNull := spec.notNull.getD false, isEnum := isEnumColumn spec, isArray := isArrayColumn spec,
    characterMaxLength := spec.characterMaximumLength, backfill := backfill }

/-- No two metadata rows describe one column. -/
def columnKeysDistinct (rows : List ColumnMetadataRow) : Bool :=
  decide (rows.map (fun row => (row.tableName, row.columnName))).Nodup

/-- Insert the metadata of a column; it must be new. -/
def insertColumnMetadata (rows : List ColumnMetadataRow) (row : ColumnMetadataRow) :
    Except DbError (List ColumnMetadataRow) :=
  if rows.any (fun other => other.tableName == row.tableName && other.columnName == row.columnName) then
    .error .metadataConflict
  else .ok (rows ++ [row])

/-- Update the metadata of a column, possibly renaming it; the backfill marker stays. -/
def updateColumnMetadata (rows : List ColumnMetadataRow) (table old new : String) (spec : ColumnSpec) :
    Except DbError (List ColumnMetadataRow) :=
  let updated := rows.map (fun row =>
    if row.tableName == table && row.columnName == old then columnMetadataRow table new spec row.backfill
    else row)
  if !columnKeysDistinct updated then .error .metadataConflict
  else .ok updated

/-- Clear the backfill marker of a column. -/
def clearBackfilling (rows : List ColumnMetadataRow) (table column : String) : List ColumnMetadataRow :=
  rows.map (fun row =>
    if row.tableName == table && row.columnName == column then { row with backfill := none } else row)

/-- The table metadata row of a name, created with the default version when absent. -/
def upsertTableMetadata (rows : List TableMetadataRow) (schema name : String)
    (change : TableMetadataRow → TableMetadataRow) : List TableMetadataRow :=
  if rows.any (fun row => row.schema == schema && row.table == name) then
    rows.map (fun row => if row.schema == schema && row.table == name then change row else row)
  else
    rows ++ [change { schema := schema, table := name, minRowVersion := "00", upstreamMetadata := none }]

/-- Set the minimum row version of a table. -/
def setMinRowVersion (rows : List TableMetadataRow) (schema name version : String) :
    List TableMetadataRow :=
  upsertTableMetadata rows schema name (fun row => { row with minRowVersion := version })

/-- Set the upstream metadata of a table. -/
def setUpstreamMetadata (rows : List TableMetadataRow) (schema name : String) (metadata : JsonValue) :
    List TableMetadataRow :=
  upsertTableMetadata rows schema name (fun row => { row with upstreamMetadata := some metadata })

/-- Rename a table's metadata row; the new name must be free. -/
def renameTableMetadata (rows : List TableMetadataRow) (oldSchema oldName newSchema newName : String) :
    Except DbError (List TableMetadataRow) :=
  let old := fun row : TableMetadataRow => row.schema == oldSchema && row.table == oldName
  if rows.any old && rows.any (fun row => !old row && row.schema == newSchema && row.table == newName) then
    .error .metadataConflict
  else .ok (rows.map (fun row => if old row then { row with schema := newSchema, table := newName } else row))

/-- Drop a table's metadata row. -/
def dropTableMetadata (rows : List TableMetadataRow) (schema name : String) : List TableMetadataRow :=
  rows.filter (fun row => !(row.schema == schema && row.table == name))

end ZeroCache.Replica
