import ZeroCache.Replica.Watermark

/-!
# Row changes that are applied

What an insert, an update or a delete leaves behind when its table is known, its table is not under
backfill and its statements succeed: the written database, and the entries logged at the positions
that follow.
-/

namespace ZeroCache.Replica

open Sqlite Lib

namespace Dispatcher

/-- The user tables written. -/
def writing (s : Dispatcher) (db : Database) : Dispatcher := { s with replica := { s.replica with database := db } }

/-- The entry a row operation is logged as. -/
def rowEntry (s : Dispatcher) (table : String) (ordered : Fields JsonValue) (op : Op) : ChangeLogEntry :=
  { stateVersion := s.version, pos := s.pos, table := table, rowKey := .json ordered, op := op,
    backfillingColumnVersions := [] }

/-- A row operation logged. -/
def logging (s : Dispatcher) (table : String) (ordered : Fields JsonValue) (op : Op) : Dispatcher :=
  { s with
    replica := { s.replica with changeLog := replaceEntry s.replica.changeLog (s.rowEntry table ordered op) }
    pos := s.pos + 1 }

/-- A transaction opened at a version. -/
def begun (s : Dispatcher) (version : String) : Dispatcher :=
  { s with inTransaction := true, version := version, pos := 0, schemaChanged := false, numChangeLogEntries := 0,
           completedBackfill := none }

/-- The open transaction committed. -/
def closed (s : Dispatcher) : Dispatcher :=
  { s with committed := s.replica, inTransaction := false, completedBackfill := none }

/-- Logged entries counted. -/
def counting (s : Dispatcher) (n : ℤ) : Dispatcher := { s with numChangeLogEntries := s.numChangeLogEntries + n }

end Dispatcher

variable {env : Env} {s : Dispatcher}

theorem begin_run (h : s.inTransaction = false) (version : String) : begin version s = .ok () (s.begun version) := by
  rw [begin, bind_run (get_run s), h]
  rfl

theorem commit_run (h : s.inTransaction = true) (watermark : String) :
    ∃ result, commit watermark s = .ok result s.closed := by
  rw [commit, bind_run (get_run s), h]
  exact ⟨_, rfl⟩

theorem sql_run {f : Database → Except SqlError Database} {db : Database} (h : f s.replica.database = .ok db) :
    sql f s = .ok () (s.writing db) := by
  simp only [sql, attempt, h]
  rfl

theorem logRow_run {key ordered : Fields JsonValue} (h : normalizedKeyOrder key = .ok ordered) (table : String) (op : Op) :
    logRow table key op none s = .ok () (s.logging table ordered op) := by
  have hlog : logRowOp s.replica.changeLog s.version s.pos table key op none =
      .ok (replaceEntry s.replica.changeLog (s.rowEntry table ordered op)) := by
    rw [logRowOp, h]
    rfl
  have hstatement : logStatement (fun log version pos => logRowOp log version pos table key op none) s =
      .ok () { s with replica := { s.replica with
        changeLog := replaceEntry s.replica.changeLog (s.rowEntry table ordered op) } } := by
    simp only [logStatement, attempt, hlog]
  rw [logRow, bind_run hstatement]
  rfl

theorem mapped_run {α : Type} {x : Except SpecError α} {a : α} (h : x = .ok a) : mapped x s = .ok a s := by
  subst h
  rfl

theorem tableSpec_run {name : String} {spec : LiteTableSpec} (h : s.tableSpecs.get? name = some spec) :
    tableSpec name s = .ok spec s := by
  rw [tableSpec, bind_run (get_run s), h]
  rfl

/-- The columns under backfill that a row sets; `none` when the table has no backfill. -/
def Dispatcher.backfilled (s : Dispatcher) (table : String) (row : Fields LiteValue) : Option (List String) :=
  (s.backfillingColumns.get? table).map (fun columns =>
    columns.filter (fun column => row.any (fun entry => entry.1 == column)))

theorem backfilledColumnsForRow_run (table : String) (row : Fields LiteValue) :
    backfilledColumnsForRow table row s = .ok (s.backfilled table row) s := rfl

variable {relation : Relation} {spec : LiteTableSpec}

/-! ## Changes whose entries are logged -/

/-- The statement of an update: a row that is not there is inserted. -/
def updateOrInsert (engine : Engine) (table : String) (fields key : SqlRow) (db : Database) :
    Except SqlError Database := do
  let (updated, changes) ← db.updateWhere engine table fields key
  if changes = 0 then db.insertOrReplace engine table fields else return updated

section Logged

variable {table : String} (htable : liteTableName relation.schema relation.name = table)
  (hspec : s.tableSpecs.get? table = some spec)

include htable hspec

theorem applyInsert_run {new : Row} {row key : Fields LiteValue} {db : Database} {s' : Dispatcher}
    (hrow : liteRow env.stringify new spec = .ok row) (hkeyed : relation.keyColumns.isEmpty = false)
    (hinsert : s.replica.database.insertOrReplace env.engine table
      (boundRow (row ++ [(zeroVersionColumnName, .text s.version)])) = .ok db)
    (hkey : getKey (row ++ [(zeroVersionColumnName, .text s.version)]) (relation.keyKind.getD .default)
      relation.keyColumns table spec.primaryKey = .ok key) (hlog : logRow table (toJsonRowKey key) .set
      (s.backfilled table row) (s.writing db) = .ok () s') :
    applyInsert env relation new s = .ok () (s'.counting (s'.pos - s.pos)) := by
  subst htable
  have hprocess : processInsert env (liteTableName relation.schema relation.name)
      (row ++ [(zeroVersionColumnName, .text s.version)]) (relation.keyKind.getD .default) relation.keyColumns
      spec.primaryKey (s.backfilled (liteTableName relation.schema relation.name) row) s = .ok () s' := by
    rw [processInsert, bind_run (sql_run hinsert), hkeyed]
    exact (bind_run (check_run hkey _) _).trans hlog
  rw [applyInsert, bind_run (tableSpec_run hspec), bind_run (mapped_run hrow),
    bind_run (backfilledColumnsForRow_run _ row), bind_run (get_run s), bind_run hprocess]
  rfl

theorem applyDelete_run {old : Row} {row key : Fields LiteValue} {db : Database} {s' : Dispatcher}
    (hrow : liteRow env.stringify old spec = .ok row)
    (hkey : getKey row (relation.keyKind.getD .default) relation.keyColumns table spec.primaryKey = .ok key)
    (hdelete : s.replica.database.deleteWhere env.engine table (boundRow key) = .ok db)
    (hlog : logRow table (toJsonRowKey key) .del none (s.writing db) = .ok () s') :
    applyDelete env relation old s = .ok () (s'.counting (s'.pos - s.pos)) := by
  subst htable
  have hprocess : processDelete env (liteTableName relation.schema relation.name) key s = .ok () s' :=
    (bind_run (sql_run hdelete) _).trans hlog
  rw [applyDelete, bind_run (tableSpec_run hspec), bind_run (mapped_run hrow),
    bind_run (check_run hkey _), bind_run (get_run s), bind_run hprocess]
  rfl

/-- An update once its keys are found. -/
theorem applyUpdate_run {old : Option Row} {new : Row} {row key : Fields LiteValue} {oldKey : Option (Fields LiteValue)}
    {s' : Dispatcher} (hrow : liteRow env.stringify new spec = .ok row)
    (hold : oldRowKey env relation table spec old = .ok oldKey)
    (hkey : getKey row (relation.keyKind.getD .default) relation.keyColumns table spec.primaryKey = .ok key)
    (hprocess : processUpdate env table (row ++ [(zeroVersionColumnName, .text s.version)]) oldKey key
      (s.backfilled table row) s = .ok () s') :
    applyUpdate env relation old new s = .ok () (s'.counting (s'.pos - s.pos)) := by
  subst htable
  rw [applyUpdate, bind_run (tableSpec_run hspec), bind_run (mapped_run hrow),
    bind_run (backfilledColumnsForRow_run _ row), bind_run (check_run hold s), bind_run (check_run hkey s),
    bind_run (get_run s), bind_run hprocess]
  rfl

/-- An update without an old key logs the new key. -/
theorem applyUpdate_run_same {new : Row} {row key : Fields LiteValue} {db : Database} {s' : Dispatcher}
    (hrow : liteRow env.stringify new spec = .ok row)
    (hkey : getKey row (relation.keyKind.getD .default) relation.keyColumns table spec.primaryKey = .ok key)
    (hlog : logRow table (toJsonRowKey key) .set (s.backfilled table row) s = .ok () s')
    (hupdate : updateOrInsert env.engine table
      (boundRow (row ++ [(zeroVersionColumnName, .text s.version)])) (boundRow key) s'.replica.database = .ok db) :
    applyUpdate env relation none new s = .ok () ((s'.writing db).counting (s'.pos - s.pos)) := by
  subst htable
  exact applyUpdate_run rfl hspec hrow rfl hkey ((bind_run hlog _).trans (sql_run hupdate))

/-- An update with an old key logs its delete before the new key. -/
theorem applyUpdate_run_moved {old new : Row} {oldRow row oldKey key : Fields LiteValue} {db : Database}
    {s' s'' : Dispatcher} (hrow : liteRow env.stringify new spec = .ok row)
    (holdRow : liteRow env.stringify old spec = .ok oldRow)
    (holdKey : getKey oldRow (relation.keyKind.getD .default) relation.keyColumns table spec.primaryKey = .ok oldKey)
    (hkey : getKey row (relation.keyKind.getD .default) relation.keyColumns table spec.primaryKey = .ok key)
    (hdel : logRow table (toJsonRowKey oldKey) .del none s = .ok () s') (hlog : logRow table (toJsonRowKey key) .set
      (s.backfilled table row) s' = .ok () s'') (hupdate : updateOrInsert env.engine table
      (boundRow (row ++ [(zeroVersionColumnName, .text s.version)])) (boundRow oldKey) s''.replica.database = .ok db) :
    applyUpdate env relation (some old) new s = .ok () ((s''.writing db).counting (s''.pos - s.pos)) := by
  subst htable
  have hold : oldRowKey env relation (liteTableName relation.schema relation.name) spec (some old) =
      .ok (some oldKey) := by
    rw [oldRowKey, holdRow]
    change some <$> getKey oldRow _ _ _ _ = _
    rw [holdKey]
    rfl
  exact applyUpdate_run rfl hspec hrow hold hkey ((bind_run hdel _).trans ((bind_run hlog _).trans (sql_run hupdate)))

end Logged

/-- A table that is known and not under backfill. -/
structure Dispatcher.Serves (s : Dispatcher) (table : String) (spec : LiteTableSpec) : Prop where
  spec : s.tableSpecs.get? table = some spec
  idle : s.backfillingColumns.get? table = none

/-- An idle table logs a row without column versions. -/
theorem Dispatcher.Serves.logRow_run {table : String} (h : s.Serves table spec) {key ordered : Fields JsonValue}
    (hordered : normalizedKeyOrder key = .ok ordered) (row : Fields LiteValue) (op : Op) (t : Dispatcher) :
    logRow table key op (s.backfilled table row) t = .ok () (t.logging table ordered op) := by
  rw [Dispatcher.backfilled, h.idle]
  exact Replica.logRow_run hordered table op

end ZeroCache.Replica
