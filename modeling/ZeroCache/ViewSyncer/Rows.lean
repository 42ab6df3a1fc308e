import ZeroCache.Data.Ast
import ZeroCache.Replica.Snapshotter

/-!
# Rows of a query pipeline

The pipeline of a query holds its result rows by a text key: the table and the printed primary
key (`pipeline_driver.rs`). Two such maps differ by added, removed and edited rows, reported in
key order.
-/

namespace ZeroCache.ViewSyncer

open Sqlite Replica List

/-- Why a pipeline operation failed; `panic` stands for an unwinding thread. -/
inductive PipelineError where
  | snapshot (e : SnapshotError)
  | unknownTable (table : String)
  | resetPipelines (reason : ResetPipelinesReason)
  | emptyRowKey
  | panic

/-- A result row with its table and its primary key, in column order. -/
structure MaterializedRow where
  table : String
  row : Row
  rowKey : Fields JsonValue
  deriving DecidableEq

/-- How a row of a result changed. -/
inductive PipelineRowChangeKind where
  | add
  | remove
  | edit
  deriving DecidableEq, Repr

/-- A change of one row of the result of a query. -/
structure PipelineRowChange where
  queryId : String
  table : String
  kind : PipelineRowChangeKind
  row : Row
  oldRow : Option Row
  rowKey : Fields JsonValue
  deriving DecidableEq

variable (env : Env)

/-! ## Stored rows as rows of a result -/

/-- A stored value without a declared type. -/
def genericSqlValueToZql : SqlValue → JsonValue
  | .null => .null
  | .integer n => .number (env.asF64 n)
  | .real x => .number x
  | .text s => .string s
  | .blob bytes => .string (env.fromUtf8Lossy bytes)

/-- A stored value of a column of the given type: booleans and JSON are restored. -/
def sqlValueToZql (value : SqlValue) : Option ValueType → JsonValue
  | some .boolean => match value with
    | .null => .null
    | .integer n => .bool (n ≠ 0)
    | .real x => .bool (x ≠ 0)
    | .text s => .bool (lowercase s = "1" ∨ lowercase s = "t" ∨ lowercase s = "true")
    | .blob bytes => .bool (bytes ≠ [] ∧ bytes ≠ [48])
  | some .json => match value with
    | .null => .null
    | .text s => (env.parse s).getD (.string s)
    | other => genericSqlValueToZql env other
  | _ => genericSqlValueToZql env value

/-- One column of a stored row; the row version is raised to the table's minimum. -/
def sqlCellToZql (columnTypes : Fields ValueType) (minRowVersion : Option String) (column : String)
    (value : SqlValue) : JsonValue :=
  match value, minRowVersion with
  | .text version, some minimum =>
    if column = zeroVersionColumnName ∧ version < minimum then .string minimum
    else sqlValueToZql env value (columnTypes.get? column)
  | _, _ => sqlValueToZql env value (columnTypes.get? column)

/-- A stored row as a row of a result. -/
def sqlRowToZql (row : SqlRow) (columnTypes : Fields ValueType) (minRowVersion : Option String) : Row :=
  row.map (fun entry => (entry.1, sqlCellToZql env columnTypes minRowVersion entry.1 entry.2))

/-- Raise the version of a result row to the table's minimum. -/
def clampRowVersion (row : Row) (minRowVersion : Option String) : Row :=
  match minRowVersion with
  | none => row
  | some minimum => row.map (fun entry => match entry.2 with
    | .string version =>
      if entry.1 = zeroVersionColumnName ∧ version < minimum then (entry.1, .string minimum) else entry
    | _ => entry)

/-- The minimum row version of a table, if it has one. -/
def minRowVersionOf (specs : Fields SnapshotTableSpec) (table : String) : Option String :=
  (specs.get? table).bind SnapshotTableSpec.minRowVersion

/-! ## Keys -/

/-- The primary key of a row, in column order. -/
def rowKeyOf (spec : SnapshotTableSpec) (row : Row) : Fields JsonValue :=
  (spec.primaryKey.dedup.insertionSort (· ≤ ·)).map (fun column => (column, row.get column))

/-- A row of a table with its primary key. -/
def materializedRow (table : String) (row : Row) (specs : Fields SnapshotTableSpec) :
    Except PipelineError MaterializedRow :=
  match specs.get? table with
  | none => .error (.unknownTable table)
  | some spec => .ok { table := table, row := row, rowKey := rowKeyOf spec row }

/-- The key of a row of a table. -/
def materializedKeyFor (table : String) (rowKey : Fields JsonValue) : String :=
  table ++ ":" ++ env.stringify (.object rowKey)

/-- The key a row is held by. -/
def materializedKey (entry : MaterializedRow) : String := materializedKeyFor env entry.table entry.rowKey

/-- Hold a row. -/
def insertRow (table : String) (row : Row) (specs : Fields SnapshotTableSpec)
    (output : Fields MaterializedRow) : Except PipelineError (Fields MaterializedRow) :=
  (materializedRow table row specs).map (fun entry => output.set (materializedKey env entry) entry)

/-- The rows of a map in key order. -/
def sortedKeys (keys : List String) : List String := keys.dedup.insertionSort (· ≤ ·)

/-- All rows of a map as additions, in key order. -/
def additions (queryId : String) (rows : Fields MaterializedRow) : List PipelineRowChange :=
  (sortedKeys (rows.map Prod.fst)).filterMap (fun key => (rows.get? key).map (fun entry =>
    { queryId := queryId, table := entry.table, kind := .add, row := entry.row, oldRow := none,
      rowKey := entry.rowKey }))

/-! ## Differences -/

/-- The change of one key between two maps. -/
def changeOf (queryId : String) : Option MaterializedRow → Option MaterializedRow → Option PipelineRowChange
  | none, some new => some { queryId := queryId, table := new.table, kind := .add, row := new.row,
                             oldRow := none, rowKey := new.rowKey }
  | some old, none => some { queryId := queryId, table := old.table, kind := .remove, row := old.row,
                             oldRow := none, rowKey := old.rowKey }
  | some old, some new =>
    if old.row ≠ new.row then
      some { queryId := queryId, table := new.table, kind := .edit, row := new.row,
             oldRow := some old.row, rowKey := new.rowKey }
    else none
  | none, none => none

/-- The changes between two maps, in key order. -/
def diffRows (queryId : String) (previous next : Fields MaterializedRow) : List PipelineRowChange :=
  (sortedKeys (previous.map Prod.fst ++ next.map Prod.fst)).filterMap
    (fun key => changeOf queryId (previous.get? key) (next.get? key))

@[simp]
theorem changeOf_self (queryId : String) (row : Option MaterializedRow) : changeOf queryId row row = none := by
  cases row with
  | none => rfl
  | some => simp [changeOf]

theorem mem_sortedKeys {keys : List String} {key : String} : key ∈ sortedKeys keys ↔ key ∈ keys := by
  simp [sortedKeys]

theorem sortedKeys_sorted (keys : List String) : (sortedKeys keys).Pairwise (· < ·) := by
  have hle : (sortedKeys keys).Pairwise (· ≤ ·) := pairwise_insertionSort _ _
  have hne : (sortedKeys keys).Pairwise (· ≠ ·) := (perm_insertionSort _ _).nodup_iff.mpr (nodup_dedup keys)
  exact hle.imp₂ (fun _ _ hab hne => lt_of_le_of_ne hab hne) hne

/-- What is reported in key order depends only on the keys that report something. -/
theorem filterMap_sortedKeys_congr {β : Type} {keys keys' : List String} {f : String → Option β}
    (h : ∀ key, (f key).isSome → (key ∈ keys ↔ key ∈ keys')) :
    (sortedKeys keys).filterMap f = (sortedKeys keys').filterMap f := by
  have hreport : ∀ l : List String, l.filterMap f = (l.filter (fun key => (f key).isSome)).filterMap f := by
    intro l
    induction l with
    | nil => rfl
    | cons key rest ih => cases hf : f key <;> simp [hf, ih]
  have hsorted : ∀ l : List String, ((sortedKeys l).filter (fun key => (f key).isSome)).Pairwise (· < ·) :=
    fun l => (sortedKeys_sorted l).filter _
  have hperm : ((sortedKeys keys).filter (fun key => (f key).isSome)).Perm
      ((sortedKeys keys').filter (fun key => (f key).isSome)) := by
    refine (perm_ext_iff_of_nodup ((hsorted keys).imp ne_of_lt) ((hsorted keys').imp ne_of_lt)).mpr ?_
    intro key
    simp only [mem_filter, mem_sortedKeys]
    exact and_congr_left (h key)
  rw [hreport, hreport (sortedKeys keys'), hperm.eq_of_pairwise' (hsorted keys) (hsorted keys')]

variable {next previous : Fields MaterializedRow} {queryId : String}

theorem mem_keys_of_changeOf {key : String} (h : (changeOf queryId (previous.get? key) (next.get? key)).isSome) :
    key ∈ previous.map Prod.fst ++ next.map Prod.fst := by
  rw [mem_append]
  cases hp : previous.get? key with
  | some => exact .inl (mem_map.mpr ⟨_, Assoc.mem_of_get? hp, rfl⟩)
  | none =>
    cases hn : next.get? key with
    | some => exact .inr (mem_map.mpr ⟨_, Assoc.mem_of_get? hn, rfl⟩)
    | none => simp [hp, hn] at h

/-- A difference reports the changes of all keys: two pairs of maps with the same change at every
key have the same difference. -/
theorem diffRows_congr {previous' next' : Fields MaterializedRow}
    (h : ∀ key, changeOf queryId (previous.get? key) (next.get? key) =
      changeOf queryId (previous'.get? key) (next'.get? key)) :
    diffRows queryId previous next = diffRows queryId previous' next' := by
  unfold diffRows
  simp only [← h]
  refine filterMap_sortedKeys_congr (fun key hkey => ?_)
  exact iff_of_true (mem_keys_of_changeOf hkey) (mem_keys_of_changeOf (h key ▸ hkey))

/-- The difference is made of the changes of single keys. -/
theorem mem_diffRows {change : PipelineRowChange} : change ∈ diffRows queryId previous next ↔
      ∃ key, changeOf queryId (previous.get? key) (next.get? key) = some change := by
  unfold diffRows
  rw [mem_filterMap]
  constructor
  · rintro ⟨key, -, hkey⟩
    exact ⟨key, hkey⟩
  · rintro ⟨key, hkey⟩
    exact ⟨key, mem_sortedKeys.mpr (mem_keys_of_changeOf (by rw [hkey]; rfl)), hkey⟩

/-- An engine that stores values as they are bound, and a printer that tells text keys apart. -/
def textKeyEnv : Env :=
  { engine := ⟨fun _ value => value, fun _ => .null⟩
    stringify := fun
      | .object [(_, .string s)] => s
      | _ => ""
    parse := fun _ => none
    fromUtf8Lossy := fun _ => ""
    asF64 := fun n => n }

end ZeroCache.ViewSyncer
