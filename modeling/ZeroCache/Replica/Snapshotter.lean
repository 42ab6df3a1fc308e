import ZeroCache.Lib.Result
import ZeroCache.Replica.Store
import Mathlib

/-!
# Snapshots and the difference of two of them

A snapshot pins the replica and reports the version of its replication state. The difference of
two snapshots (`materialize_diff` of `snapshotter.rs`) resolves every log entry after the earlier
version on its own: the row it leaves in the current snapshot, and the rows of the previous
snapshot it replaces, found by any unique key.
-/

namespace ZeroCache.Replica

open Sqlite Lib

/-- A snapshot: the replica it is pinned to, the application it serves and the version it reports. -/
structure Snapshot where
  file : ReplicaFile
  appId : String
  version : String

/-- Open a snapshot at head. -/
def Snapshot.create (appId : String) (head : ReplicaFile) : Snapshot := ⟨head, appId, head.stateVersion⟩

/-- Move an open snapshot to head. -/
def Snapshot.resetToHead (snapshot : Snapshot) (head : ReplicaFile) : Snapshot :=
  ⟨head, snapshot.appId, head.stateVersion⟩

/-- What consumers know of a replicated table. -/
structure SnapshotTableSpec where
  name : String
  columns : List String
  columnTypes : Fields ValueType
  primaryKey : List String
  uniqueKeys : List (List String)
  minRowVersion : Option String

/-- Why pipelines must be built again. -/
inductive ResetPipelinesReason where
  | advancementTimeout
  | scalarSubquery
  | schemaChange
  | truncation
  | permissionsChange
  deriving DecidableEq, Repr

/-- Why a difference could not be computed. -/
inductive SnapshotError where
  | reset (reason : ResetPipelinesReason) (message : String)
  | malformedRowKey (text : String)
  | unknownTable (table : String)
  | missingValue (table : String) (rowKey : RowKeyText)
  | invalidDiff (message : String)
  | db (e : SqlError)
  | notInitialized
  deriving DecidableEq

/-- A resolved change of one row. -/
structure SnapshotChange where
  table : String
  prevValues : List SqlRow
  nextValue : Option SqlRow
  rowKey : Fields JsonValue

variable (env : Env)

/-- A key value as it is bound: whole numbers as integers, clamped to 64 bits. -/
def jsonToSql : JsonValue → SqlValue
  | .null => .null
  | .bool b => .integer (if b then 1 else 0)
  | .number n =>
    if n.den = 1 then .integer (max (-9223372036854775808) (min n.num 9223372036854775807)) else .real n
  | .string s => .text s
  | .bigint n => .text (toString n)
  | .array items => .text (env.stringify (.array items))
  | .object entries => .text (env.stringify (.object entries))

/-- A row key as it is bound. -/
def boundKey (key : Fields JsonValue) : SqlRow := key.map (fun entry => (entry.1, jsonToSql env entry.2))

/-- Run a SELECT of a table's columns by keys; an empty key is no SQL condition. -/
def selectByKeys (db : Database) (spec : SnapshotTableSpec) (keys : List SqlRow) :
    Except SnapshotError (List SqlRow) :=
  match db.getTable spec.name with
  | .error e => .error (.db e)
  | .ok t =>
    if keys.any List.isEmpty then .error (.db .syntaxError)
    else match t.checkColumns (spec.columns ++ keys.flatMap (fun key => key.map Prod.fst)) with
      | .error e => .error (.db e)
      | .ok _ => .ok (t.select env.engine spec.columns keys)

/-- The row of a key. -/
def getRow (db : Database) (spec : SnapshotTableSpec) (key : Fields JsonValue) :
    Except SnapshotError (Option SqlRow) :=
  (selectByKeys env db spec [boundKey env key]).map List.head?

/-- The unique keys of which a row has every column, none of them NULL. -/
def validKeys (spec : SnapshotTableSpec) (row : SqlRow) : List (List String) :=
  ((spec.primaryKey :: spec.uniqueKeys).dedup.insertionSort (· ≤ ·)).filter (fun key =>
    key.all (fun column => (row.get? column).any (fun value => value ≠ .null)))

/-- The rows that share a unique key with a row. -/
def getUniqueConflicts (db : Database) (spec : SnapshotTableSpec) (row : SqlRow) :
    Except SnapshotError (List SqlRow) :=
  let valid := validKeys spec row
  if valid.isEmpty then .ok []
  else selectByKeys env db spec (valid.map (fun key => key.map (fun column => (column, cell row column))))

/-- Whether the deployed permissions differ. -/
def permissionsChanged (previous : List SqlRow) (next : Option SqlRow) : Bool :=
  let nextPermissions := next.bind (fun row => row.get? "permissions")
  previous.any (fun row => row.get? "permissions" ≠ nextPermissions)

/-- The key of a log entry. -/
def parseRowKey : RowKeyText → Except SnapshotError (Fields JsonValue)
  | .json key => .ok key
  | .raw text => .error (.malformedRowKey text)

/-- The row a log entry leaves in the current snapshot; a set must have left one. -/
def nextValue (curr : Snapshot) (spec : SnapshotTableSpec) (entry : ChangeLogEntry)
    (key : Fields JsonValue) : Except SnapshotError (Option SqlRow) :=
  if entry.op = .set then do
    match ← getRow env curr.file.database spec key with
    | some row => return some row
    | none => throw (.missingValue entry.table entry.rowKey)
  else .ok none

/-- The rows of the previous snapshot a change replaces. -/
def prevValues (prev : Snapshot) (spec : SnapshotTableSpec) (key : Fields JsonValue)
    (next : Option SqlRow) : Except SnapshotError (List SqlRow) :=
  match next with
  | some row => getUniqueConflicts env prev.file.database spec row
  | none => (getRow env prev.file.database spec key).map Option.toList

/-- The change of a log entry with its rows found; changed permissions reset the pipelines. -/
def rowChange (appId : String) (entry : ChangeLogEntry) (key : Fields JsonValue)
    (next : Option SqlRow) (previous : List SqlRow) : Except SnapshotError (Option SnapshotChange) :=
  if previous.isEmpty && next.isNone then .ok none
  else if entry.table = appId ++ ".permissions" && permissionsChanged previous next then
    .error (.reset .permissionsChange "permissions have changed")
  else .ok (some { table := entry.table, prevValues := previous, nextValue := next, rowKey := key })

/-- Resolve a log entry of a known table. -/
def resolveRow (prev curr : Snapshot) (spec : SnapshotTableSpec) (entry : ChangeLogEntry) :
    Except SnapshotError (Option SnapshotChange) :=
  if spec.minRowVersion.any (fun minimum => entry.stateVersion ≤ minimum) then
    .error (.invalidDiff ("change @" ++ entry.stateVersion ++ " is not newer than " ++
      spec.minRowVersion.getD "" ++ " minRowVersion"))
  else do
    let key ← parseRowKey entry.rowKey
    let next ← nextValue env curr spec entry key
    let previous ← prevValues env prev spec key next
    rowChange prev.appId entry key next previous

/-- Resolve a log entry to a change of one row, or to none. -/
def resolveChange (prev curr : Snapshot) (syncable : Fields SnapshotTableSpec) (allNames : List String)
    (entry : ChangeLogEntry) : Except SnapshotError (Option SnapshotChange) :=
  if entry.op = .reset then
    .error (.reset .schemaChange ("schema for table " ++ entry.table ++ " has changed"))
  else if entry.op = .truncate then
    .error (.reset .truncation ("table " ++ entry.table ++ " has been truncated"))
  else match syncable.get? entry.table with
    | none => if allNames.contains entry.table then .ok none else .error (.unknownTable entry.table)
    | some spec => resolveRow env prev curr spec entry

/-! ## What a resolved change is -/

variable {env}

variable {spec : SnapshotTableSpec} {entry : ChangeLogEntry} {change : Option SnapshotChange}
  {allNames : List String} {curr prev : Snapshot}

variable {db : Database} {t : Table}

theorem selectByKeys_ok {keys : List SqlRow} {rows : List SqlRow}
    (ht : db.getTable spec.name = .ok t) (h : selectByKeys env db spec keys = .ok rows) :
    rows = t.select env.engine spec.columns keys := by
  unfold selectByKeys at h
  rw [ht] at h
  dsimp only at h
  split at h
  · cases h
  · split at h
    · cases h
    · cases h
      rfl

variable {key : Fields JsonValue}

theorem getRow_ok {row : Option SqlRow} (ht : db.getTable spec.name = .ok t) (h : getRow env db spec key = .ok row) :
    row = (t.select env.engine spec.columns [boundKey env key]).head? := by
  unfold getRow at h
  cases hselect : selectByKeys env db spec [boundKey env key] with
  | error =>
    rw [hselect] at h
    cases h
  | ok =>
    rw [hselect] at h
    cases h
    rw [selectByKeys_ok ht hselect]

theorem rowChange_ok {appId : String} {next : Option SqlRow} {previous : List SqlRow}
    (h : rowChange appId entry key next previous = .ok change) :
    change = if previous.isEmpty && next.isNone then none else
      some { table := entry.table, prevValues := previous, nextValue := next, rowKey := key } := by
  unfold rowChange at h
  split at h
  · next hempty =>
    cases h
    rw [if_pos hempty]
  · next hempty =>
    split at h
    · cases h
    · cases h
      rw [if_neg hempty]

variable {syncable : Fields SnapshotTableSpec}

/-- An entry of a known table resolves only when it is a set or a delete with a readable key. -/
theorem resolveChange_ok (hspec : syncable.get? entry.table = some spec)
    (h : resolveChange env prev curr syncable allNames entry = .ok change) :
    ∃ key next previous, entry.rowKey = .json key ∧ (entry.op = .set ∨ entry.op = .del) ∧
      nextValue env curr spec entry key = .ok next ∧ prevValues env prev spec key next = .ok previous ∧
      change = if previous.isEmpty && next.isNone then none else
        some { table := entry.table, prevValues := previous, nextValue := next, rowKey := key } := by
  unfold resolveChange at h
  split at h
  · cases h
  · split at h
    · cases h
    · rw [hspec] at h
      dsimp only [resolveRow] at h
      split at h
      · cases h
      · obtain ⟨key, hkey, h⟩ := bind_ok h
        obtain ⟨next, hnext, h⟩ := bind_ok h
        obtain ⟨previous, hprevious, h⟩ := bind_ok h
        have hop : entry.op = .set ∨ entry.op = .del := by
          cases hop : entry.op <;> simp_all
        have hjson : entry.rowKey = .json key := by
          cases hrow : entry.rowKey with
          | json =>
            rw [hrow] at hkey
            cases hkey
            rfl
          | raw =>
            rw [hrow] at hkey
            cases hkey
        exact ⟨key, next, previous, hjson, hop, hnext, hprevious, rowChange_ok h⟩

variable (env)

/-- The difference of two snapshots. -/
structure SnapshotDiff where
  prevVersion : String
  currVersion : String
  changes : ℕ
  rows : List SnapshotChange

/-- Resolve entries in order, leaving out those that change nothing. -/
def resolveChanges (prev curr : Snapshot) (syncable : Fields SnapshotTableSpec) (allNames : List String) :
    List ChangeLogEntry → Except SnapshotError (List SnapshotChange)
  | [] => .ok []
  | entry :: rest => do
    let change ← resolveChange env prev curr syncable allNames entry
    let changes ← resolveChanges prev curr syncable allNames rest
    return change.toList ++ changes

/-- The changes logged after the previous snapshot, resolved against both. -/
def materializeDiff (prev curr : Snapshot) (syncable : Fields SnapshotTableSpec) (allNames : List String) :
    Except SnapshotError SnapshotDiff := do
  let entries := readSince curr.file.changeLog prev.version
  let rows ← resolveChanges env prev curr syncable allNames entries
  return { prevVersion := prev.version, currVersion := curr.version, changes := entries.length, rows := rows }

variable {env}

/-- The change an entry resolves to, if it does. -/
def resolved (env : Env) (prev curr : Snapshot) (syncable : Fields SnapshotTableSpec)
    (allNames : List String) (entry : ChangeLogEntry) : Option SnapshotChange :=
  match resolveChange env prev curr syncable allNames entry with
  | .ok change => change
  | .error _ => none

/-- A difference resolves every entry, in order. -/
theorem resolveChanges_ok {entries : List ChangeLogEntry} {rows : List SnapshotChange}
    (h : resolveChanges env prev curr syncable allNames entries = .ok rows) :
    (∀ entry ∈ entries, resolveChange env prev curr syncable allNames entry =
        .ok (resolved env prev curr syncable allNames entry)) ∧
      rows = entries.filterMap (resolved env prev curr syncable allNames) := by
  induction entries generalizing rows with
  | nil =>
    cases h
    simp
  | cons entry rest ih =>
    obtain ⟨change, hchange, h⟩ := bind_ok h
    obtain ⟨changes, hrest, h⟩ := bind_ok h
    obtain ⟨hall, rfl⟩ := ih hrest
    have hresolved : resolved env prev curr syncable allNames entry = change := by
      simp only [resolved, hchange]
    cases h
    refine ⟨fun e he => ?_, ?_⟩
    · rcases List.mem_cons.mp he with rfl | hmem
      · rw [hchange, hresolved]
      · exact hall e hmem
    · cases change with
      | none | some => simp [hresolved]

theorem materializeDiff_ok {diff : SnapshotDiff} (h : materializeDiff env prev curr syncable allNames = .ok diff) :
    (∀ entry ∈ readSince curr.file.changeLog prev.version, resolveChange env prev curr syncable allNames entry =
          .ok (resolved env prev curr syncable allNames entry)) ∧
      diff.rows = (readSince curr.file.changeLog prev.version).filterMap
        (resolved env prev curr syncable allNames) := by
  obtain ⟨rows, hrows, h⟩ := bind_ok h
  cases h
  exact resolveChanges_ok hrows

end ZeroCache.Replica
