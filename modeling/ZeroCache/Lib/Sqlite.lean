import ZeroCache.Lib.Fields
import Mathlib.Data.Rat.Defs

/-!
# A small relational store

The part of SQLite a replica is kept with: typed columns, rows, unique keys, and the data and
schema statements over them. A statement either fails and changes nothing or returns the new
database. Names are compared exactly; column affinity and the evaluation of default
expressions are the engine's, and every result below holds for any engine.
-/

namespace ZeroCache.Sqlite

open List

/-- A value as SQLite stores it. -/
inductive SqlValue where
  | null
  | integer (n : ℤ)
  | real (x : ℚ)
  | text (s : String)
  | blob (bytes : List UInt8)
  deriving DecidableEq, Repr

/-- What the engine decides on its own: the value it stores in a column of a declared type, and
the value of a default expression. -/
structure Engine where
  store : String → SqlValue → SqlValue
  evalDefault : String → SqlValue

/-- The SQL comparison `a = b`, true only of two non-null values. -/
def sqlEq : SqlValue → SqlValue → Bool
  | .integer a, .integer b => a == b
  | .integer a, .real b => (a : ℚ) == b
  | .real a, .integer b => a == (b : ℚ)
  | .real a, .real b => a == b
  | .text a, .text b => a == b
  | .blob a, .blob b => a == b
  | _, _ => false

/-- A stored row. -/
abbrev SqlRow := Fields SqlValue

/-- The stored value of a column; an absent one is NULL. -/
def cell (row : SqlRow) (column : String) : SqlValue := (row.get? column).getD .null

/-- A declared column. -/
structure Column where
  name : String
  declType : String
  notNull : Bool
  dflt : Option String
  deriving DecidableEq, Repr

/-- A table: its columns, its declared primary key (empty when there is none) and its rows. -/
structure Table where
  name : String
  columns : List Column
  primaryKey : List String
  rows : List SqlRow
  deriving DecidableEq, Repr

/-- A sort direction. -/
inductive Direction where
  | asc
  | desc
  deriving DecidableEq, Repr

/-- An index of a table. -/
structure Index where
  name : String
  tableName : String
  unique : Bool
  columns : List (String × Direction)
  deriving DecidableEq, Repr

/-- The tables, in creation order, and the indexes. -/
structure Database where
  tables : List Table
  indexes : List Index
  deriving DecidableEq, Repr

/-- Why a statement failed. -/
inductive SqlError where
  | noSuchTable (table : String)
  | noSuchColumn (column : String)
  | tableExists (table : String)
  | columnExists (column : String)
  | indexExists (index : String)
  | columnInUse (column : String)
  | uniqueViolation (table : String)
  | notNullViolation (column : String)
  | noKeyMatches (table : String)
  | syntaxError
  deriving DecidableEq, Repr

namespace Database

/-- The table of a name. -/
def table? (db : Database) (name : String) : Option Table :=
  db.tables.find? (fun t => t.name == name)

/-- Replace the table of a name. -/
def setTable (db : Database) (name : String) (t : Table) : Database :=
  { db with tables := db.tables.map (fun u => if u.name == name then t else u) }

/-- The unique keys of a table: its primary key and its unique indexes. -/
def uniqueKeys (db : Database) (t : Table) : List (List String) :=
  (if t.primaryKey.isEmpty then [] else [t.primaryKey]) ++
    (db.indexes.filter (fun i => i.tableName == t.name && i.unique)).map
      (fun i => i.columns.map Prod.fst)

end Database

/-- Two rows agree on a key: SQL never equates a NULL, so a key with a NULL never conflicts. -/
def agreeOn (key : List String) (a b : SqlRow) : Bool :=
  key.all (fun column => sqlEq (cell a column) (cell b column))

/-- Two rows conflict on one of the unique keys. -/
def conflict (keys : List (List String)) (a b : SqlRow) : Bool :=
  keys.any (fun key => agreeOn key a b)

/-- No two rows of a list conflict. -/
def conflictFree (keys : List (List String)) : List SqlRow → Bool
  | [] => true
  | row :: rest => rest.all (fun other => !conflict keys row other) && conflictFree keys rest

/-! ## Agreement of rows -/

/-- What a value is compared by: a number, whichever way it is stored, a text or a blob. -/
def comparand : SqlValue → Option (ℚ ⊕ String ⊕ List UInt8)
  | .null => none
  | .integer n => some (.inl n)
  | .real x => some (.inl x)
  | .text s => some (.inr (.inl s))
  | .blob bytes => some (.inr (.inr bytes))

theorem sqlEq_iff (a b : SqlValue) : sqlEq a b = true ↔ (comparand a).isSome ∧ comparand a = comparand b := by
  cases a <;> cases b <;> simp [sqlEq, comparand]

theorem sqlEq_comm (a b : SqlValue) : sqlEq a b = sqlEq b a := by
  rw [Bool.eq_iff_iff, sqlEq_iff, sqlEq_iff]
  constructor
  · rintro ⟨hsome, heq⟩
    exact ⟨heq ▸ hsome, heq.symm⟩
  · rintro ⟨hsome, heq⟩
    exact ⟨heq ▸ hsome, heq.symm⟩

/-- Values equal to one value are equal. -/
theorem sqlEq_of_sqlEq {a b c : SqlValue} (hac : sqlEq a c = true) (hbc : sqlEq b c = true) : sqlEq a b = true := by
  rw [sqlEq_iff] at hac hbc ⊢
  exact ⟨hac.1, hac.2.trans hbc.2.symm⟩

theorem sqlEq_ne_null {a b : SqlValue} (h : sqlEq a b = true) : a ≠ .null := by
  rintro rfl
  simp [sqlEq_iff, comparand] at h

theorem sqlEq_self {a : SqlValue} (h : a ≠ .null) : sqlEq a a = true := by
  cases a <;> simp_all [sqlEq]

theorem agreeOn_comm (key : List String) (a b : SqlRow) : agreeOn key a b = agreeOn key b a := by
  simp only [agreeOn, sqlEq_comm]

theorem conflict_comm (keys : List (List String)) (a b : SqlRow) : conflict keys a b = conflict keys b a := by
  simp only [conflict, agreeOn_comm]

/-- In a conflict-free list only a row itself conflicts with it. -/
theorem eq_of_conflict {keys : List (List String)} {rows : List SqlRow} (h : conflictFree keys rows = true)
    {a b : SqlRow} (ha : a ∈ rows) (hb : b ∈ rows) (hab : conflict keys a b = true) : a = b := by
  induction rows with
  | nil => simp at ha
  | cons row rest ih =>
    obtain ⟨hrow, hrest⟩ : (∀ other ∈ rest, conflict keys row other = false) ∧ conflictFree keys rest = true := by
      simpa [conflictFree] using h
    rcases mem_cons.mp ha with rfl | ha' <;> rcases mem_cons.mp hb with rfl | hb'
    · rfl
    · simp [hrow b hb'] at hab
    · rw [conflict_comm] at hab
      simp [hrow a ha'] at hab
    · exact ih hrest ha' hb'

variable (engine : Engine)

/-- A value bound in a comparison with a column: the column's affinity applies to it. -/
def Table.coerce (t : Table) (column : String) (value : SqlValue) : SqlValue :=
  match t.columns.find? (fun c => c.name == column) with
  | some c => engine.store c.declType value
  | none => value

/-- A row satisfies `c₁ = v₁ AND … AND cₙ = vₙ`. -/
def Table.matchesKey (t : Table) (key row : SqlRow) : Bool :=
  key.all (fun entry => sqlEq (cell row entry.1) (t.coerce engine entry.1 entry.2))

/-- The given columns of a row. -/
def project (columns : List String) (row : SqlRow) : SqlRow :=
  columns.map (fun column => (column, cell row column))

/-- `SELECT columns FROM t WHERE key₁ OR … OR keyₙ`. -/
def Table.select (t : Table) (columns : List String) (keys : List SqlRow) : List SqlRow :=
  (t.rows.filter (fun row => keys.any (fun key => t.matchesKey engine key row))).map (project columns)

section

variable {columns : List String} {row : SqlRow} {column : String} (h : column ∈ columns)

include h

theorem get?_project : (project columns row).get? column = some (cell row column) := by
  unfold project
  induction columns with
  | nil => simp at h
  | cons c rest ih =>
    rw [map_cons, Assoc.get?_cons]
    by_cases hc : c = column
    · simp [hc]
    · have hrest : column ∈ rest := by
        rcases mem_cons.mp h with rfl | hmem
        · exact absurd rfl hc
        · exact hmem
      simp [hc, ih hrest]

theorem cell_project : cell (project columns row) column = cell row column := by
  rw [cell, get?_project h]
  rfl

end

/-- The rows of a table hold what the engine stores: a value read back and bound is unchanged. -/
def Table.Stored (t : Table) : Prop :=
  ∀ row ∈ t.rows, ∀ column, t.coerce engine column (cell row column) = cell row column

/-- The value a column gets when a statement leaves it out. -/
def Column.defaultValue (column : Column) : SqlValue :=
  match column.dflt with
  | some expr => engine.store column.declType (engine.evalDefault expr)
  | none => .null

/-- The row an INSERT of the given fields stores. -/
def Table.storedRow (t : Table) (fields : SqlRow) : SqlRow :=
  t.columns.map (fun column =>
    (column.name,
      match fields.get? column.name with
      | some value => engine.store column.declType value
      | none => column.defaultValue engine))

/-- The first field that names no column of the table. -/
def Table.unknownColumn (t : Table) (names : List String) : Option String :=
  names.find? (fun name => !t.columns.any (fun column => column.name == name))

/-- The first NOT NULL column a row leaves NULL. -/
def Table.nullViolation (t : Table) (row : SqlRow) : Option String :=
  (t.columns.find? (fun column => column.notNull && cell row column.name == .null)).map Column.name

/-- Look a table up or fail. -/
def Database.getTable (db : Database) (name : String) : Except SqlError Table :=
  match db.table? name with
  | some t => .ok t
  | none => .error (.noSuchTable name)

/-- Fail on a name that is no column of the table. -/
def Table.checkColumns (t : Table) (names : List String) : Except SqlError Unit :=
  match t.unknownColumn names with
  | some name => .error (.noSuchColumn name)
  | none => .ok ()

/-- Columns are accepted exactly when each of them is declared. -/
theorem Table.checkColumns_eq_ok_iff {t : Table} {names : List String} :
    t.checkColumns names = .ok () ↔ ∀ name ∈ names, ∃ c ∈ t.columns, c.name = name := by
  unfold Table.checkColumns Table.unknownColumn
  cases hfind : names.find? (fun name => !t.columns.any (fun column => column.name == name)) with
  | some name =>
    have hunknown := find?_some hfind
    have hmem := mem_of_find?_eq_some hfind
    simp only [reduceCtorEq, false_iff, not_forall]
    refine ⟨name, hmem, ?_⟩
    simpa using hunknown
  | none =>
    simp only [true_iff]
    intro name hname
    have hknown := find?_eq_none.mp hfind name hname
    simpa using hknown

/-- Fail on a row that breaks a NOT NULL constraint. -/
def Table.checkRow (t : Table) (row : SqlRow) : Except SqlError Unit :=
  match t.nullViolation row with
  | some name => .error (.notNullViolation name)
  | none => .ok ()

namespace Database

/-- `INSERT OR REPLACE`: rows that conflict with the new one on a unique key are deleted. -/
def insertOrReplace (db : Database) (name : String) (fields : SqlRow) : Except SqlError Database := do
  let t ← db.getTable name
  t.checkColumns (fields.map Prod.fst)
  let row := t.storedRow engine fields
  t.checkRow row
  let kept := t.rows.filter (fun other => !conflict (db.uniqueKeys t) row other)
  return db.setTable name { t with rows := kept ++ [row] }

/-- `DELETE FROM t WHERE c₁ = v₁ AND …`. -/
def deleteWhere (db : Database) (name : String) (key : SqlRow) : Except SqlError Database := do
  let t ← db.getTable name
  t.checkColumns (key.map Prod.fst)
  return db.setTable name { t with rows := t.rows.filter (fun row => !t.matchesKey engine key row) }

/-- `DELETE FROM t`. -/
def deleteAll (db : Database) (name : String) : Except SqlError Database := do
  let t ← db.getTable name
  return db.setTable name { t with rows := [] }

/-- Overwrite the given fields of a stored row. -/
def assign (t : Table) (row fields : SqlRow) : SqlRow :=
  t.columns.map (fun column =>
    (column.name,
      match fields.get? column.name with
      | some value => engine.store column.declType value
      | none => cell row column.name))

/-- `UPDATE t SET … WHERE …`; returns the number of rows changed. -/
def updateWhere (db : Database) (name : String) (fields key : SqlRow) :
    Except SqlError (Database × ℕ) := do
  let t ← db.getTable name
  t.checkColumns (fields.map Prod.fst ++ key.map Prod.fst)
  let rows := t.rows.map (fun row => if t.matchesKey engine key row then assign engine t row fields else row)
  if (rows.any (fun row => (t.nullViolation row).isSome)) then
    throw (.notNullViolation name)
  if !conflictFree (db.uniqueKeys t) rows then
    throw (.uniqueViolation name)
  return (db.setTable name { t with rows := rows }, (t.rows.filter (t.matchesKey engine key)).length)

/-- `INSERT … ON CONFLICT (target) DO UPDATE SET c = excluded.c, …` for the listed columns. -/
def upsertOn (db : Database) (name : String) (fields : SqlRow) (target updates : List String) :
    Except SqlError Database := do
  let t ← db.getTable name
  t.checkColumns (fields.map Prod.fst)
  let row := t.storedRow engine fields
  t.checkRow row
  if !(db.uniqueKeys t).any (fun key => key.all (target.contains ·) && target.all (key.contains ·)) then
    throw (.noKeyMatches name)
  if t.rows.any (agreeOn target row) then
    let excluded := row.filter (fun entry => updates.contains entry.1)
    let rows := t.rows.map (fun other =>
      if agreeOn target row other then assign engine t other excluded else other)
    if !conflictFree (db.uniqueKeys t) rows then
      throw (.uniqueViolation name)
    return db.setTable name { t with rows := rows }
  else
    if t.rows.any (fun other => conflict (db.uniqueKeys t) row other) then
      throw (.uniqueViolation name)
    return db.setTable name { t with rows := t.rows ++ [row] }

/-- `CREATE TABLE`. -/
def createTable (db : Database) (t : Table) : Except SqlError Database :=
  match db.table? t.name with
  | some _ => .error (.tableExists t.name)
  | none => .ok { db with tables := db.tables ++ [{ t with rows := [] }] }

/-- `DROP TABLE IF EXISTS`, with the indexes of the table. -/
def dropTable (db : Database) (name : String) : Database :=
  { tables := db.tables.filter (fun t => t.name != name)
    indexes := db.indexes.filter (fun i => i.tableName != name) }

/-- `ALTER TABLE … RENAME TO …`; the indexes follow. -/
def renameTable (db : Database) (old new : String) : Except SqlError Database := do
  let t ← db.getTable old
  if (db.table? new).isSome then
    throw (.tableExists new)
  return { db.setTable old { t with name := new } with
    indexes := db.indexes.map (fun i => if i.tableName == old then { i with tableName := new } else i) }

/-- `ALTER TABLE … ADD column`: existing rows read the default. -/
def addColumn (db : Database) (name : String) (column : Column) : Except SqlError Database := do
  let t ← db.getTable name
  if t.columns.any (fun c => c.name == column.name) then
    throw (.columnExists column.name)
  return db.setTable name { t with
    columns := t.columns ++ [column]
    rows := t.rows.map (fun row => row ++ [(column.name, column.defaultValue engine)]) }

/-- `ALTER TABLE … DROP column`: refused for the last column and for a column of a key. -/
def dropColumn (db : Database) (name column : String) : Except SqlError Database := do
  let t ← db.getTable name
  t.checkColumns [column]
  let used := t.primaryKey.contains column || t.columns.length ≤ 1 ||
    db.indexes.any (fun i => i.tableName == name && i.columns.any (fun c => c.1 == column))
  if used then
    throw (.columnInUse column)
  return db.setTable name { t with
    columns := t.columns.filter (fun c => c.name != column)
    rows := t.rows.map (fun row => row.erase column) }

/-- `ALTER TABLE … RENAME column TO column`; keys and indexes follow. -/
def renameColumn (db : Database) (name old new : String) : Except SqlError Database := do
  let t ← db.getTable name
  t.checkColumns [old]
  if t.columns.any (fun c => c.name == new) then
    throw (.columnExists new)
  let rename := fun c : String => if c == old then new else c
  let db' := db.setTable name { t with
    columns := t.columns.map (fun c => { c with name := rename c.name })
    primaryKey := t.primaryKey.map rename
    rows := t.rows.map (fun row => row.map (fun entry => (rename entry.1, entry.2))) }
  return { db' with
    indexes := db'.indexes.map (fun i =>
      if i.tableName == name then { i with columns := i.columns.map (fun c => (rename c.1, c.2)) } else i) }

/-- `UPDATE t SET dst = src`. -/
def copyColumn (db : Database) (name dst src : String) : Except SqlError Database := do
  let t ← db.getTable name
  t.checkColumns [dst, src]
  return db.setTable name { t with
    rows := t.rows.map (fun row => assign engine t row [(dst, cell row src)]) }

/-- `CREATE [UNIQUE] INDEX`. -/
def createIndex (db : Database) (index : Index) : Except SqlError Database := do
  let t ← db.getTable index.tableName
  t.checkColumns (index.columns.map Prod.fst)
  if db.indexes.any (fun i => i.name == index.name) then
    throw (.indexExists index.name)
  if index.unique && !conflictFree [index.columns.map Prod.fst] t.rows then
    throw (.uniqueViolation index.tableName)
  return { db with indexes := db.indexes ++ [index] }

/-- `DROP INDEX IF EXISTS`. -/
def dropIndex (db : Database) (name : String) : Database :=
  { db with indexes := db.indexes.filter (fun i => i.name != name) }

end Database

end ZeroCache.Sqlite
