import ZeroCache.Lib.SqliteRows
import ZeroCache.Lib.SqlCondition
import Mathlib.Data.List.Find

/-!
# Statements addressed to one key

A table whose rows have no NULL in the columns of a key, and no two the same key, is a map from keys to rows.
An insert, an update, a delete or an upsert names the key of the one row it is about. Whatever it
does there, the rows of every other key stay as they are and in their order, and so do the other
tables. A select by key reads the rows of that key only.
-/

namespace ZeroCache.Sqlite

open Lib List Function Table Database

/-- A key, as SQL compares it. -/
abbrev KeyValue := List (Option (ℚ ⊕ String ⊕ List UInt8))

/-- The key of a row. -/
def keyOf (key : List String) (row : SqlRow) : KeyValue := key.map (fun column => comparand (cell row column))

/-- A key without NULL. -/
def KeyValue.Full (k : KeyValue) : Prop := ∀ x ∈ k, x.isSome = true

/-- The row of a key. -/
def lookup (key : List String) (rows : List SqlRow) (k : KeyValue) : Option SqlRow :=
  rows.find? (fun row => keyOf key row = k)

/-- Rows with full and distinct keys. -/
structure KeyedRows (key : List String) (rows : List SqlRow) : Prop where
  full : ∀ row ∈ rows, (keyOf key row).Full
  distinct : rows.Pairwise (fun a b => keyOf key a ≠ keyOf key b)

variable {key : List String} {rows : List SqlRow} {k : KeyValue}

/-! ## Keys -/

theorem agreeOn_iff {a b : SqlRow} : agreeOn key a b = true ↔ (keyOf key a).Full ∧ keyOf key a = keyOf key b := by
  simp only [agreeOn, all_eq_true, sqlEq_iff, keyOf, KeyValue.Full, mem_map, map_inj_left,
    forall_exists_index, and_imp, forall_apply_eq_imp_iff₂]
  exact ⟨fun h => ⟨fun c hc => (h c hc).1, fun c hc => (h c hc).2⟩, fun h c hc => ⟨h.1 c hc, h.2 c hc⟩⟩

variable {row : SqlRow}

theorem keyOf_of_lookup (h : lookup key rows k = some row) : keyOf key row = k := by
  simpa using find?_some h

theorem mem_of_lookup (h : lookup key rows k = some row) : row ∈ rows := mem_of_find?_eq_some h

theorem lookup_eq_none : lookup key rows k = none ↔ ∀ row ∈ rows, keyOf key row ≠ k := by
  simp [lookup]

/-- A row of a keyed table is the one of its key. -/
theorem KeyedRows.lookup_of_mem (h : KeyedRows key rows) (hrow : row ∈ rows) :
    lookup key rows (keyOf key row) = some row := by
  obtain ⟨-, hdistinct⟩ := h
  induction rows with
  | nil => cases hrow
  | cons head rest ih =>
    obtain ⟨hhead, hrest⟩ := pairwise_cons.mp hdistinct
    rcases mem_cons.mp hrow with rfl | hmem
    · simp [lookup]
    · have hne : keyOf key head ≠ keyOf key row := hhead row hmem
      rw [lookup, find?_cons_of_neg (by simpa using hne)]
      exact ih hmem hrest

variable (engine : Engine)

/-- The key a condition on columns asks for. -/
def Table.address (t : Table) (condition : SqlRow) : KeyValue :=
  condition.map (fun entry => comparand (t.coerce engine entry.1 entry.2))

/-- A row satisfies `c₁ IS v₁ AND … AND cₙ IS vₙ`. -/
def Table.matchesIs (t : Table) (condition row : SqlRow) : Bool :=
  condition.all (fun entry => sqlIs (cell row entry.1) (t.coerce engine entry.1 entry.2))

namespace Database

/-- `SELECT * FROM t WHERE c₁ IS v₁ AND … LIMIT 1`. -/
def selectFirst (db : Database) (name : String) (condition : SqlRow) : Except SqlError (Option SqlRow) := do
  let t ← db.getTable name
  t.checkColumns (condition.map Prod.fst)
  return (t.rows.find? (t.matchesIs engine condition)).map (project (t.columns.map Column.name))

/-- `SELECT * FROM t`. -/
def selectAll (db : Database) (name : String) : Except SqlError (List SqlRow) := do
  let t ← db.getTable name
  return t.rows.map (project (t.columns.map Column.name))

/-- `INSERT`: refused when a row conflicts with the new one on a unique key. -/
def insert (db : Database) (name : String) (fields : SqlRow) : Except SqlError Database := do
  let t ← db.getTable name
  t.checkColumns (fields.map Prod.fst)
  let row := t.storedRow engine fields
  t.checkRow row
  if t.rows.any (fun other => conflict (db.uniqueKeys t) row other) then
    throw (.uniqueViolation name)
  return db.setTable name { t with rows := t.rows ++ [row] }

/-- `INSERT … ON CONFLICT (target) DO UPDATE SET` the inserted fields. -/
def insertOrUpdate (db : Database) (name : String) (fields : SqlRow) (target : List String) :
    Except SqlError Database := do
  let t ← db.getTable name
  t.checkColumns (fields.map Prod.fst)
  let row := t.storedRow engine fields
  t.checkRow row
  if !(db.uniqueKeys t).any (fun key => key.all (target.contains ·) && target.all (key.contains ·)) then
    throw (.noKeyMatches name)
  if t.rows.any (agreeOn target row) then
    let rows := t.rows.map (fun other =>
      if agreeOn target row other then assign engine t other fields else other)
    if !conflictFree (db.uniqueKeys t) rows then
      throw (.uniqueViolation name)
    return db.setTable name { t with rows := rows }
  else
    if t.rows.any (fun other => conflict (db.uniqueKeys t) row other) then
      throw (.uniqueViolation name)
    return db.setTable name { t with rows := t.rows ++ [row] }

end Database

variable {engine} {db db' : Database} {name : String} {t : Table} {key : List String} {k : KeyValue}

/-! ## Conditions on a key -/

theorem sqlIs_iff (a b : SqlValue) : sqlIs a b = true ↔ comparand a = comparand b := by
  cases a <;> cases b <;> simp [sqlIs, sqlEq, comparand]

variable {condition : SqlRow} {rows : List SqlRow}

theorem matchesIs_iff :
    t.matchesIs engine condition row = true ↔ keyOf (condition.map Prod.fst) row = t.address engine condition := by
  rw [matchesIs, all_eq_true, keyOf, address, map_map, map_inj_left]
  exact forall₂_congr (fun entry _ => sqlIs_iff _ _)

/-- An equality selects the rows of its key, unless a NULL is asked for. -/
theorem matchesKey_iff : t.matchesKey engine condition row = true ↔
    (t.address engine condition).Full ∧ keyOf (condition.map Prod.fst) row = t.address engine condition := by
  rw [← matchesIs_iff, matchesKey, matchesIs, all_eq_true, all_eq_true, address, KeyValue.Full, forall_mem_map]
  constructor
  · intro h
    refine ⟨fun entry hentry => ?_, fun entry hentry => ?_⟩
    · obtain ⟨hsome, heq⟩ := (sqlEq_iff _ _).mp (h entry hentry)
      rwa [← heq]
    · exact (sqlIs_iff _ _).mpr ((sqlEq_iff _ _).mp (h entry hentry)).2
  · rintro ⟨hfull, his⟩ entry hentry
    have heq := (sqlIs_iff _ _).mp (his entry hentry)
    exact (sqlEq_iff _ _).mpr ⟨heq ▸ hfull entry hentry, heq⟩

/-! ## What a statement leaves of the other keys -/

/-- The rows of one table were written, but only those of one key. -/
structure Touches (name : String) (key : List String) (k : KeyValue) (db db' : Database) (t : Table)
    (rows : List SqlRow) : Prop where
  table : db.table? name = some t
  result : db' = db.setTable name { t with rows := rows }
  others : rows.filter (fun row => keyOf key row ≠ k) = t.rows.filter (fun row => keyOf key row ≠ k)

namespace Touches

variable {rows : List SqlRow}

section

variable (h : Touches name key k db db' t rows)

include h

theorem table?_eq : db'.table? name = some { t with rows := rows } := by
  rw [h.result]
  have hname := name_of_table? h.table
  exact table?_setTable h.table hname

theorem table?_ne {other : String} (hother : other ≠ name) :
    db'.table? other = db.table? other := by
  rw [h.result]
  have hname := name_of_table? h.table
  exact @table?_setTable_ne db name { t with rows := rows } hname other hother

/-- The rows of another key are the same, in the same order. -/
theorem filter_eq {j : KeyValue} (hj : j ≠ k) :
    rows.filter (fun row => keyOf key row = j) = t.rows.filter (fun row => keyOf key row = j) := by
  have hnarrow (l : List SqlRow) : (l.filter (fun row => keyOf key row ≠ k)).filter (fun row => keyOf key row = j) =
      l.filter (fun row => keyOf key row = j) := by
    rw [filter_filter]
    refine filter_congr (fun row _ => ?_)
    by_cases hrow : keyOf key row = j
    · simp [hrow, hj]
    · simp [hrow]
  rw [← hnarrow rows, h.others, hnarrow]

end

end Touches

/-- Rows that are changed at one key without leaving it. -/
theorem filter_ne_map {f : SqlRow → SqlRow} (hkept : ∀ row, keyOf key row ≠ k → f row = row)
    (hstays : ∀ row, keyOf key row = k → keyOf key (f row) = k) :
    (rows.map f).filter (fun row => keyOf key row ≠ k) = rows.filter (fun row => keyOf key row ≠ k) := by
  induction rows with
  | nil => rfl
  | cons row rest ih =>
    rw [map_cons]
    by_cases hrow : keyOf key row = k
    · rw [filter_cons_of_neg (by simp [hstays row hrow]), filter_cons_of_neg (by simp [hrow]), ih]
    · rw [hkept row hrow, filter_cons_of_pos (by simp [hrow]), filter_cons_of_pos (by simp [hrow]), ih]

/-! ## Statements that return -/

namespace Database

variable {fields condition : SqlRow}

open Prod

theorem selectFirst_ok (ht : db.table? name = some t)
    (hknown : ∀ column ∈ condition.map fst, ∃ c ∈ t.columns, c.name = column) :
    db.selectFirst engine name condition =
      .ok ((t.rows.find? (t.matchesIs engine condition)).map (project (t.columns.map Column.name))) := by
  unfold selectFirst
  rw [getTable_ok_iff.mpr ht, ok_bind, checkColumns_eq_ok_iff.mpr hknown]
  rfl

theorem insert_inv (h : db.insert engine name fields = .ok db') : ∃ t, db.table? name = some t ∧
    (∀ column ∈ fields.map fst, ∃ c ∈ t.columns, c.name = column) ∧
    (∀ other ∈ t.rows, conflict (db.uniqueKeys t) (t.storedRow engine fields) other = false) ∧
    db' = db.setTable name { t with rows := t.rows ++ [t.storedRow engine fields] } := by
  obtain ⟨t, ht, h⟩ := bind_ok h
  obtain ⟨⟨⟩, hcolumns, h⟩ := bind_ok h
  obtain ⟨-, -, h⟩ := bind_ok h
  obtain ⟨hfree, h⟩ := guard_ok h
  cases h
  exact ⟨t, getTable_ok_iff.mp ht, checkColumns_eq_ok_iff.mp hcolumns, by simpa using hfree, rfl⟩

theorem insertOrUpdate_inv {target : List String} (h : db.insertOrUpdate engine name fields target = .ok db') :
    ∃ t, db.table? name = some t ∧ (∀ column ∈ fields.map fst, ∃ c ∈ t.columns, c.name = column) ∧
    ((∃ other ∈ t.rows, agreeOn target (t.storedRow engine fields) other = true) ∧
        db' = db.setTable name { t with rows := t.rows.map (fun other =>
          if agreeOn target (t.storedRow engine fields) other then assign engine t other fields else other) } ∨
      (∀ other ∈ t.rows, agreeOn target (t.storedRow engine fields) other = false) ∧
        db' = db.setTable name { t with rows := t.rows ++ [t.storedRow engine fields] }) := by
  obtain ⟨t, ht, h⟩ := bind_ok h
  obtain ⟨⟨⟩, hcolumns, h⟩ := bind_ok h
  obtain ⟨-, -, h⟩ := bind_ok h
  obtain ⟨-, h⟩ := guard_ok h
  refine ⟨t, getTable_ok_iff.mp ht, checkColumns_eq_ok_iff.mp hcolumns, ?_⟩
  split at h
  · next hagree =>
    obtain ⟨-, h⟩ := guard_ok h
    cases h
    exact .inl ⟨any_eq_true.mp hagree, rfl⟩
  · next hagree =>
    obtain ⟨-, h⟩ := guard_ok h
    cases h
    exact .inr ⟨by simpa using hagree, rfl⟩

theorem updateWhere_inv {n : ℕ} (h : db.updateWhere engine name fields condition = .ok (db', n)) :
    ∃ t, db.table? name = some t ∧
    (∀ column ∈ fields.map fst ++ condition.map fst, ∃ c ∈ t.columns, c.name = column) ∧
    db' = db.setTable name { t with rows := t.rows.map (fun row =>
      if t.matchesKey engine condition row then assign engine t row fields else row) } := by
  obtain ⟨t, ht, h⟩ := bind_ok h
  obtain ⟨⟨⟩, hcolumns, h⟩ := bind_ok h
  obtain ⟨-, h⟩ := guard_ok h
  obtain ⟨-, h⟩ := guard_ok h
  cases h
  exact ⟨t, getTable_ok_iff.mp ht, checkColumns_eq_ok_iff.mp hcolumns, rfl⟩

theorem deleteWhere_inv (h : db.deleteWhere engine name condition = .ok db') : ∃ t, db.table? name = some t ∧
    (∀ column ∈ condition.map fst, ∃ c ∈ t.columns, c.name = column) ∧
    db' = db.setTable name { t with rows := t.rows.filter (fun row => !t.matchesKey engine condition row) } := by
  obtain ⟨t, ht, h⟩ := bind_ok h
  obtain ⟨⟨⟩, hcolumns, h⟩ := bind_ok h
  cases h
  exact ⟨t, getTable_ok_iff.mp ht, checkColumns_eq_ok_iff.mp hcolumns, rfl⟩

end Database

/-! ## The key of a written row -/

/-- Fields that give the columns of a key the values of a condition on it. -/
def GivesKey (fields condition : SqlRow) : Prop := ∀ entry ∈ condition, fields.get? entry.1 = some entry.2

variable {fields condition : SqlRow}

section

variable (hgives : GivesKey fields condition)
  (hknown : ∀ column ∈ condition.map Prod.fst, ∃ c ∈ t.columns, c.name = column)

include hgives hknown

theorem keyOf_storedRow :
    keyOf (condition.map Prod.fst) (t.storedRow engine fields) = t.address engine condition := by
  rw [keyOf, map_map]
  refine map_congr_left (fun entry hentry => ?_)
  rw [comp_apply, cell_storedRow (hknown _ (mem_map_of_mem hentry)) (hgives entry hentry)]

theorem keyOf_assign (row : SqlRow) :
    keyOf (condition.map Prod.fst) (assign engine t row fields) = t.address engine condition := by
  rw [keyOf, map_map]
  refine map_congr_left (fun entry hentry => ?_)
  rw [comp_apply, cell_assign (hknown _ (mem_map_of_mem hentry)), hgives entry hentry]

end

/-- An appended row is found at its key. -/
theorem others_append (hrow : keyOf key row = k) :
    (rows ++ [row]).filter (fun other => keyOf key other ≠ k) = rows.filter (fun other => keyOf key other ≠ k) := by
  simp [hrow]

theorem others_delete :
    (rows.filter (fun row => !t.matchesKey engine condition row)).filter
        (fun row => keyOf (condition.map Prod.fst) row ≠ t.address engine condition) =
      rows.filter (fun row => keyOf (condition.map Prod.fst) row ≠ t.address engine condition) := by
  rw [filter_filter]
  refine filter_congr (fun row _ => ?_)
  by_cases hrow : keyOf (condition.map Prod.fst) row = t.address engine condition
  · simp [hrow]
  · have hmiss : t.matchesKey engine condition row = false := by
      rw [← Bool.not_eq_true, matchesKey_iff]
      exact fun h => hrow h.2
    simp [hmiss]

section

variable (hgives : GivesKey fields condition)
  (hknown : ∀ column ∈ condition.map Prod.fst, ∃ c ∈ t.columns, c.name = column)

include hgives hknown

theorem others_update :
    (rows.map (fun row => if t.matchesKey engine condition row then assign engine t row fields else row)).filter
        (fun row => keyOf (condition.map Prod.fst) row ≠ t.address engine condition) =
      rows.filter (fun row => keyOf (condition.map Prod.fst) row ≠ t.address engine condition) := by
  refine filter_ne_map (fun row hrow => ?_) (fun row hrow => ?_)
  · exact if_neg (fun h => hrow (matchesKey_iff.mp h).2)
  · split
    · exact keyOf_assign hgives hknown row
    · exact hrow

/-- The upsert finds the rows an equality on its key finds. -/
theorem agreeOn_storedRow (row : SqlRow) :
    agreeOn (condition.map Prod.fst) (t.storedRow engine fields) row = t.matchesKey engine condition row := by
  rw [Bool.eq_iff_iff, agreeOn_iff, matchesKey_iff, keyOf_storedRow hgives hknown, eq_comm]

end

end ZeroCache.Sqlite
