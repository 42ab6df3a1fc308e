import ZeroCache.Lib.Sqlite
import ZeroCache.Lib.Result
import Mathlib.Data.List.Nodup

/-!
# The shape of a database

What statements on rows leave alone: the names, columns and keys of the tables, and the indexes.
A database has at most one table of a name, which every statement keeps.
-/

namespace ZeroCache.Sqlite

open List Lib Table

namespace Database

/-- No two tables have one name. -/
def Named (db : Database) : Prop := (db.tables.map Table.name).Nodup

/-- A table without its rows. -/
def shapes (db : Database) : List (String × List Column × List String) :=
  db.tables.map (fun t => (t.name, t.columns, t.primaryKey))

/-- Two databases that differ in their rows only. -/
structure SameShape (a b : Database) : Prop where
  shapes : b.shapes = a.shapes
  indexes : b.indexes = a.indexes

theorem SameShape.refl (db : Database) : SameShape db db := ⟨rfl, rfl⟩

theorem map_name_eq (db : Database) : db.tables.map name = db.shapes.map Prod.fst := by
  simp [shapes]

theorem SameShape.named {a b : Database} (h : SameShape a b) (ha : a.Named) : b.Named := by
  rw [Named, map_name_eq, h.shapes, ← map_name_eq]
  exact ha

variable {db : Database} {name : String} {t : Table}

theorem getTable_ok_iff : db.getTable name = .ok t ↔ db.table? name = some t := by
  unfold getTable
  cases db.table? name <;> simp

theorem name_of_table? (h : db.table? name = some t) : t.name = name := by
  simpa using find?_some h

/-- A statement on a table finds it first. -/
theorem table_of_bind {β : Type} {f : Table → Except SqlError β} {b : β} (h : (db.getTable name >>= f) = .ok b) :
    ∃ t, db.table? name = some t ∧ t.name = name ∧ f t = .ok b := by
  obtain ⟨t, ht, h⟩ := bind_ok h
  have htable := getTable_ok_iff.mp ht
  exact ⟨t, htable, name_of_table? htable, h⟩

theorem mem_of_table? (h : db.table? name = some t) : t ∈ db.tables := mem_of_find?_eq_some h

/-- The table of a name is the only one of that name. -/
theorem Named.eq_of_table? (hdb : db.Named) {u : Table}
    (ht : db.table? name = some t) (hu : u ∈ db.tables) (hname : u.name = name) : u = t :=
  inj_on_of_nodup_map hdb hu (mem_of_table? ht) (hname.trans (name_of_table? ht).symm)

/-- Writing the rows of a table keeps the shape of the database. -/
theorem sameShape_setTable (hdb : db.Named) (ht : db.table? name = some t)
    (rows : List SqlRow) : SameShape db (db.setTable name { t with rows := rows }) := by
  refine ⟨?_, rfl⟩
  rw [shapes, setTable, map_map]
  refine map_congr_left (fun u hu => ?_)
  by_cases hname : u.name = name
  · simp [hdb.eq_of_table? ht hu hname, name_of_table? ht]
  · simp [hname]

/-- Replacing a table by one of the same name keeps the names. -/
theorem map_name_setTable (db : Database) (ht : t.name = name) :
    (db.setTable name t).tables.map Table.name = db.tables.map Table.name := by
  rw [setTable, map_map]
  refine map_congr_left (fun u _ => ?_)
  by_cases hname : u.name = name <;> simp [hname, ht]

/-! ## Statements on rows -/

/-- A database in which the rows of one table were written. -/
def WritesRows (db db' : Database) : Prop :=
  ∃ name t rows, db.table? name = some t ∧ db' = db.setTable name { t with rows := rows }

theorem WritesRows.sameShape {db' : Database} (hdb : db.Named) (h : WritesRows db db') : SameShape db db' := by
  obtain ⟨name, t, rows, ht, rfl⟩ := h
  exact sameShape_setTable hdb ht rows

variable {engine : Engine} {db db' : Database} {name : String} {fields : SqlRow}

theorem writesRows_insertOrReplace (h : db.insertOrReplace engine name fields = .ok db') : WritesRows db db' := by
  obtain ⟨t, ht, -, h⟩ := table_of_bind h
  obtain ⟨-, -, h⟩ := bind_ok h
  obtain ⟨-, -, h⟩ := bind_ok h
  cases h
  exact ⟨name, t, _, ht, rfl⟩

variable {key : SqlRow}

theorem writesRows_deleteWhere (h : db.deleteWhere engine name key = .ok db') : WritesRows db db' := by
  obtain ⟨t, ht, -, h⟩ := table_of_bind h
  obtain ⟨-, -, h⟩ := bind_ok h
  cases h
  exact ⟨name, t, _, ht, rfl⟩

theorem writesRows_deleteAll (h : db.deleteAll name = .ok db') : WritesRows db db' := by
  obtain ⟨t, ht, -, h⟩ := table_of_bind h
  cases h
  exact ⟨name, t, _, ht, rfl⟩

theorem writesRows_updateWhere {n : ℕ}
    (h : db.updateWhere engine name fields key = .ok (db', n)) : WritesRows db db' := by
  obtain ⟨t, ht, -, h⟩ := table_of_bind h
  obtain ⟨-, -, h⟩ := bind_ok h
  obtain ⟨-, h⟩ := guard_ok h
  obtain ⟨-, h⟩ := guard_ok h
  cases h
  exact ⟨name, t, _, ht, rfl⟩

theorem writesRows_upsertOn {target updates : List String}
    (h : db.upsertOn engine name fields target updates = .ok db') : WritesRows db db' := by
  obtain ⟨t, ht, -, h⟩ := table_of_bind h
  obtain ⟨-, -, h⟩ := bind_ok h
  obtain ⟨-, -, h⟩ := bind_ok h
  obtain ⟨-, h⟩ := guard_ok h
  split at h
  · obtain ⟨-, h⟩ := guard_ok h
    cases h
    exact ⟨name, t, _, ht, rfl⟩
  · obtain ⟨-, h⟩ := guard_ok h
    cases h
    exact ⟨name, t, _, ht, rfl⟩

/-! ## Statements on the schema -/

section

variable (hdb : db.Named)

include hdb

theorem Named.setTable (ht : t.name = name) : (db.setTable name t).Named := by
  rw [Named, map_name_setTable db ht]
  exact hdb

theorem Named.createTable (h : db.createTable t = .ok db') : db'.Named := by
  unfold Database.createTable at h
  split at h
  · cases h
  · next hnone =>
    cases h
    have hfresh : t.name ∉ db.tables.map name := by
      simpa [table?] using hnone
    rw [Named, map_append, nodup_append]
    refine ⟨hdb, by simp, ?_⟩
    rintro a ha b hb rfl
    obtain rfl : a = t.name := by simpa using hb
    exact hfresh ha

theorem Named.dropTable (name : String) : (db.dropTable name).Named := hdb.sublist (filter_sublist.map _)

theorem Named.renameTable {old new : String} (h : db.renameTable old new = .ok db') : db'.Named := by
  obtain ⟨t, -, hname, h⟩ := table_of_bind h
  obtain ⟨hnew, h⟩ := guard_ok h
  cases h
  have hfresh : ∀ u ∈ db.tables, u.name ≠ new := by simpa [table?] using hnew
  have hnames : (db.setTable old { t with name := new }).tables.map name =
      (db.tables.map name).map (fun n => if n = old then new else n) := by
    rw [Database.setTable, map_map, map_map]
    refine map_congr_left (fun u _ => ?_)
    by_cases hu : u.name = old <;> simp [hu]
  change ((db.setTable old { t with name := new }).tables.map name).Nodup
  rw [hnames]
  refine List.Nodup.map_on ?_ hdb
  intro a ha b hb hab
  obtain ⟨u, hu, rfl⟩ := mem_map.mp ha
  obtain ⟨v, hv, rfl⟩ := mem_map.mp hb
  by_cases huo : u.name = old <;> by_cases hvo : v.name = old
  · rw [huo, hvo]
  · exact absurd (by simpa [huo, hvo] using hab.symm) (hfresh v hv)
  · exact absurd (by simpa [huo, hvo] using hab) (hfresh u hu)
  · simpa [huo, hvo] using hab

theorem Named.addColumn {column : Column} (h : db.addColumn engine name column = .ok db') : db'.Named := by
  obtain ⟨t, -, hname, h⟩ := table_of_bind h
  obtain ⟨-, h⟩ := guard_ok h
  cases h
  exact hdb.setTable hname

theorem Named.dropColumn {column : String} (h : db.dropColumn name column = .ok db') : db'.Named := by
  obtain ⟨t, -, hname, h⟩ := table_of_bind h
  obtain ⟨-, -, h⟩ := bind_ok h
  obtain ⟨-, h⟩ := guard_ok h
  cases h
  exact hdb.setTable hname

theorem Named.renameColumn {old new : String} (h : db.renameColumn name old new = .ok db') : db'.Named := by
  obtain ⟨t, -, hname, h⟩ := table_of_bind h
  obtain ⟨-, -, h⟩ := bind_ok h
  obtain ⟨-, h⟩ := guard_ok h
  cases h
  exact hdb.setTable hname

theorem Named.copyColumn {dst src : String} (h : db.copyColumn engine name dst src = .ok db') : db'.Named := by
  obtain ⟨t, -, hname, h⟩ := table_of_bind h
  obtain ⟨-, -, h⟩ := bind_ok h
  cases h
  exact hdb.setTable hname

theorem Named.createIndex {index : Index} (h : db.createIndex index = .ok db') : db'.Named := by
  obtain ⟨t, -, -, h⟩ := table_of_bind h
  obtain ⟨-, -, h⟩ := bind_ok h
  obtain ⟨-, h⟩ := guard_ok h
  obtain ⟨-, h⟩ := guard_ok h
  cases h
  exact hdb

end

end Database

end ZeroCache.Sqlite
