import ZeroCache.Lib.SqliteShape

/-!
# What row statements leave in a table

The result of an insert, a delete or an update of a table whose columns are all known and may hold
NULL, in terms of the rows the table held before.
-/

namespace ZeroCache.Sqlite

open List Database Table

variable {engine : Engine} {db : Database} {name : String} {t : Table}

/-! ## Tables -/

theorem Database.table?_setTable (ht : db.table? name = some t) {t' : Table} (hname : t'.name = name) :
    (db.setTable name t').table? name = some t' := by
  obtain ⟨tables, indexes⟩ := db
  unfold table? setTable at *
  induction tables with
  | nil => simp at ht
  | cons u rest ih =>
    by_cases hu : u.name = name
    · simp [hu, hname]
    · rw [find?_cons_of_neg (by simpa using hu)] at ht
      rw [map_cons, if_neg (by simpa using hu), find?_cons_of_neg (by simpa using hu)]
      exact ih ht

/-- A statement on one table leaves the others alone. -/
theorem Database.table?_setTable_ne {t' : Table} (hname : t'.name = name) {other : String} (hother : other ≠ name) :
    (db.setTable name t').table? other = db.table? other := by
  unfold table? setTable
  induction db.tables with
  | nil => rfl
  | cons u rest ih =>
    by_cases hu : u.name = name
    · rw [map_cons, if_pos (by simpa using hu), find?_cons_of_neg (by simpa [hname] using hother.symm),
        find?_cons_of_neg (by simpa [hu] using hother.symm), ih]
    · rw [map_cons, if_neg (by simpa using hu), find?_cons, find?_cons, ih]

/-- Every column of a table may hold NULL. -/
def Table.Nullable (t : Table) : Prop := ∀ column ∈ t.columns, column.notNull = false

theorem Table.Nullable.nullViolation (h : t.Nullable) (row : SqlRow) : t.nullViolation row = none := by
  unfold Table.nullViolation
  rw [Option.map_eq_none_iff, find?_eq_none]
  intro column hcolumn
  simp [h column hcolumn]

theorem Table.Nullable.checkRow (h : t.Nullable) (row : SqlRow) : t.checkRow row = .ok () := by
  rw [Table.checkRow, h.nullViolation]

/-! ## Cells -/

theorem get?_columns (columns : List Column) (value : Column → SqlValue) (column : String) :
    Assoc.get? (columns.map (fun c => (c.name, value c))) column =
      (columns.find? (fun c => c.name == column)).map value := by
  induction columns with
  | nil => rfl
  | cons c rest ih =>
    rw [map_cons, Assoc.get?_cons, ih]
    by_cases hc : c.name = column
    · simp [hc]
    · simp [hc]

variable {fields : SqlRow} {column : String}

/-- An inserted row holds the bound values, coerced to their columns. -/
theorem cell_storedRow {value : SqlValue} (hcolumn : ∃ c ∈ t.columns, c.name = column)
    (hvalue : fields.get? column = some value) :
    cell (t.storedRow engine fields) column = t.coerce engine column value := by
  unfold cell storedRow coerce
  rw [get?_columns]
  cases hfind : t.columns.find? (fun c => c.name == column) with
  | none =>
    obtain ⟨c, hc, hname⟩ := hcolumn
    exact absurd (find?_eq_none.mp hfind c hc) (by simp [hname])
  | some c =>
    have hname : c.name = column := by simpa using find?_some hfind
    simp [hname, hvalue]

/-- An assigned row holds the bound values, coerced to their columns, and keeps its other cells. -/
theorem cell_assign {row : SqlRow} (hcolumn : ∃ c ∈ t.columns, c.name = column) :
    cell (assign engine t row fields) column = match fields.get? column with
      | some value => t.coerce engine column value | none => cell row column := by
  unfold assign coerce
  rw [cell, get?_columns]
  cases hfind : t.columns.find? (fun c => c.name == column) with
  | none =>
    obtain ⟨c, hc, hname⟩ := hcolumn
    exact absurd (find?_eq_none.mp hfind c hc) (by simp [hname])
  | some c =>
    have hname : c.name = column := by simpa using find?_some hfind
    cases hvalue : fields.get? column <;> simp [hname, hvalue]

/-! ## Conflicts -/

variable {keys : List (List String)}

theorem conflictFree_iff_pairwise {rows : List SqlRow} :
    conflictFree keys rows = true ↔ rows.Pairwise (fun a b => conflict keys a b = false) := by
  induction rows with
  | nil => simp [conflictFree]
  | cons row rest ih => simp [conflictFree, ih]

theorem conflict_cons (key : List String) (keys : List (List String)) (a b : SqlRow) :
    conflict (key :: keys) a b = (agreeOn key a b || conflict keys a b) := rfl

/-- Rows with the same cells in the columns of the keys conflict alike. -/
theorem conflict_congr {a b a' b' : SqlRow} (ha : ∀ key ∈ keys, ∀ column ∈ key, cell a column = cell a' column)
    (hb : ∀ key ∈ keys, ∀ column ∈ key, cell b column = cell b' column) : conflict keys a b = conflict keys a' b' := by
  refine Lib.any_congr_mem (fun key hkey => Lib.all_congr_mem (fun column hcolumn => ?_))
  rw [ha key hkey column hcolumn, hb key hkey column hcolumn]

/-! ## Statements -/

namespace Database

variable {fields : SqlRow}

/-- An insert of a row without conflict adds it at the end. -/
theorem insertOrReplace_fresh (ht : db.table? name = some t) (hnull : t.Nullable)
    (hknown : ∀ column ∈ fields.map Prod.fst, ∃ c ∈ t.columns, c.name = column)
    (hfresh : ∀ other ∈ t.rows, conflict (db.uniqueKeys t) (t.storedRow engine fields) other = false) :
    db.insertOrReplace engine name fields =
      .ok (db.setTable name { t with rows := t.rows ++ [t.storedRow engine fields] }) := by
  have hkept : t.rows.filter (fun other => !conflict (db.uniqueKeys t) (t.storedRow engine fields) other) = t.rows :=
    filter_eq_self.mpr (fun other hother => by simp [hfresh other hother])
  unfold insertOrReplace
  rw [getTable_ok_iff.mpr ht]
  dsimp only [bind, Except.bind, pure, Except.pure]
  rw [checkColumns_eq_ok_iff.mpr hknown]
  rw [hnull.checkRow]
  rw [hkept]

variable {key : SqlRow}

theorem deleteWhere_eq (ht : db.table? name = some t)
    (hknown : ∀ column ∈ key.map Prod.fst, ∃ c ∈ t.columns, c.name = column) :
    db.deleteWhere engine name key =
      .ok (db.setTable name { t with rows := t.rows.filter (fun row => !t.matchesKey engine key row) }) := by
  unfold deleteWhere
  rw [getTable_ok_iff.mpr ht]
  dsimp only [bind, Except.bind, pure, Except.pure]
  rw [checkColumns_eq_ok_iff.mpr hknown]

/-- The rows of a table after an update of those that have a key. -/
def updated (engine : Engine) (t : Table) (fields key : SqlRow) : List SqlRow :=
  t.rows.map (fun row => if t.matchesKey engine key row then assign engine t row fields else row)

theorem updateWhere_eq (ht : db.table? name = some t) (hnull : t.Nullable)
    (hknown : ∀ column ∈ fields.map Prod.fst ++ key.map Prod.fst, ∃ c ∈ t.columns, c.name = column)
    (hunique : conflictFree (db.uniqueKeys t) (updated engine t fields key) = true) :
    db.updateWhere engine name fields key =
      .ok (db.setTable name { t with rows := updated engine t fields key },
        (t.rows.filter (t.matchesKey engine key)).length) := by
  have hviolation : (updated engine t fields key).any (fun row => (t.nullViolation row).isSome) = false := by
    simp [hnull.nullViolation]
  unfold updateWhere
  rw [getTable_ok_iff.mpr ht]
  dsimp only [bind, Except.bind, pure, Except.pure]
  rw [checkColumns_eq_ok_iff.mpr hknown]
  unfold updated at hviolation hunique ⊢
  simp only [hviolation, hunique, Bool.not_true, Bool.false_eq_true, if_false]

end Database

end ZeroCache.Sqlite
