import ZeroCache.Data.Value
import ZeroCache.Lib.SqliteAddress

/-!
# CRUD operations

The operations of a mutation and the statements they are turned into (`crud_ops.rs`, `sql.rs`,
`orchestration.rs`). The statements run in the order of the operations, in one transaction: an
operation that fails undoes the mutation. The values are written into the statements as literals.
-/

namespace ZeroCache.Mutagen

open Sqlite Option Assoc Prod Database Except

/-- The table, the primary key and the values of an operation. The value of a delete is the record
of its key. -/
structure RowOp where
  tableName : String
  primaryKey : List String
  value : Row

/-- An operation of a mutation. -/
inductive CrudOp where
  | insert (op : RowOp)
  | upsert (op : RowOp)
  | update (op : RowOp)
  | delete (op : RowOp)

/-- What an operation names. -/
def CrudOp.row : CrudOp → RowOp
  | .insert op | .upsert op | .update op | .delete op => op

/-- The values of the primary key, in its order, when all are there (`key_values`). -/
def keyValues (primaryKey : List String) (row : Row) : Option Row :=
  primaryKey.mapM (fun column => (Assoc.get? row column).map (fun value => (column, value)))

section

variable (engine : Engine) (stringify : JsonValue → String)

/-- A value as the literal of a statement is stored: an integral number is one without a fraction,
an array or an object is its text. -/
def valueSql : JsonValue → SqlValue
  | .null => .null
  | .bool b => .integer (if b then 1 else 0)
  | .number n => if n.den = 1 ∧ -2 ^ 63 ≤ n.num ∧ n.num < 2 ^ 63 then .integer n.num else .real n
  | .bigint n => .integer n
  | .string s => .text s
  | .array items => .text (stringify (.array items))
  | .object fields => .text (stringify (.object fields))

/-- A row of literals. -/
def rowSql (row : Row) : SqlRow := row.map (fun entry => (entry.1, valueSql stringify entry.2))

/-- A statement must not set a column twice. -/
def checkAssigned (row : Row) : Except SqlError Unit :=
  if (row.map Prod.fst).Nodup then .ok () else .error .syntaxError

/-- The statement of an operation (`get_insert_sql`, `get_upsert_sql`, `get_update_sql`,
`get_delete_sql`). A key that is not given panics in the last two, which ends the mutation too. -/
def execute (db : Database) : CrudOp → Except SqlError Database
  | .insert op => do
    checkAssigned op.value
    db.insert engine op.tableName (rowSql stringify op.value)
  | .upsert op => do
    checkAssigned op.value
    db.insertOrUpdate engine op.tableName (rowSql stringify op.value) op.primaryKey
  | .update op => do
    checkAssigned op.value
    match keyValues op.primaryKey op.value with
    | none => throw .syntaxError
    | some key =>
      let result ← db.updateWhere engine op.tableName (rowSql stringify op.value) (rowSql stringify key)
      return result.1
  | .delete op =>
    match keyValues op.primaryKey op.value with
    | none => throw .syntaxError
    | some key => db.deleteWhere engine op.tableName (rowSql stringify key)

/-- The statements of a mutation that was authorized, one after the other (`plan_mutation_sql`). -/
def executeAll (db : Database) (ops : List CrudOp) : Except SqlError Database :=
  ops.foldlM (execute engine stringify) db

end

variable {engine : Engine} {stringify : JsonValue → String} {db db' : Database} {key : Row}

/-! ## Keys -/

variable {primaryKey columns : List String} {k : KeyValue} {rows : List SqlRow}

theorem keyValues_some {row : Row} (h : keyValues primaryKey row = some key) :
    key.map fst = primaryKey ∧ ∀ entry ∈ key, get? row entry.1 = some entry.2 := by
  induction primaryKey generalizing key with
  | nil =>
    obtain rfl : [] = key := some.inj h
    simp
  | cons column rest ih =>
    rw [keyValues, List.mapM_cons] at h
    obtain ⟨entry, hentry, h⟩ := bind_eq_some_iff.mp h
    obtain ⟨value, hvalue, rfl⟩ := map_eq_some_iff.mp hentry
    obtain ⟨tail, htail, h⟩ := bind_eq_some_iff.mp h
    obtain rfl : (column, value) :: tail = key := some.inj h
    obtain ⟨hnames, hvalues⟩ := ih htail
    refine ⟨by rw [List.map_cons, hnames], fun entry hmem => ?_⟩
    rcases List.mem_cons.mp hmem with rfl | hmem
    · exact hvalue
    · exact hvalues entry hmem

theorem map_fst_rowSql (row : Row) : (rowSql stringify row).map fst = row.map fst := by
  rw [rowSql, List.map_map]
  rfl

theorem get?_rowSql (row : Row) (column : String) :
    get? (rowSql stringify row) column = (get? row column).map (valueSql stringify) :=
  get?_map (valueSql stringify) row column

/-- The values of an operation give its key. -/
theorem givesKey_rowSql {row : Row} (h : keyValues primaryKey row = some key) :
    GivesKey (rowSql stringify row) (rowSql stringify key) := by
  intro entry hentry
  obtain ⟨given, hgiven, rfl⟩ := List.mem_map.mp hentry
  rw [get?_rowSql, (keyValues_some h).2 given hgiven]
  rfl

/-! ## What an operation changes -/

/-- The row an operation is about: its table, and its key as the table stores it. -/
def addressed (engine : Engine) (stringify : JsonValue → String) (db : Database) (op : RowOp) :
    String × Option KeyValue :=
  (op.tableName, (db.table? op.tableName).bind (fun t =>
    (keyValues op.primaryKey op.value).map (fun key => t.address engine (rowSql stringify key))))

/-- The columns of the key of an operation are among those it names. -/
theorem known_of_keyValues {row : Row} {t : Table}
    (hkey : keyValues primaryKey row = some key) (hcolumns : ∀ column ∈ row.map fst, ∃ c ∈ t.columns, c.name = column) :
    ∀ column ∈ (rowSql stringify key).map fst, ∃ c ∈ t.columns, c.name = column := by
  rw [map_fst_rowSql]
  intro column hcolumn
  obtain ⟨entry, hentry, rfl⟩ := List.mem_map.mp hcolumn
  have hmem := mem_of_get? ((keyValues_some hkey).2 entry hentry)
  exact hcolumns _ (List.mem_map_of_mem hmem)

/-! ## The row an operation leaves -/

/-- A row that is changed in place is found where it was. -/
theorem lookup_map {f : SqlRow → SqlRow}
    (hkept : ∀ row, keyOf columns row ≠ k → f row = row) (hstays : ∀ row, keyOf columns row = k → keyOf columns (f row) = k) :
    lookup columns (rows.map f) k = (lookup columns rows k).map f := by
  rw [lookup, List.find?_map]
  congr 2
  funext row
  by_cases hrow : keyOf columns row = k
  · simp [hrow, hstays row hrow]
  · simp [hkept row hrow]

theorem lookup_append_none {row : SqlRow}
    (hfree : lookup columns rows k = none) (hrow : keyOf columns row = k) : lookup columns (rows ++ [row]) k = some row := by
  rw [lookup] at hfree ⊢
  rw [List.find?_append, hfree]
  simp [hrow]

/-- An insert refused no row of its key. -/
theorem lookup_of_conflict {t : Table} {fields : SqlRow} (hpk : t.primaryKey ≠ [])
    (hfree : ∀ other ∈ t.rows, conflict (db.uniqueKeys t) (t.storedRow engine fields) other = false)
    (hk : keyOf t.primaryKey (t.storedRow engine fields) = k) (hfull : k.Full) :
    lookup t.primaryKey t.rows k = none := by
  rw [lookup_eq_none]
  intro other hother hsame
  have hagree : agreeOn t.primaryKey (t.storedRow engine fields) other = true :=
    agreeOn_iff.mpr ⟨hk ▸ hfull, hk.trans hsame.symm⟩
  have hunique : t.primaryKey ∈ db.uniqueKeys t := by
    rw [uniqueKeys, if_neg (by simpa using hpk)]
    exact List.mem_append_left _ List.mem_cons_self
  have hconflict : conflict (db.uniqueKeys t) (t.storedRow engine fields) other = true :=
    List.any_eq_true.mpr ⟨_, hunique, hagree⟩
  rw [hfree other hother] at hconflict
  cases hconflict

/-- The rows of a table once the values of an operation were written over the row of its key. -/
def overwritten (engine : Engine) (stringify : JsonValue → String) (t : Table) (op : RowOp) (key : Row) : List SqlRow :=
  t.rows.map (fun row => if t.matchesKey engine (rowSql stringify key) row then
    Database.assign engine t row (rowSql stringify op.value) else row)

/-- The rows of a table once the values of an operation were inserted. -/
def appended (engine : Engine) (stringify : JsonValue → String) (t : Table) (op : RowOp) : List SqlRow :=
  t.rows ++ [t.storedRow engine (rowSql stringify op.value)]

/-- An operation wrote values, each to a column of its own, and left the given rows. -/
structure Wrote (op : RowOp) (db db' : Database) (t : Table) (rows : List SqlRow) : Prop where
  table : db.table? op.tableName = some t
  result : db' = db.setTable op.tableName { t with rows := rows }
  distinct : (op.value.map Prod.fst).Nodup
  known : ∀ column ∈ op.value.map Prod.fst, ∃ c ∈ t.columns, c.name = column

variable {op : RowOp} {t : Table}

theorem wrote_of_setTable (ht : db.table? op.tableName = some t) (hassigned : checkAssigned op.value = .ok ())
    (hknown : ∀ column ∈ (rowSql stringify op.value).map fst, ∃ c ∈ t.columns, c.name = column) :
    Wrote op db (db.setTable op.tableName { t with rows := rows }) t rows := by
  refine ⟨ht, rfl, ?_, by rwa [map_fst_rowSql] at hknown⟩
  rw [checkAssigned] at hassigned
  by_contra hdup
  rw [if_neg hdup] at hassigned
  cases hassigned

theorem Wrote.knownKey (stringify : JsonValue → String) (h : Wrote op db db' t rows)
    (hkey : keyValues op.primaryKey op.value = some key) :
    ∀ column ∈ (rowSql stringify key).map fst, ∃ c ∈ t.columns, c.name = column :=
  known_of_keyValues hkey h.known

theorem execute_insert (h : execute engine stringify db (.insert op) = .ok db') :
    ∃ t, Wrote op db db' t (appended engine stringify t op) ∧
      ∀ other ∈ t.rows, conflict (db.uniqueKeys t) (t.storedRow engine (rowSql stringify op.value)) other = false := by
  obtain ⟨⟨⟩, hassigned, h⟩ := Lib.bind_ok h
  obtain ⟨t, ht, hcolumns, hfree, rfl⟩ := insert_inv h
  exact ⟨t, wrote_of_setTable ht hassigned hcolumns, hfree⟩

theorem execute_update (h : execute engine stringify db (.update op) = .ok db')
    (hkey : keyValues op.primaryKey op.value = some key) :
    ∃ t, Wrote op db db' t (overwritten engine stringify t op key) := by
  obtain ⟨⟨⟩, hassigned, h⟩ := Lib.bind_ok h
  rw [hkey] at h
  obtain ⟨⟨db₁, n⟩, hupdate, h⟩ := Lib.bind_ok h
  obtain rfl : db₁ = db' := ok.inj h
  obtain ⟨t, ht, hcolumns, rfl⟩ := updateWhere_inv hupdate
  exact ⟨t, wrote_of_setTable ht hassigned (fun column hcolumn => hcolumns column (List.mem_append_left _ hcolumn))⟩

/-- An upsert is an update when a row has its key and an insert otherwise. -/
theorem execute_upsert (h : execute engine stringify db (.upsert op) = .ok db')
    (hkey : keyValues op.primaryKey op.value = some key) :
    ∃ t, (∃ row ∈ t.rows, t.matchesKey engine (rowSql stringify key) row = true) ∧
        Wrote op db db' t (overwritten engine stringify t op key) ∨
      (∀ row ∈ t.rows, t.matchesKey engine (rowSql stringify key) row = false) ∧
        Wrote op db db' t (appended engine stringify t op) := by
  obtain ⟨⟨⟩, hassigned, h⟩ := Lib.bind_ok h
  obtain ⟨t, ht, hcolumns, hcase⟩ := insertOrUpdate_inv h
  have hknown : ∀ column ∈ (rowSql stringify key).map fst, ∃ c ∈ t.columns, c.name = column :=
    known_of_keyValues hkey (by rwa [map_fst_rowSql] at hcolumns)
  have hagree (row : SqlRow) : agreeOn op.primaryKey (t.storedRow engine (rowSql stringify op.value)) row =
      t.matchesKey engine (rowSql stringify key) row := by
    rw [← agreeOn_storedRow (givesKey_rowSql hkey) hknown row, map_fst_rowSql, (keyValues_some hkey).1]
  simp only [hagree] at hcase
  rcases hcase with ⟨hrow, rfl⟩ | ⟨hnone, rfl⟩
  · exact ⟨t, .inl ⟨hrow, wrote_of_setTable ht hassigned hcolumns⟩⟩
  · exact ⟨t, .inr ⟨hnone, wrote_of_setTable ht hassigned hcolumns⟩⟩

/-- An executed operation changes nothing but the row it is about. -/
theorem execute_touches {op : CrudOp} (h : execute engine stringify db op = .ok db')
    (hkey : keyValues op.row.primaryKey op.row.value = some key) :
    ∃ t rows, Touches op.row.tableName op.row.primaryKey (t.address engine (rowSql stringify key)) db db' t rows ∧
      ∀ column ∈ op.row.primaryKey, ∃ c ∈ t.columns, c.name = column := by
  have hnames : (rowSql stringify key).map fst = op.row.primaryKey := by
    rw [map_fst_rowSql, (keyValues_some hkey).1]
  have hgives : GivesKey (rowSql stringify op.row.value) (rowSql stringify key) := givesKey_rowSql hkey
  rw [← hnames]
  cases op with
  | insert =>
    obtain ⟨t, hwrote, -⟩ := execute_insert h
    have hknown := hwrote.knownKey stringify hkey
    exact ⟨t, _, ⟨hwrote.table, hwrote.result, others_append (keyOf_storedRow hgives hknown)⟩, hknown⟩
  | upsert =>
    obtain ⟨t, ⟨-, hwrote⟩ | ⟨-, hwrote⟩⟩ := execute_upsert h hkey
    · have hknown := hwrote.knownKey stringify hkey
      exact ⟨t, _, ⟨hwrote.table, hwrote.result, others_update hgives hknown⟩, hknown⟩
    · have hknown := hwrote.knownKey stringify hkey
      exact ⟨t, _, ⟨hwrote.table, hwrote.result, others_append (keyOf_storedRow hgives hknown)⟩, hknown⟩
  | update =>
    obtain ⟨t, hwrote⟩ := execute_update h hkey
    have hknown := hwrote.knownKey stringify hkey
    exact ⟨t, _, ⟨hwrote.table, hwrote.result, others_update hgives hknown⟩, hknown⟩
  | delete op =>
    rw [execute, show keyValues op.primaryKey op.value = some key from hkey] at h
    obtain ⟨t, ht, hknown, rfl⟩ := deleteWhere_inv h
    exact ⟨t, _, ⟨ht, rfl, others_delete⟩, hknown⟩

/-! ## Runs -/

theorem executeAll_append {pre : List CrudOp} {op : CrudOp} (h : executeAll engine stringify db (pre ++ [op]) = .ok db') :
    ∃ before, executeAll engine stringify db pre = .ok before ∧ execute engine stringify before op = .ok db' := by
  rw [executeAll, List.foldlM_append] at h
  obtain ⟨before, hbefore, h⟩ := Lib.bind_ok h
  obtain ⟨after, hafter, h⟩ := Lib.bind_ok h
  obtain rfl : after = db' := ok.inj h
  exact ⟨before, hbefore, hafter⟩

theorem executeAll_concat {pre : List CrudOp} {op : CrudOp} {before : Database}
    (hbefore : executeAll engine stringify db pre = .ok before) (hafter : execute engine stringify before op = .ok db') :
    executeAll engine stringify db (pre ++ [op]) = .ok db' := by
  rw [executeAll, List.foldlM_append, ← executeAll, hbefore]
  simpa using hafter

/-- Operations leave the tables alone that none of them names. -/
theorem executeAll_table?_ne {ops : List CrudOp} {other : String} (h : executeAll engine stringify db ops = .ok db')
    (hkeys : ∀ op ∈ ops, (keyValues op.row.primaryKey op.row.value).isSome)
    (hother : ∀ op ∈ ops, op.row.tableName ≠ other) : db'.table? other = db.table? other := by
  induction ops using List.reverseRecOn generalizing db' with
  | nil =>
    obtain rfl : db = db' := ok.inj h
    rfl
  | append_singleton pre op ih =>
    obtain ⟨before, hbefore, hafter⟩ := executeAll_append h
    obtain ⟨key, hkey⟩ := isSome_iff_exists.mp (hkeys op (by simp))
    obtain ⟨t, rows, htouches, -⟩ := execute_touches hafter hkey
    rw [htouches.table?_ne (hother op (by simp)).symm]
    exact ih hbefore (fun a ha => hkeys a (List.mem_append_left _ ha)) (fun a ha => hother a (List.mem_append_left _ ha))

/-- Operations leave the rows of a key alone that none of them is about. -/
theorem executeAll_keeps {ops : List CrudOp} {name : String}
    (h : executeAll engine stringify db ops = .ok db') (ht : db.table? name = some t)
    (hkeys : ∀ op ∈ ops, (keyValues op.row.primaryKey op.row.value).isSome)
    (hapart : ∀ op ∈ ops, op.row.tableName = name → op.row.primaryKey = columns ∧
      ∀ key ∈ keyValues op.row.primaryKey op.row.value, t.address engine (rowSql stringify key) ≠ k) :
    ∃ rows, db'.table? name = some { t with rows := rows } ∧
      rows.filter (fun row => keyOf columns row = k) = t.rows.filter (fun row => keyOf columns row = k) := by
  induction ops using List.reverseRecOn generalizing db' with
  | nil =>
    obtain rfl : db = db' := ok.inj h
    exact ⟨t.rows, ht, rfl⟩
  | append_singleton pre op ih =>
    obtain ⟨before, hbefore, hafter⟩ := executeAll_append h
    obtain ⟨key, hkey⟩ := isSome_iff_exists.mp (hkeys op (by simp))
    obtain ⟨rows, hrows, hfilter⟩ := ih hbefore (fun a ha => hkeys a (List.mem_append_left _ ha))
      (fun a ha => hapart a (List.mem_append_left _ ha))
    obtain ⟨u, rows', htouches, -⟩ := execute_touches hafter hkey
    by_cases hname : op.row.tableName = name
    · -- The same table: the key of the operation is another one, with the columns of the table as they were.
      obtain ⟨hcolumns, hne⟩ := hapart op (by simp) hname
      obtain rfl : u = { t with rows := rows } := some.inj (htouches.table.symm.trans (hname ▸ hrows))
      refine ⟨rows', hname ▸ htouches.table?_eq, ?_⟩
      rw [← hfilter, ← hcolumns]
      exact htouches.filter_eq (hne key hkey).symm
    · refine ⟨rows, ?_, hfilter⟩
      rw [htouches.table?_ne (Ne.symm hname), hrows]

/-! ## Lookups after an operation -/

section

variable (hkey : keyValues op.primaryKey op.value = some key)
  (hknown : ∀ column ∈ op.value.map Prod.fst, ∃ c ∈ t.columns, c.name = column)

include hkey hknown

/-- Where a row has the key, the values are written over it. -/
theorem lookup_overwritten (hfull : (t.address engine (rowSql stringify key)).Full) {row : SqlRow}
    (hrow : lookup op.primaryKey t.rows (t.address engine (rowSql stringify key)) = some row) :
    lookup op.primaryKey (overwritten engine stringify t op key) (t.address engine (rowSql stringify key)) =
      some (assign engine t row (rowSql stringify op.value)) := by
  have hnames : (rowSql stringify key).map fst = op.primaryKey := by
    rw [map_fst_rowSql, (keyValues_some hkey).1]
  rw [overwritten, lookup_map, hrow, map_some,
    if_pos (matchesKey_iff.mpr ⟨hfull, by rw [hnames, keyOf_of_lookup hrow]⟩)]
  · exact fun row hne => if_neg (fun hmatch => hne (hnames ▸ (matchesKey_iff.mp hmatch).2))
  · intro row hsame
    split
    · exact hnames ▸ keyOf_assign (givesKey_rowSql hkey) (known_of_keyValues hkey hknown) row
    · exact hsame

/-- Where no row has the key, the inserted row has it. -/
theorem lookup_appended (hfree : lookup op.primaryKey t.rows (t.address engine (rowSql stringify key)) = none) :
    lookup op.primaryKey (appended engine stringify t op) (t.address engine (rowSql stringify key)) =
      some (t.storedRow engine (rowSql stringify op.value)) := by
  have hnames : (rowSql stringify key).map fst = op.primaryKey := by
    rw [map_fst_rowSql, (keyValues_some hkey).1]
  exact lookup_append_none hfree (hnames ▸ keyOf_storedRow (givesKey_rowSql hkey) (known_of_keyValues hkey hknown))

end

end ZeroCache.Mutagen
