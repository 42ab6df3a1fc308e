import ZeroCache.ChangeSource.Source
import ZeroCache.Lib.SqliteRows
import ZeroCache.Replica.RowRuns

/-!
# The replica of a published table

A replicated table holds the image of every source row: the value of each column decoded, converted
and coerced to the declared type. Row messages find their row by comparing the images of the key
columns, and SQL never equates a NULL, so a change is mirrored when no key column of its old row is
stored as NULL and the key columns are all sent. Under full identity every column is a key column.
-/

namespace ZeroCache.ChangeSource

open Replica Sqlite Lib List Assoc Function RelationColumn Database ColumnSpec

/-- The name of the replicated table. -/
def Published.table (p : Published) : String := liteTableName p.schema p.name

/-- The declared type of a column. -/
def declaredType (t : Table) (column : String) : String :=
  ((t.columns.find? (fun c => c.name == column)).map Column.declType).getD ""

/-- A replica with the table of a published one: its columns and the version column, all nullable, and unique
keys over published columns only. -/
structure Host (p : Published) where
  file : ReplicaFile
  table : Table
  found : file.database.table? p.table = some table
  listed : hiddenTable p.table = false
  nullable : table.Nullable
  columns : ∀ c ∈ p.columns, ∃ column ∈ table.columns, column.name = c.name
  versioned : ∃ column ∈ table.columns, column.name = zeroVersionColumnName
  unique : ∀ key ∈ file.database.uniqueKeys table, ∀ column ∈ key, column ∈ p.columns.map RelationColumn.name

variable {p : Published}

/-- The unique keys of the replicated table. -/
def Host.uniques (host : Host p) : List (List String) := host.file.database.uniqueKeys host.table

/-- The replicated table with some rows. -/
def Host.holding (host : Host p) (rows : List SqlRow) : Table := { host.table with rows := rows }

/-- The specification of the replicated table. -/
def Host.spec (host : Host p) : LiteTableSpec := liteTableSpec host.file.database host.table

/-! ## Images of rows -/

section Images

variable (env : Env) (wire : Wire) (host : Host p)

/-- The converted value of a column. -/
def liteCell (c : RelationColumn) (row : SourceRow) : LiteValue :=
  liteValue env.stringify (wireValue wire c (row c.name)) (declaredType host.table c.name)

/-- The stored value of a column. -/
def storedCell (c : RelationColumn) (row : SourceRow) : SqlValue :=
  host.table.coerce env.engine c.name (toSqlValue (liteCell env wire host c row))

/-- Some columns of a row, converted. -/
def liteCells (columns : List RelationColumn) (row : SourceRow) : Fields LiteValue :=
  columns.map (fun c => (c.name, liteCell env wire host c row))

/-- The key of a row, as the change log prints it. -/
def logKey (row : SourceRow) : Fields JsonValue := toJsonRowKey (liteCells env wire host p.key row)

/-- The image of a row: its published columns as they are stored. -/
def image (row : SourceRow) : SqlRow := p.columns.map (fun c => (c.name, storedCell env wire host c row))

/-- A stored row is the image of a source row. -/
def Images (stored : SqlRow) (row : SourceRow) : Prop :=
  ∀ c ∈ p.columns, cell stored c.name = storedCell env wire host c row

/-- The latest entry of a row's key sets it when the source holds a row of that key and deletes it otherwise. -/
def Logged (log : List ChangeLogEntry) (rows : List SourceRow) (row : SourceRow) : Prop :=
  ∃ entry, getLatestRowOp log p.table (logKey env wire host row) = .ok (some entry) ∧
    entry.op = if rows.any (fun r => logKey env wire host r = logKey env wire host row) then .set else .del

/-- A replica mirrors the source: its table holds exactly the images of the rows, and the latest entry of
every touched row says whether it is there. -/
structure Mirrors (file : ReplicaFile) (rows touched : List SourceRow) : Prop where
  held : ∃ t listed, file.database.table? p.table = some t ∧ listed.Perm rows ∧
    List.Forall₂ (Images env wire host) t.rows listed
  logged : ∀ row ∈ touched, Logged env wire host file.changeLog rows row

/-- No two rows have the same key or break a unique key, as they are stored. -/
def Distinct (rows : List SourceRow) : Prop :=
  conflictFree (p.key.map RelationColumn.name :: host.uniques) (rows.map (image env wire host)) = true

/-- A change that finds its row: no key column of the old row is stored as NULL, and an update sends every
key column. -/
def Plain : SourceChange → Prop
  | .insert _ => True
  | .update old _ unchanged => ∀ c ∈ p.key, storedCell env wire host c old ≠ .null ∧ c.name ∉ unchanged
  | .delete old => ∀ c ∈ p.key, storedCell env wire host c old ≠ .null

end Images

/-- The rows a change is about. -/
def SourceChange.rows : SourceChange → List SourceRow
  | .insert new => [new]
  | .update old new _ => [old, new]
  | .delete old => [old]

/-! ## Cells and keys -/

variable {env : Env} {wire : Wire} {host : Host p} {c : RelationColumn}

theorem mem_of_mem_key (h : c ∈ p.key) : c ∈ p.columns := mem_of_mem_filter h

variable {unchanged : List String}

theorem mem_of_mem_sent (h : c ∈ p.sent unchanged) : c ∈ p.columns := mem_of_mem_filter h

variable {columns : List RelationColumn} {α : Type} (value : RelationColumn → α)

theorem get?_named (hsub : ∀ c ∈ columns, c ∈ p.columns) (hc : c ∈ columns) :
    get? (columns.map (fun c => (c.name, value c))) c.name = some (value c) := by
  induction columns with
  | nil => cases hc
  | cons d rest ih =>
    rw [map_cons, get?_cons]
    by_cases hd : d.name = c.name
    · obtain rfl := inj_on_of_nodup_map p.nodup (hsub d mem_cons_self) (hsub c hc) hd
      simp
    · rw [if_neg hd]
      refine ih (fun e he => hsub e (mem_cons_of_mem _ he)) ?_
      rcases mem_cons.mp hc with rfl | hmem
      · exact absurd rfl hd
      · exact hmem

theorem get?_named_none {name : String} (h : name ∉ columns.map RelationColumn.name) :
    get? (columns.map (fun c => (c.name, value c))) name = none := by
  rw [get?_eq_none]
  simpa using h

theorem cell_image (hc : c ∈ p.columns) (row : SourceRow) :
    cell (image env wire host row) c.name = storedCell env wire host c row := by
  rw [cell, image, get?_named _ (fun _ h => h) hc]
  rfl

variable {stored : SqlRow} {row : SourceRow}

theorem Images.cell_eq (h : Images env wire host stored row) {column : String}
    (hcolumn : column ∈ p.columns.map name) : cell stored column = cell (image env wire host row) column := by
  obtain ⟨c, hc, rfl⟩ := mem_map.mp hcolumn
  rw [h c hc, cell_image hc]

/-- Stored rows conflict as their images do. -/
theorem Images.conflict_eq {a b : SqlRow} {r r' : SourceRow} (ha : Images env wire host a r)
    (hb : Images env wire host b r') :
    conflict host.uniques a b = conflict host.uniques (image env wire host r) (image env wire host r') :=
  conflict_congr (fun key hkey column hcolumn => ha.cell_eq (host.unique key hkey column hcolumn))
    (fun key hkey column hcolumn => hb.cell_eq (host.unique key hkey column hcolumn))

/-- Two rows agree on the key as they are stored. -/
def sameStoredKey (env : Env) (wire : Wire) (host : Host p) (a b : SourceRow) : Bool :=
  agreeOn (p.key.map RelationColumn.name) (image env wire host a) (image env wire host b)

theorem sameStoredKey_eq (a b : SourceRow) : sameStoredKey env wire host a b =
    p.key.all (fun c => sqlEq (storedCell env wire host c a) (storedCell env wire host c b)) := by
  rw [sameStoredKey, agreeOn, all_map]
  refine all_congr_mem (fun c hc => ?_)
  rw [comp_apply, cell_image (mem_of_mem_key hc), cell_image (mem_of_mem_key hc)]

theorem boundRow_liteCells (columns : List RelationColumn) (row : SourceRow) :
    boundRow (liteCells env wire host columns row) =
      columns.map (fun c => (c.name, toSqlValue (liteCell env wire host c row))) := by
  rw [boundRow, liteCells, map_map]
  rfl

/-- A key matches a stored row when the two agree on the key. -/
theorem matchesKey_liteCells (h : Images env wire host stored row) (old : SourceRow) (rows : List SqlRow) :
    (host.holding rows).matchesKey env.engine (boundRow (liteCells env wire host p.key old)) stored =
      sameStoredKey env wire host row old := by
  rw [boundRow_liteCells, Table.matchesKey, all_map, sameStoredKey_eq]
  refine all_congr_mem (fun c hc => ?_)
  rw [comp_apply, h c (mem_of_mem_key hc)]
  rfl

theorem sameStoredKey_self (h : ∀ c ∈ p.key, storedCell env wire host c row ≠ .null) :
    sameStoredKey env wire host row row = true := by
  rw [sameStoredKey_eq, all_eq_true]
  exact fun c hc => sqlEq_self (h c hc)

/-! ## Converted rows -/

theorem get?_spec_columns {columns : List Column} {spec : Column × ℕ → ColumnSpec}
    (hspec : ∀ x, (spec x).dataType = x.1.declType) (start : ℕ) (name : String) :
    (get? ((columns.zipIdx start).map (fun x => (x.1.name, spec x))) name).map dataType =
      (columns.find? (fun c => c.name == name)).map Column.declType := by
  induction columns generalizing start with
  | nil => rfl
  | cons c rest ih =>
    rw [zipIdx_cons, map_cons, get?_cons]
    by_cases hc : c.name = name
    · simp [hc, hspec]
    · rw [if_neg hc, ih, find?_cons_of_neg (by simpa using hc)]

/-- The specification of the table has every published column, with its declared type. -/
theorem spec_column (hc : c ∈ p.columns) :
    ∃ column, host.spec.columns.get? c.name = some column ∧ column.dataType = declaredType host.table c.name := by
  have hmap : (host.spec.columns.get? c.name).map dataType =
      (host.table.columns.find? (fun column => column.name == c.name)).map Column.declType :=
    get?_spec_columns (fun _ => rfl) 0 c.name
  obtain ⟨column, hcolumn, hname⟩ := host.columns c hc
  cases hfind : host.table.columns.find? (fun column => column.name == c.name) with
  | none => exact absurd (find?_eq_none.mp hfind column hcolumn) (by simp [hname])
  | some =>
    rw [hfind, Option.map_some, Option.map_eq_some_iff] at hmap
    obtain ⟨spec, hspec, htype⟩ := hmap
    exact ⟨spec, hspec, by rw [htype, declaredType, hfind]; rfl⟩

theorem liteRow_wireRow (hsub : ∀ c ∈ columns, c ∈ p.columns) (row : SourceRow) :
    liteRow env.stringify (wireRow wire columns row) host.spec = .ok (liteCells env wire host columns row) := by
  rw [liteRow, wireRow, mapM_map]
  refine mapM_eq_ok (fun c hc => ?_)
  obtain ⟨spec, hspec, htype⟩ := spec_column (hsub c hc)
  rw [comp_apply]
  rw [hspec]
  simp only [htype, liteCell]

theorem filterMap_key {cells : Fields LiteValue}
    (h : ∀ c ∈ p.key, cells.get? c.name = some (liteCell env wire host c row)) :
    (p.key.map name).filterMap (fun c => (cells.get? c).map (fun v => (c, v))) =
      liteCells env wire host p.key row := by
  rw [filterMap_map]
  refine filterMap_eq_map_iff_forall_eq_some.mpr (fun c hc => ?_)
  simp [h c hc]

theorem getKey_default {row : Fields LiteValue} {keyColumns : List String} (h : keyColumns ≠ []) (table : String)
    (primaryKey : Option (List String)) : getKey row .default keyColumns table primaryKey =
      if row.length = keyColumns.length then .ok row
      else .ok (keyColumns.filterMap (fun c => (row.get? c).map (fun v => (c, v)))) := by
  have hempty : keyColumns.isEmpty = false := by simpa using h
  simp [getKey, hempty]

theorem keyNames_ne_nil : p.key.map name ≠ [] := by
  simpa using p.key_ne_nil

/-- The key of a row is read off any columns that include it: as many columns as the key has are the key. -/
theorem getKey_filter {q : RelationColumn → Bool} (hq : ∀ c ∈ p.columns, c.isKey = true → q c = true)
    (row : SourceRow) (primaryKey : Option (List String)) :
    getKey (liteCells env wire host (p.columns.filter q) row) .default (p.key.map name) p.table
      primaryKey = .ok (liteCells env wire host p.key row) := by
  have hkey : (p.columns.filter q).filter isKey = p.key := by
    rw [filter_filter]
    exact filter_congr (fun c hc => by simpa using hq c hc)
  have hsub : p.key.Sublist (p.columns.filter q) := hkey ▸ filter_sublist
  rw [getKey_default keyNames_ne_nil]
  split
  · next hlength =>
    have hsame : p.key = p.columns.filter q := hsub.eq_of_length (by simpa [liteCells] using hlength.symm)
    rw [← hsame]
  · rw [filterMap_key]
    intro c hc
    exact get?_named _ (fun d hd => mem_of_mem_filter hd) (hsub.subset hc)

/-- The key of an inserted row, which has the version column besides its own. -/
theorem getKey_versioned (row : SourceRow) (version : LiteValue) (primaryKey : Option (List String)) :
    getKey (liteCells env wire host p.columns row ++ [(zeroVersionColumnName, version)]) .default
      (p.key.map name) p.table primaryKey = .ok (liteCells env wire host p.key row) := by
  have hle : p.key.length ≤ p.columns.length := length_filter_le _ _
  have hlength : (liteCells env wire host p.columns row ++ [(zeroVersionColumnName, version)]).length ≠
      (p.key.map name).length := by
    simp only [length_append, liteCells, length_map, length_singleton]
    omega
  rw [getKey_default keyNames_ne_nil, if_neg hlength, filterMap_key]
  intro c hc
  rw [get?_append, liteCells, get?_named _ (fun _ h => h) (mem_of_mem_key hc)]
  rfl

/-! ## The stored rows -/

/-- A database holds the images of rows, in order. -/
structure Holds (env : Env) (wire : Wire) (host : Host p) (db : Database) (rows : List SourceRow) : Prop where
  uniques : db.uniqueKeys host.table = host.uniques
  stored : ∃ stored, db.table? p.table = some (host.holding stored) ∧
    List.Forall₂ (Images env wire host) stored rows

theorem host_name : host.table.name = p.table := name_of_table? host.found

variable {rows before : List SourceRow} {old : SourceRow}

theorem Holds.written {db : Database} {rows' : List SourceRow} (h : Holds env wire host db rows)
    {stored : List SqlRow} (hstored : List.Forall₂ (Images env wire host) stored rows') :
    Holds env wire host (db.setTable p.table (host.holding stored)) rows' := by
  obtain ⟨old, htable, -⟩ := h.stored
  exact ⟨h.uniques, stored, table?_setTable htable host_name, hstored⟩

/-- The bound values of an insert or an update, with the version. -/
def boundCells (env : Env) (wire : Wire) (host : Host p) (columns : List RelationColumn) (row : SourceRow)
    (version : String) : SqlRow :=
  boundRow (liteCells env wire host columns row ++ [(zeroVersionColumnName, .text version)])

theorem boundCells_known (hsub : ∀ c ∈ columns, c ∈ p.columns) (row : SourceRow)
    (version : String) : ∀ column ∈ (boundCells env wire host columns row version).map Prod.fst,
      ∃ c ∈ host.table.columns, c.name = column := by
  intro column hcolumn
  simp only [boundCells, boundRow, liteCells, map_append, map_map, map_cons, map_nil,
    mem_append, mem_map, mem_singleton] at hcolumn
  rcases hcolumn with ⟨c, hc, rfl⟩ | rfl
  · exact host.columns c (hsub c hc)
  · exact host.versioned

theorem get?_boundCells (hsub : ∀ c ∈ columns, c ∈ p.columns)
    (hc : c ∈ columns) (row : SourceRow) (version : String) :
    (boundCells env wire host columns row version).get? c.name = some (toSqlValue (liteCell env wire host c row)) := by
  rw [boundCells, boundRow, map_append, get?_append, ← boundRow, boundRow_liteCells, get?_named _ hsub hc]
  rfl

theorem get?_boundCells_none (hc : c ∈ p.columns)
    (hnot : c.name ∉ columns.map name) (row : SourceRow) (version : String) :
    (boundCells env wire host columns row version).get? c.name = none := by
  have hversion : zeroVersionColumnName ≠ c.name := by
    intro heq
    exact p.unversioned (heq ▸ mem_map.mpr ⟨c, hc, rfl⟩)
  rw [boundCells, boundRow, map_append, get?_append, ← boundRow, boundRow_liteCells, get?_named_none _ hnot]
  simp [get?_cons, hversion]

/-- An inserted row is the image of its source row. -/
theorem images_storedRow (row : SourceRow) (version : String) (rows : List SqlRow) :
    Images env wire host ((host.holding rows).storedRow env.engine
      (boundCells env wire host p.columns row version)) row :=
  fun c hc => cell_storedRow (t := host.holding rows) (host.columns c hc) (get?_boundCells (fun _ h => h) hc row version)

variable {new : SourceRow}

/-- An update of a row's image gives the image of the new row. -/
theorem images_assign (h : Images env wire host stored old)
    (hkept : ∀ column ∈ unchanged, new column = old column) (version : String)
    (rows : List SqlRow) : Images env wire host (assign env.engine (host.holding rows) stored
      (boundCells env wire host (p.sent unchanged) new version)) new := by
  intro c hc
  rw [cell_assign (t := host.holding rows) (host.columns c hc)]
  by_cases hsent : c.name ∈ unchanged
  · have hnot : c.name ∉ (p.sent unchanged).map name := by
      intro hmem
      obtain ⟨d, hd, hname⟩ := mem_map.mp hmem
      have hunsent : d.name ∉ unchanged := by simpa using (mem_filter.mp hd).2
      exact hunsent (hname ▸ hsent)
    rw [get?_boundCells_none hc hnot]
    have hsame : liteCell env wire host c new = liteCell env wire host c old := by
      rw [liteCell, liteCell, hkept c.name hsent]
    rw [storedCell, hsame]
    exact h c hc
  · have hmem : c ∈ p.sent unchanged := mem_filter.mpr ⟨hc, by simpa using hsent⟩
    rw [get?_boundCells (fun _ => mem_of_mem_sent) hmem]
    rfl

/-! ## Distinct rows -/

theorem Distinct.pairwise (h : Distinct env wire host rows) :
    rows.Pairwise (fun a b => sameStoredKey env wire host a b = false ∧
      conflict host.uniques (image env wire host a) (image env wire host b) = false) := by
  rw [Distinct, conflictFree_iff_pairwise, pairwise_map] at h
  refine h.imp (fun hab => ?_)
  simpa [conflict_cons, sameStoredKey] using hab

variable {after : List SourceRow}

/-- No other row of the source has the stored key of a row. -/
theorem Distinct.others (h : Distinct env wire host (before ++ old :: after)) :
    ∀ row ∈ before ++ after, sameStoredKey env wire host row old = false := by
  intro row hrow
  obtain ⟨-, hafter, hcross⟩ := pairwise_append.mp h.pairwise
  rcases mem_append.mp hrow with hmem | hmem
  · exact (hcross row hmem old mem_cons_self).1
  · have hold := ((pairwise_cons.mp hafter).1 row hmem).1
    rw [sameStoredKey, agreeOn_comm]
    exact hold

/-- The images of distinct rows break no unique key. -/
theorem Distinct.conflictFree (h : Distinct env wire host rows) {stored : List SqlRow}
    (hstored : List.Forall₂ (Images env wire host) stored rows) : conflictFree host.uniques stored = true := by
  rw [conflictFree_iff_pairwise]
  refine pairwise_of_forall₂ hstored h.pairwise (fun a b r r' ha hb hpair => ?_)
  rw [ha.conflict_eq hb]
  exact hpair.2

/-! ## One change of the stored rows -/

variable {db : Database}

/-- An insert adds the image of its row. -/
theorem Holds.insert (h : Holds env wire host db rows)
    (hdistinct : Distinct env wire host (rows ++ [new])) (version : String) :
    ∃ db', db.insertOrReplace env.engine p.table (boundCells env wire host p.columns new version) = .ok db' ∧
      Holds env wire host db' (rows ++ [new]) := by
  obtain ⟨stored, htable, hstored⟩ := h.stored
  have hnew := @images_storedRow p env wire host new version stored
  have hall : List.Forall₂ (Images env wire host) (stored ++ [(host.holding stored).storedRow env.engine
      (boundCells env wire host p.columns new version)]) (rows ++ [new]) :=
    rel_append hstored (.cons hnew .nil)
  have hfree := conflictFree_iff_pairwise.mp (hdistinct.conflictFree hall)
  refine ⟨_, insertOrReplace_fresh htable host.nullable (boundCells_known (fun _ hc => hc) new version) ?_,
    h.written hall⟩
  intro other hother
  have hkeys : db.uniqueKeys (host.holding stored) = host.uniques := h.uniques
  rw [hkeys, conflict_comm]
  exact (pairwise_append.mp hfree).2.2 other hother _ mem_cons_self

theorem key_known (old : SourceRow) : ∀ column ∈ (boundRow (liteCells env wire host p.key old)).map Prod.fst,
    ∃ c ∈ host.table.columns, c.name = column := by
  intro column hcolumn
  rw [boundRow_liteCells, map_map] at hcolumn
  obtain ⟨c, hc, rfl⟩ := mem_map.mp hcolumn
  exact host.columns c (mem_of_mem_key hc)

/-- Where a row is stored: its key matches it and no other row. -/
structure Located (env : Env) (wire : Wire) (host : Host p) (before after : List SourceRow) (old : SourceRow)
    (l₁ : List SqlRow) (a : SqlRow) (l₂ : List SqlRow) : Prop where
  before : List.Forall₂ (Images env wire host) l₁ before
  here : Images env wire host a old
  after : List.Forall₂ (Images env wire host) l₂ after
  found : (host.holding (l₁ ++ a :: l₂)).matchesKey env.engine (boundRow (liteCells env wire host p.key old)) a = true
  others : ∀ row ∈ l₁ ++ l₂,
    (host.holding (l₁ ++ a :: l₂)).matchesKey env.engine (boundRow (liteCells env wire host p.key old)) row = false

section

variable {after : List SourceRow} (h : Holds env wire host db (before ++ old :: after))
  (hdistinct : Distinct env wire host (before ++ old :: after))
  (hkey : ∀ c ∈ p.key, storedCell env wire host c old ≠ .null)

include h hdistinct hkey

theorem Holds.locate :
    ∃ l₁ a l₂, db.table? p.table = some (host.holding (l₁ ++ a :: l₂)) ∧ Located env wire host before after old l₁ a l₂ := by
  obtain ⟨stored, htable, hstored⟩ := h.stored
  obtain ⟨l₁, a, l₂, rfl, h₁, ha, h₂⟩ := forall₂_split hstored
  refine ⟨l₁, a, l₂, htable, h₁, ha, h₂, ?_, fun row hrow => ?_⟩
  · rw [matchesKey_liteCells ha]
    exact sameStoredKey_self hkey
  · obtain ⟨r, hr, himages⟩ := forall₂_exists_right (rel_append h₁ h₂) hrow
    rw [matchesKey_liteCells himages]
    exact hdistinct.others r hr

/-- A delete takes the image of its row away. -/
theorem Holds.delete :
    ∃ db', db.deleteWhere env.engine p.table (boundRow (liteCells env wire host p.key old)) = .ok db' ∧
      Holds env wire host db' (before ++ after) := by
  obtain ⟨l₁, a, l₂, htable, hloc⟩ := h.locate hdistinct hkey
  have hrows : (l₁ ++ a :: l₂).filter (fun row => !(host.holding (l₁ ++ a :: l₂)).matchesKey env.engine
      (boundRow (liteCells env wire host p.key old)) row) = l₁ ++ l₂ := by
    rw [filter_append, filter_cons_of_neg (by simp [hloc.found]),
      filter_eq_self.mpr (fun row hrow => by simp [hloc.others row (mem_append_left _ hrow)]),
      filter_eq_self.mpr (fun row hrow => by simp [hloc.others row (mem_append_right _ hrow)])]
  have hwritten : Holds env wire host (db.setTable p.table (host.holding (l₁ ++ l₂))) (before ++ after) :=
    h.written (rel_append hloc.before hloc.after)
  rw [← hrows] at hwritten
  exact ⟨_, deleteWhere_eq htable (key_known old), hwritten⟩

end

/-- An update replaces the image of its old row by that of the new one. -/
theorem Holds.update (h : Holds env wire host db (before ++ old :: after))
    (hdistinct : Distinct env wire host (before ++ old :: after))
    (hdistinct' : Distinct env wire host (before ++ new :: after))
    (hkey : ∀ c ∈ p.key, storedCell env wire host c old ≠ .null)
    (hkept : ∀ column ∈ unchanged, new column = old column) (version : String) :
    ∃ db', updateOrInsert env.engine p.table (boundCells env wire host (p.sent unchanged) new version)
        (boundRow (liteCells env wire host p.key old)) db = .ok db' ∧
      Holds env wire host db' (before ++ new :: after) := by
  obtain ⟨l₁, a, l₂, htable, hloc⟩ := h.locate hdistinct hkey
  have hall : List.Forall₂ (Images env wire host) (l₁ ++ assign env.engine (host.holding (l₁ ++ a :: l₂)) a
      (boundCells env wire host (p.sent unchanged) new version) :: l₂) (before ++ new :: after) :=
    rel_append hloc.before (.cons (images_assign hloc.here hkept version _) hloc.after)
  have hrows : updated env.engine (host.holding (l₁ ++ a :: l₂))
      (boundCells env wire host (p.sent unchanged) new version) (boundRow (liteCells env wire host p.key old)) =
      l₁ ++ assign env.engine (host.holding (l₁ ++ a :: l₂)) a
        (boundCells env wire host (p.sent unchanged) new version) :: l₂ := by
    have hheld : (host.holding (l₁ ++ a :: l₂)).rows = l₁ ++ a :: l₂ := rfl
    rw [updated, hheld, map_append, map_cons, if_pos hloc.found,
      map_congr_left (fun row hrow => if_neg (by simp [hloc.others row (mem_append_left _ hrow)])),
      map_congr_left (fun row hrow => if_neg (by simp [hloc.others row (mem_append_right _ hrow)])),
      map_id', map_id']
  have hchanges : ((host.holding (l₁ ++ a :: l₂)).rows.filter ((host.holding (l₁ ++ a :: l₂)).matchesKey env.engine
      (boundRow (liteCells env wire host p.key old)))).length ≠ 0 := by
    rw [Ne, length_eq_zero_iff]
    exact ne_nil_of_mem (mem_filter.mpr ⟨mem_append_right _ mem_cons_self, hloc.found⟩)
  have hunique : conflictFree (db.uniqueKeys (host.holding (l₁ ++ a :: l₂))) (updated env.engine
      (host.holding (l₁ ++ a :: l₂)) (boundCells env wire host (p.sent unchanged) new version)
      (boundRow (liteCells env wire host p.key old))) = true := by
    have hkeys : db.uniqueKeys (host.holding (l₁ ++ a :: l₂)) = host.uniques := h.uniques
    rw [hkeys, hrows]
    exact hdistinct'.conflictFree hall
  have hknown : ∀ column ∈ (boundCells env wire host (p.sent unchanged) new version).map Prod.fst ++
      (boundRow (liteCells env wire host p.key old)).map Prod.fst,
      ∃ c ∈ (host.holding (l₁ ++ a :: l₂)).columns, c.name = column := by
    intro column hcolumn
    rcases mem_append.mp hcolumn with hmem | hmem
    · exact boundCells_known (fun _ => mem_of_mem_sent) new version column hmem
    · exact key_known old column hmem
  refine ⟨_, ?_, h.written hall⟩
  rw [updateOrInsert, updateWhere_eq htable host.nullable hknown hunique, ok_bind]
  dsimp only
  rw [if_neg hchanges, hrows]
  rfl

end ZeroCache.ChangeSource
