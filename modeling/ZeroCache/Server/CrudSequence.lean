import ZeroCache.Server.CrudAuthorization

/-!
# Mutations whose operations do not meet

What it means that every operation of a mutation passes its policies when it is executed, and when the
verdict of the server says so. The server judges all operations in the state before the first one. An
operation finds this state where it matters to it as long as no earlier one is about its row and no
rule that is consulted for it reads a table that was written since.
-/

namespace ZeroCache.Auth

open Mutagen

namespace NormalizedCrudOp

/-- What an operation names. -/
def row : NormalizedCrudOp → RowOp
  | .insert op | .update op | .delete op => op

def action : NormalizedCrudOp → Action
  | .insert _ => .insert
  | .update _ => .update
  | .delete _ => .delete

/-- The columns whose cells are checked besides the row. -/
def changed : NormalizedCrudOp → List String
  | .update op => changedColumns op.value
  | _ => []

end NormalizedCrudOp

theorem row_normalizeOp (rowExists : RowOp → Bool) (op : CrudOp) : (normalizeOp rowExists op).row = op.row := by
  cases op with
  | upsert =>
    simp only [normalizeOp]
    split <;> rfl
  | insert | update | delete => rfl

theorem normalizeOp_congr {rowExists rowExists' : RowOp → Bool} {op : CrudOp} (h : rowExists op.row = rowExists' op.row) :
    normalizeOp rowExists op = normalizeOp rowExists' op := by
  cases op with
  | upsert op =>
    have hrow : rowExists op = rowExists' op := h
    rw [normalizeOp, normalizeOp, hrow]
  | insert | update | delete => rfl

end ZeroCache.Auth

namespace ZeroCache.Server

open Sqlite Zql Auth Mutagen Option Database Assoc Table

/-! ## The due verdict -/

/-- The row of an operation, as it stands in a state, passes the policies of its table. -/
def Passes (env : ReplicaEnv) (tables : Fields TablePermissionsEntry) (db : Database) (op : NormalizedCrudOp)
    (phase : Phase) : Prop :=
  ∃ key row, keyValues op.row.primaryKey op.row.value = some key ∧
    lookupReplicaRow env db op.row.tableName key = some row ∧
    canDoWithExists (policyRelatedExists (allReplicaRows env db)) (tables.get? op.row.tableName) op.action phase row
      op.changed = some true

/-- An operation was judged rightly: an upsert as what it is when it is executed, an update and a
delete by the row just before it, an insert and an update by the row just after it. -/
structure Judged (env : ReplicaEnv) (tables : Fields TablePermissionsEntry) (initial before after : Database)
    (op : CrudOp) : Prop where
  resolved : normalizeOp (replicaRowExists env initial) op = normalizeOp (replicaRowExists env before) op
  pre : (normalizeOp (replicaRowExists env before) op).action ≠ .insert →
    Passes env tables before (normalizeOp (replicaRowExists env before) op) .preMutation
  post : (normalizeOp (replicaRowExists env before) op).action ≠ .delete →
    Passes env tables after (normalizeOp (replicaRowExists env before) op) .postMutation

/-! ## Rules and the tables they read -/

mutual
/-- The tables the subqueries of a rule read. -/
def readTables : Condition → List String
  | .simple _ _ _ => []
  | .and conditions => readTablesAll conditions
  | .or conditions => readTablesAll conditions
  | .correlatedSubquery (.mk _ (.mk _ table _ where_ _ _ _ _) _ _) _ _ _ _ =>
    table :: match where_ with
      | none => []
      | some condition => readTables condition

def readTablesAll : List Condition → List String
  | [] => []
  | condition :: rest => readTables condition ++ readTablesAll rest
end

theorem mem_readTablesAll {conditions : List Condition} {condition : Condition} (h : condition ∈ conditions)
    {table : String} (htable : table ∈ readTables condition) : table ∈ readTablesAll conditions := by
  induction conditions with
  | nil => cases h
  | cons first rest ih =>
    rw [readTablesAll, List.mem_append]
    rcases List.mem_cons.mp h with rfl | hrest
    · exact .inl htable
    · exact .inr (ih hrest)

/-- Two rows are read alike. -/
def Alike (row row' : Row) : Prop := ∀ column, row.get column = row'.get column

section

variable {rows rows' : String → Option (List Row)} {row row' : Row}

theorem createSimplePredicate_alike (h : Alike row row') (op : SimpleOperator) (left right : ValuePosition) :
    (createSimplePredicate op left right).map (fun test => test row) =
      (createSimplePredicate op left right).map (fun test => test row') := by
  cases right with
  | parameter | column => rfl
  | literal right =>
    cases left with
    | parameter => rfl
    | literal left =>
      -- Two literals: the row is not read.
      unfold createSimplePredicate
      dsimp only
      split_ifs with his hisNot hnull
      · rfl
      · rfl
      · rfl
      · cases evalNonNullOp op (literalToValue left) (literalToValue right) <;> rfl
    | column name =>
      unfold createSimplePredicate
      dsimp only
      split_ifs <;> simp only [map_some, h name]

open List

theorem junctions_congr {tests tests' : List Predicate}
    (h : tests.map (fun test => test row) = tests'.map (fun test => test row')) :
    allOf tests row = allOf tests' row' ∧ anyOf tests row = anyOf tests' row' := by
  induction tests generalizing tests' with
  | nil =>
    obtain rfl := map_eq_nil_iff.mp h.symm
    exact ⟨rfl, rfl⟩
  | cons test rest ih =>
    obtain ⟨test', rest', rfl, htest, hrest⟩ := map_eq_cons_iff.mp h.symm
    obtain ⟨hall, hany⟩ := ih hrest.symm
    rw [allOf, allOf, anyOf, anyOf, htest, hall, hany]
    exact ⟨rfl, rfl⟩

section

variable {exist exist' : CorrelatedSubquery → Predicate} {conditions : List Condition}

/-- Rules with the same verdicts, in a list. -/
theorem sameVerdicts (h : ∀ c ∈ conditions, SameVerdict exist exist' row row' c) :
    (createPredicatesWithExists exist conditions).map (map (fun test => test row)) =
      (createPredicatesWithExists exist' conditions).map (map (fun test => test row')) := by
  induction conditions with
  | nil => rfl
  | cons condition rest =>
    have hfirst : SameVerdict exist exist' row row' condition := h condition mem_cons_self
    unfold SameVerdict at hfirst
    rw [createPredicatesWithExists, createPredicatesWithExists]
    cases hbuild : createPredicateWithExists exist condition <;>
      cases hbuild' : createPredicateWithExists exist' condition <;>
      cases hrests : createPredicatesWithExists exist rest <;>
      cases hrests' : createPredicatesWithExists exist' rest <;> simp_all

theorem sameVerdict_junction {combine : List Predicate → Predicate}
    (hcombine : ∀ tests tests' : List Predicate, tests.map (fun test => test row) = tests'.map (fun test => test row') →
      combine tests row = combine tests' row') (h : ∀ c ∈ conditions, SameVerdict exist exist' row row' c) :
    ((createPredicatesWithExists exist conditions).map combine).map (fun test => test row) =
      ((createPredicatesWithExists exist' conditions).map combine).map (fun test => test row') := by
  have hlists := sameVerdicts h
  cases htests : createPredicatesWithExists exist conditions with
  | none =>
    rw [htests, map_none, eq_comm, map_eq_none_iff] at hlists
    rw [hlists]
    rfl
  | some tests =>
    rw [htests, map_some, eq_comm, map_eq_some_iff] at hlists
    obtain ⟨tests', htests', hmap⟩ := hlists
    rw [htests', map_some, map_some, map_some, map_some, hcombine tests tests' hmap.symm]

end

/-- A rule says the same of rows that are read alike, where the tables it reads are the same. -/
theorem sameVerdict_of_alike (rule : Condition) (h : Alike row row') (htables : ∀ table ∈ readTables rule, rows table = rows' table) :
    SameVerdict (policyRelatedExists rows) (policyRelatedExists rows') row row' rule := by
  induction rule generalizing row row' with
  | simple op left right => exact createSimplePredicate_alike h op left right
  | and conditions ih =>
    exact sameVerdict_junction (fun _ _ h => (junctions_congr h).1)
      (fun c hc => ih c hc h (fun table htable => htables table (mem_readTablesAll hc htable)))
  | or conditions ih =>
    exact sameVerdict_junction (fun _ _ h => (junctions_congr h).2)
      (fun c hc => ih c hc h (fun table htable => htables table (mem_readTablesAll hc htable)))
  | exist related op flip scalar planId ih =>
    obtain ⟨correlation, ⟨schema, table, alias_, where_, related, start, limit, orderBy⟩, system, hidden⟩ := related
    have htable : rows table = rows' table := htables table (by cases where_ <;> simp [readTables])
    have hcorrelated (child : Row) : correlated correlation row child = correlated correlation row' child := by
      simp only [correlated, h _]
    have hexist : policyRelatedExists rows (.mk correlation
          (.mk schema table alias_ where_ related start limit orderBy) system hidden) row =
        policyRelatedExists rows' (.mk correlation
          (.mk schema table alias_ where_ related start limit orderBy) system hidden) row' := by
      rw [policyRelatedExists, policyRelatedExists, htable]
      simp only [hcorrelated]
      cases where_ with
      | none => rfl
      | some condition =>
        -- A child row is the same row on both sides, and the condition reads the same tables.
        have hverdict (child : Row) := (@ih condition rfl child child (fun _ => rfl)
          (fun table ht => htables table (by simp [readTables, ht]))).bind_eq
        simp only [policyPredicate_eq, hverdict]
    rw [SameVerdict, createPredicateWithExists, createPredicateWithExists, map_some, map_some]
    dsimp only
    rw [hexist]

end

/-- A check says the same of rows that are read alike, in states with the same tables where the rules
read. -/
theorem canDo_of_alike {env : ReplicaEnv} {tables : Fields TablePermissionsEntry} {db db' : Database}
    {op : NormalizedCrudOp} {phase : Phase} {row row' : Row} (h : Alike row row')
    (htables : ∀ rule ∈ consultedRules (tables.get? op.row.tableName) op.action phase op.changed,
      ∀ table ∈ readTables rule, db.table? table = db'.table? table) :
    canDoWithExists (policyRelatedExists (allReplicaRows env db)) (tables.get? op.row.tableName) op.action phase row
        op.changed =
      canDoWithExists (policyRelatedExists (allReplicaRows env db')) (tables.get? op.row.tableName) op.action phase row'
        op.changed := by
  refine canDoWithExists_congr (fun rule hrule => sameVerdict_of_alike rule h (fun table htable => ?_))
  unfold allReplicaRows selectAll getTable
  rw [htables rule hrule table htable]

/-! ## Looking rows up by key -/

section

variable {env : ReplicaEnv} {db : Database} {t : Table} {key : Row}

/-- Keys are bound for a lookup as they are written into statements, as far as the table can tell. -/
def BoundAsWritten (env : ReplicaEnv) (t : Table) (op : RowOp) : Prop :=
  ∀ entry ∈ op.value, entry.1 ∈ op.primaryKey →
    t.coerce env.engine entry.1 (jsonToSqlite env entry.2) = t.coerce env.engine entry.1 (valueSql env.stringify entry.2)

/-- The row a table shows. -/
def shownRow (env : ReplicaEnv) (t : Table) (row : SqlRow) : Row :=
  readRow env (project (t.columns.map Column.name) row)

theorem get_shownRow (row : SqlRow) (column : String) : (shownRow env t row).get column =
    if ∃ c ∈ t.columns, c.name = column then sqliteToJson env (cell row column) else .null := by
  have hmap : get? (shownRow env t row) column =
      (get? (project (t.columns.map Column.name) row) column).map (sqliteToJson env) :=
    get?_map (sqliteToJson env) _ column
  rw [Row.get, hmap]
  split
  · next hknown =>
    obtain ⟨c, hc, rfl⟩ := hknown
    rw [get?_project (List.mem_map_of_mem hc)]
    rfl
  · next hunknown =>
    have hnone : get? (project (t.columns.map Column.name) row) column = none := by
      rw [get?_eq_none]
      simpa [project] using hunknown
    rw [hnone]
    rfl

theorem lookupReplicaRow_eq {name : String} (hne : key ≠ []) (ht : db.table? name = some t)
    (hknown : ∀ column ∈ key.map Prod.fst, ∃ c ∈ t.columns, c.name = column) : lookupReplicaRow env db name key =
      (t.rows.find? (t.matchesIs env.engine (boundKey env key))).map (shownRow env t) := by
  have hnames : (boundKey env key).map Prod.fst = key.map Prod.fst := by
    rw [boundKey, List.map_map]
    rfl
  rw [lookupReplicaRow, if_neg (by simpa using hne), selectFirst_ok ht (by rwa [hnames])]
  simp only [Except.toOption, join_some, map_map]
  rfl

/-- An operation names the primary key of a table, whose columns are there, and gives its values. -/
structure Located (env : ReplicaEnv) (db : Database) (op : RowOp) (t : Table) (key : Row) : Prop where
  table : db.table? op.tableName = some t
  primaryKey : t.primaryKey = op.primaryKey
  nonempty : op.primaryKey ≠ []
  given : keyValues op.primaryKey op.value = some key
  known : ∀ column ∈ op.primaryKey, ∃ c ∈ t.columns, c.name = column
  bound : BoundAsWritten env t op

/-- The key of an operation, as its table stores it. -/
def storedKey (env : ReplicaEnv) (t : Table) (key : Row) : KeyValue := t.address env.engine (rowSql env.stringify key)

namespace Located

variable {op : RowOp} (h : Located env db op t key)

include h

open Prod

theorem key_names : key.map fst = op.primaryKey := (keyValues_some h.given).1

theorem key_ne_nil : key ≠ [] := by
  rintro rfl
  exact h.nonempty h.key_names.symm

/-- The key is among the values. -/
theorem key_mem {entry : String × JsonValue} (hentry : entry ∈ key) : entry ∈ op.value ∧ entry.1 ∈ op.primaryKey :=
  ⟨mem_of_get? ((keyValues_some h.given).2 entry hentry), h.key_names ▸ List.mem_map_of_mem hentry⟩

theorem address_boundKey : t.address env.engine (boundKey env key) = storedKey env t key := by
  rw [storedKey, address, address, boundKey, rowSql, List.map_map, List.map_map]
  refine List.map_congr_left (fun entry hentry => ?_)
  obtain ⟨hmem, hpk⟩ := h.key_mem hentry
  exact congrArg comparand (h.bound entry hmem hpk)

theorem matchesIs_eq (row : SqlRow) :
    t.matchesIs env.engine (boundKey env key) row = decide (keyOf op.primaryKey row = storedKey env t key) := by
  have hnames : (boundKey env key).map fst = op.primaryKey := by
    rw [boundKey, List.map_map, ← h.key_names]
    rfl
  rw [Bool.eq_iff_iff, matchesIs_iff, decide_eq_true_eq, hnames, h.address_boundKey]

theorem matchesKey_iff (row : SqlRow) :
    t.matchesKey env.engine (rowSql env.stringify key) row = true ↔
      (storedKey env t key).Full ∧ keyOf op.primaryKey row = storedKey env t key := by
  rw [Sqlite.matchesKey_iff, map_fst_rowSql, h.key_names]
  rfl

/-- The server finds the row of the key. -/
theorem lookup_eq : lookupReplicaRow env db op.tableName key =
    (lookup op.primaryKey t.rows (storedKey env t key)).map (shownRow env t) := by
  rw [lookupReplicaRow_eq h.key_ne_nil h.table (by rw [h.key_names]; exact h.known), lookup]
  simp only [h.matchesIs_eq]

/-- The values of the primary key, in the order of the operation, are the key. -/
theorem mem_filter_iff (hdistinct : (op.value.map fst).Nodup) (entry : String × JsonValue) :
    entry ∈ op.value.filter (fun entry => op.primaryKey.contains entry.1) ↔ entry ∈ key := by
  rw [List.mem_filter, List.contains_iff_mem]
  constructor
  · rintro ⟨hmem, hpk⟩
    obtain ⟨given, hgiven, hname⟩ := List.mem_map.mp (h.key_names.symm ▸ hpk)
    obtain ⟨hgivenMem, -⟩ := h.key_mem hgiven
    rwa [← List.inj_on_of_nodup_map hdistinct hgivenMem hmem hname]
  · exact fun hmem => h.key_mem hmem

/-- An update looks its row up by its key. -/
theorem lookup_filter (hdistinct : (op.value.map fst).Nodup) :
    lookupReplicaRow env db op.tableName (op.value.filter (fun entry => op.primaryKey.contains entry.1)) =
      lookupReplicaRow env db op.tableName key := by
  have hsame := h.mem_filter_iff hdistinct
  have hne : op.value.filter (fun entry => op.primaryKey.contains entry.1) ≠ [] := by
    obtain ⟨entry, hentry⟩ := List.exists_mem_of_ne_nil _ h.key_ne_nil
    exact List.ne_nil_of_mem ((hsame entry).mpr hentry)
  have hknown : ∀ column ∈ (op.value.filter (fun entry => op.primaryKey.contains entry.1)).map fst,
      ∃ c ∈ t.columns, c.name = column := by
    intro column hcolumn
    obtain ⟨entry, hentry, rfl⟩ := List.mem_map.mp hcolumn
    exact h.known _ (h.key_mem ((hsame entry).mp hentry)).2
  have hmatches : t.matchesIs env.engine (boundKey env (op.value.filter (fun entry => op.primaryKey.contains entry.1))) =
      t.matchesIs env.engine (boundKey env key) := by
    funext row
    rw [Bool.eq_iff_iff, matchesIs, matchesIs, boundKey, boundKey, List.all_map, List.all_map,
      List.all_eq_true, List.all_eq_true]
    exact forall_congr' (fun entry => by rw [hsame entry])
  rw [lookupReplicaRow_eq hne h.table hknown,
    lookupReplicaRow_eq h.key_ne_nil h.table (by rw [h.key_names]; exact h.known), hmatches]

/-- A delete that finds a row with its whole record finds the row of its key. -/
theorem lookup_record (hkeyed : KeyedRows op.primaryKey t.rows) {row : Row}
    (hrow : lookupReplicaRow env db op.tableName op.value = some row) :
    lookupReplicaRow env db op.tableName key = some row := by
  unfold lookupReplicaRow at hrow
  split at hrow
  · cases hrow
  · obtain ⟨shown, hshown, rfl⟩ := map_eq_some_iff.mp hrow
    have hselect : db.selectFirst env.engine op.tableName (boundKey env op.value) = .ok (some shown) := by
      cases hresult : db.selectFirst env.engine op.tableName (boundKey env op.value) with
      | error => simp [hresult, Except.toOption] at hshown
      | ok => simpa [hresult, Except.toOption] using hshown
    obtain ⟨u, hu, hselect⟩ := Lib.bind_ok hselect
    obtain rfl : u = t := some.inj ((getTable_ok_iff.mp hu).symm.trans h.table)
    obtain ⟨⟨⟩, -, hselect⟩ := Lib.bind_ok hselect
    obtain ⟨stored, hfind, rfl⟩ := map_eq_some_iff.mp (Except.ok.inj hselect)
    -- The record has the key, so the row it selects has it, and no other row does.
    have hmatches := List.find?_some hfind
    rw [matchesIs, boundKey, List.all_map, List.all_eq_true] at hmatches
    have hkey : u.matchesIs env.engine (boundKey env key) stored = true := by
      rw [matchesIs, boundKey, List.all_map, List.all_eq_true]
      exact fun entry hentry => hmatches entry (h.key_mem hentry).1
    rw [h.matchesIs_eq, decide_eq_true_eq] at hkey
    rw [h.lookup_eq, ← hkey, hkeyed.lookup_of_mem (List.mem_of_find?_eq_some hfind)]
    rfl

end Located

/-! ## The row an operation leaves -/

/-- What an operation writes is read as it was given. A column an insert leaves out reads as null. -/
def ReadsAsGiven (env : ReplicaEnv) (t : Table) : NormalizedCrudOp → Prop
  | .insert op => ∀ column ∈ t.columns,
      sqliteToJson env (cell (t.storedRow env.engine (rowSql env.stringify op.value)) column.name) = op.value.get column.name
  | .update op => ∀ entry ∈ op.value,
      sqliteToJson env (t.coerce env.engine entry.1 (valueSql env.stringify entry.2)) = entry.2
  | .delete _ => True

theorem get_none_of_unknown {value : Row} {column : String} (hunknown : ¬ ∃ c ∈ t.columns, c.name = column)
    (hknown : ∀ column ∈ value.map Prod.fst, ∃ c ∈ t.columns, c.name = column) : get? value column = none :=
  get?_eq_none.mpr (fun hmem => hunknown (hknown _ hmem))

/-- Values written over a row, without a column twice. -/
theorem get_foldl_set {value : Row} (hdistinct : (value.map Prod.fst).Nodup) (row : Row) (column : String) :
    (value.foldl (fun row entry => row.set entry.1 entry.2) row : Row).get column =
      ((get? value column).or (get? row column)).getD .null := by
  rw [Row.get, get?_foldl_set Prod.fst Prod.snd row (fun a ha b hb hab => by
    rw [List.inj_on_of_nodup_map hdistinct ha hb hab])]
  rfl

/-- An inserted row is read as its values. -/
theorem alike_storedRow {op : RowOp} (hknown : ∀ column ∈ op.value.map Prod.fst, ∃ c ∈ t.columns, c.name = column)
    (hreads : ReadsAsGiven env t (.insert op)) :
    Alike (shownRow env t (t.storedRow env.engine (rowSql env.stringify op.value))) op.value := by
  intro column
  rw [get_shownRow]
  split
  · next hcolumn =>
    obtain ⟨c, hc, rfl⟩ := hcolumn
    exact hreads c hc
  · next hunknown =>
    rw [Row.get, get_none_of_unknown hunknown hknown]
    rfl

/-- An updated row is read as its values over the row that was there. -/
theorem alike_assign {op : RowOp} (hdistinct : (op.value.map Prod.fst).Nodup)
    (hknown : ∀ column ∈ op.value.map Prod.fst, ∃ c ∈ t.columns, c.name = column)
    (hreads : ReadsAsGiven env t (.update op)) (row : SqlRow) :
    Alike (shownRow env t (assign env.engine t row (rowSql env.stringify op.value)))
      (op.value.foldl (fun row entry => row.set entry.1 entry.2) (shownRow env t row)) := by
  intro column
  rw [get_foldl_set hdistinct, get_shownRow]
  split
  · next hcolumn =>
    rw [cell_assign hcolumn, get?_rowSql]
    cases hvalue : get? op.value column with
    | none =>
      have hrow : (shownRow env t row).get column = sqliteToJson env (cell row column) := by
        rw [get_shownRow, if_pos hcolumn]
      exact hrow.symm
    | some value => exact hreads (column, value) (mem_of_get? hvalue)
  · next hunknown =>
    have hrow : (shownRow env t row).get column = .null := by
      rw [get_shownRow, if_neg hunknown]
    rw [get_none_of_unknown hunknown hknown]
    exact hrow.symm

end

/-! ## Independent operations -/

/-- The tables the rules read that are consulted for an operation. -/
def tablesConsulted (tables : Fields TablePermissionsEntry) (op : NormalizedCrudOp) (phase : Phase) : List String :=
  (consultedRules (tables.get? op.row.tableName) op.action phase op.changed).flatMap readTables

/-- The operations do not meet. The replica is a database whose primary keys identify its rows; no two
operations are about one row; no rule consulted for an operation reads a table that was written by
then; and what is written is read as it was given. -/
structure Independent (env : ReplicaEnv) (tables : Fields TablePermissionsEntry) (db : Database) (ops : List CrudOp) :
    Prop where
  named : db.Named
  keyed : ∀ t ∈ db.tables, t.primaryKey ≠ [] → KeyedRows t.primaryKey t.rows
  apart : ops.Pairwise (fun a b =>
    addressed env.engine env.stringify db a.row ≠ addressed env.engine env.stringify db b.row)
  rules : ∀ pre op post, ops = pre ++ op :: post →
    (∀ earlier ∈ pre, earlier.row.tableName ∉
      tablesConsulted tables (normalizeOp (replicaRowExists env db) op) .preMutation) ∧
    ∀ earlier ∈ pre ++ [op], earlier.row.tableName ∉
      tablesConsulted tables (normalizeOp (replicaRowExists env db) op) .postMutation
  bound : ∀ op ∈ ops, ∀ t ∈ db.table? op.row.tableName, BoundAsWritten env t op.row
  values : ∀ op ∈ ops, ∀ t ∈ db.table? op.row.tableName,
    ReadsAsGiven env t (normalizeOp (replicaRowExists env db) op)

section

variable {env : ReplicaEnv} {tables : Fields TablePermissionsEntry} {db before after : Database} {op : CrudOp} {t : Table}
  {key : Row}

/-- Every operation of a mutation that fits the replica names the primary key of a table. -/
theorem opsMatchReplicaSchema_spec {ops : List CrudOp} (hnamed : db.Named) (h : opsMatchReplicaSchema env db ops = true)
    (hop : op ∈ ops) : ∃ t key, db.table? op.row.tableName = some t ∧ t.primaryKey = op.row.primaryKey ∧
      op.row.primaryKey ≠ [] ∧ keyValues op.row.primaryKey op.row.value = some key := by
  rw [opsMatchReplicaSchema, List.all_eq_true] at h
  obtain ⟨hkey, hvalues⟩ := Bool.and_eq_true_iff.mp (h op hop)
  rw [decide_eq_true_eq] at hkey
  obtain ⟨key, hvalues⟩ := isSome_iff_exists.mp hvalues
  obtain ⟨t, ht, hentry⟩ := List.mem_map.mp (mem_of_get? hkey)
  obtain ⟨hmem, hlisted⟩ := List.mem_filter.mp ht
  obtain ⟨hname, hpk⟩ := Prod.mk.inj hentry
  obtain ⟨-, hnonempty⟩ := Bool.and_eq_true_iff.mp hlisted
  refine ⟨t, key, ?_, hpk, hpk ▸ by simpa using hnonempty, hvalues⟩
  cases htable : db.table? op.row.tableName with
  | none => exact absurd (List.find?_eq_none.mp htable t hmem) (by simp [hname])
  | some => rw [hnamed.eq_of_table? htable hmem hname]

/-- The row of an operation that passed its first check, in the state it was checked in. -/
theorem passes_of_passesPreMutation {op : NormalizedCrudOp} (h : Located env db op.row t key)
    (hkeyed : KeyedRows op.row.primaryKey t.rows) (hdistinct : op.action = .update → (op.row.value.map Prod.fst).Nodup)
    (hpasses : passesPreMutation tables (lookupReplicaRow env db) (policyRelatedExists (allReplicaRows env db)) op =
      some true) (hinsert : op.action ≠ .insert) : Passes env tables db op .preMutation := by
  cases op with
  | insert => exact absurd rfl hinsert
  | update op =>
    have hlocated : Located env db op t key := h
    rw [passesPreMutation, hlocated.lookup_filter (hdistinct rfl)] at hpasses
    split at hpasses
    · cases hpasses
    · next row hrow => exact ⟨key, row, h.given, hrow, hpasses⟩
  | delete =>
    rw [passesPreMutation] at hpasses
    split at hpasses
    · cases hpasses
    · next row hrow => exact ⟨key, row, h.given, h.lookup_record hkeyed hrow, hpasses⟩

/-- A written row is found by its key. -/
theorem lookup_of_wrote {op : RowOp} {rows : List SqlRow} (h : Located env before op t key)
    (hwrote : Wrote op before after t rows) {row : SqlRow}
    (hrow : lookup op.primaryKey rows (storedKey env t key) = some row) :
    lookupReplicaRow env after op.tableName key = some (shownRow env t row) := by
  have htable : after.table? op.tableName = some { t with rows := rows } := by
    have hname := name_of_table? h.table
    rw [hwrote.result]
    exact table?_setTable h.table hname
  have hlocated : Located env after op { t with rows := rows } key :=
    ⟨htable, h.primaryKey, h.nonempty, h.given, h.known, h.bound⟩
  exact hlocated.lookup_eq.trans (congrArg (Option.map (shownRow env t)) hrow)

/-- Values written over the row of their key leave the row the server expected. -/
theorem resulting_overwritten {op : RowOp} (h : Located env before op t key)
    (hwrote : Wrote op before after t (overwritten env.engine env.stringify t op key))
    (hfull : (storedKey env t key).Full) {row : SqlRow}
    (hrow : lookup op.primaryKey t.rows (storedKey env t key) = some row)
    (hsame : lookupReplicaRow env db op.tableName key = lookupReplicaRow env before op.tableName key)
    (hreads : ReadsAsGiven env t (.update op)) : ∃ shown, lookupReplicaRow env after op.tableName key = some shown ∧
      Alike shown (resultingReplicaRow env db (.update op)) := by
  refine ⟨_, lookup_of_wrote h hwrote (lookup_overwritten h.given hwrote.known hfull hrow), ?_⟩
  have hresulting : resultingReplicaRow env db (.update op) =
      op.value.foldl (fun row entry => row.set entry.1 entry.2) (shownRow env t row) := by
    rw [resultingReplicaRow, h.given, bind_some, hsame, h.lookup_eq, hrow]
    rfl
  rw [hresulting]
  exact alike_assign hwrote.distinct hwrote.known hreads row

/-- Values inserted at a free key leave the row the server expected. -/
theorem resulting_appended {op : RowOp} (h : Located env before op t key)
    (hwrote : Wrote op before after t (appended env.engine env.stringify t op))
    (hfree : lookup op.primaryKey t.rows (storedKey env t key) = none) (hreads : ReadsAsGiven env t (.insert op)) :
    ∃ shown, lookupReplicaRow env after op.tableName key = some shown ∧
      Alike shown (resultingReplicaRow env db (.insert op)) :=
  ⟨_, lookup_of_wrote h hwrote (lookup_appended h.given hwrote.known hfree), alike_storedRow hwrote.known hreads⟩

/-- The table of an operation before it is executed: as at first, apart from rows of other keys. -/
structure Untouched (env : ReplicaEnv) (db before : Database) (op : RowOp) (t : Table) (key : Row)
    (rows : List SqlRow) : Prop where
  initial : Located env db op t key
  current : Located env before op { t with rows := rows } key
  keyed : KeyedRows op.primaryKey t.rows
  filter_eq : rows.filter (fun row => keyOf op.primaryKey row = storedKey env t key) =
    t.rows.filter (fun row => keyOf op.primaryKey row = storedKey env t key)

namespace Untouched

variable {rows : List SqlRow}

section

variable {op : RowOp} (h : Untouched env db before op t key rows)

include h

theorem lookup_eq :
    lookup op.primaryKey rows (storedKey env t key) = lookup op.primaryKey t.rows (storedKey env t key) := by
  rw [lookup, lookup, ← List.head?_filter, h.filter_eq, List.head?_filter]

theorem lookupReplicaRow_eq :
    lookupReplicaRow env db op.tableName key = lookupReplicaRow env before op.tableName key := by
  rw [h.initial.lookup_eq, h.current.lookup_eq]
  exact congrArg (Option.map (shownRow env t)) h.lookup_eq.symm

theorem rowExists_eq : replicaRowExists env db op = replicaRowExists env before op := by
  rw [replicaRowExists, replicaRowExists, h.initial.given, bind_some, bind_some, h.lookupReplicaRow_eq]

/-- A key that has a row has no NULL in it. -/
theorem full_of_lookup {row : SqlRow}
    (hrow : lookup op.primaryKey rows (storedKey env t key) = some row) : (storedKey env t key).Full := by
  rw [h.lookup_eq] at hrow
  rw [← keyOf_of_lookup hrow]
  exact h.keyed.full row (mem_of_lookup hrow)

theorem rowExists_iff : replicaRowExists env db op = (lookup op.primaryKey rows (storedKey env t key)).isSome := by
  rw [replicaRowExists, h.initial.given, bind_some, h.initial.lookup_eq, isSome_map, h.lookup_eq]

theorem resulting_update (hwrote : Wrote op before after { t with rows := rows }
      (overwritten env.engine env.stringify { t with rows := rows } op key))
    (hexists : replicaRowExists env db op = true) (hreads : ReadsAsGiven env t (.update op)) :
    ∃ shown, lookupReplicaRow env after op.tableName key = some shown ∧
      Alike shown (resultingReplicaRow env db (.update op)) := by
  obtain ⟨row, hrow⟩ := isSome_iff_exists.mp (h.rowExists_iff ▸ hexists)
  exact resulting_overwritten h.current hwrote (h.full_of_lookup hrow) hrow h.lookupReplicaRow_eq hreads

end

/-- An executed operation leaves the row the server expected of it. -/
theorem resulting (h : Untouched env db before op.row t key rows)
    (hexecute : execute env.engine env.stringify before op = .ok after)
    (hreads : ReadsAsGiven env t (normalizeOp (replicaRowExists env db) op))
    (hupdate : (normalizeOp (replicaRowExists env db) op).action = .update → replicaRowExists env db op.row = true)
    (hdelete : (normalizeOp (replicaRowExists env db) op).action ≠ .delete) :
    ∃ shown, lookupReplicaRow env after op.row.tableName key = some shown ∧
      Alike shown (resultingReplicaRow env db (normalizeOp (replicaRowExists env db) op)) := by
  cases op with
  | insert op =>
    obtain ⟨u, hwrote, hfree⟩ := execute_insert hexecute
    obtain rfl : u = { t with rows := rows } := some.inj (hwrote.table.symm.trans h.current.table)
    refine resulting_appended h.current hwrote ?_ hreads
    -- A row of the key would conflict with the new one: its key has no NULL.
    by_contra hsome
    obtain ⟨row, hrow⟩ := ne_none_iff_exists'.mp hsome
    have hkey : keyOf t.primaryKey (storedRow env.engine { t with rows := rows } (rowSql env.stringify op.value)) =
        storedKey env t key := by
      have hknown := hwrote.knownKey env.stringify h.initial.given
      have hstored := @keyOf_storedRow env.engine { t with rows := rows } _ _ (givesKey_rowSql h.initial.given) hknown
      rwa [map_fst_rowSql, h.initial.key_names, ← h.initial.primaryKey] at hstored
    have hnone := lookup_of_conflict (h.initial.primaryKey ▸ h.initial.nonempty) hfree hkey (h.full_of_lookup hrow)
    have hpk : t.primaryKey = op.primaryKey := h.initial.primaryKey
    cases (hpk ▸ hnone).symm.trans hrow
  | upsert op =>
    have hiff : replicaRowExists env db op = (lookup op.primaryKey rows (storedKey env t key)).isSome := h.rowExists_iff
    obtain ⟨u, hcase⟩ := execute_upsert hexecute h.initial.given
    rcases hcase with ⟨⟨row, hmem, hmatches⟩, hwrote⟩ | ⟨hmiss, hwrote⟩
    · obtain rfl : u = { t with rows := rows } := some.inj (hwrote.table.symm.trans h.current.table)
      have hexists : replicaRowExists env db op = true := by
        rw [hiff, lookup, List.find?_isSome]
        exact ⟨row, hmem, decide_eq_true ((h.current.matchesKey_iff row).mp hmatches).2⟩
      rw [normalizeOp, if_pos hexists] at hreads ⊢
      exact h.resulting_update hwrote hexists hreads
    · obtain rfl : u = { t with rows := rows } := some.inj (hwrote.table.symm.trans h.current.table)
      have hnone : lookup op.primaryKey rows (storedKey env t key) = none := by
        by_contra hsome
        obtain ⟨row, hrow⟩ := ne_none_iff_exists'.mp hsome
        have hmatches := (h.current.matchesKey_iff row).mpr ⟨h.full_of_lookup hrow, keyOf_of_lookup hrow⟩
        rw [hmiss row (mem_of_lookup hrow)] at hmatches
        cases hmatches
      have hexists : ¬ replicaRowExists env db op = true := by
        rw [hiff, hnone]
        exact Bool.false_ne_true
      rw [normalizeOp, if_neg hexists] at hreads ⊢
      exact resulting_appended h.current hwrote hnone hreads
  | update =>
    obtain ⟨u, hwrote⟩ := execute_update hexecute h.initial.given
    obtain rfl : u = { t with rows := rows } := some.inj (hwrote.table.symm.trans h.current.table)
    exact h.resulting_update hwrote (hupdate rfl) hreads
  | delete => exact absurd rfl hdelete

end Untouched

/-- An operation of independent ones finds its row as it was at first. -/
theorem Independent.untouched {ops pre post : List CrudOp} (h : Independent env tables db ops)
    (hmatch : opsMatchReplicaSchema env db ops = true) (hops : ops = pre ++ op :: post)
    (hbefore : executeAll env.engine env.stringify db pre = .ok before)
    (hafter : execute env.engine env.stringify before op = .ok after) :
    ∃ t key rows, Untouched env db before op.row t key rows := by
  have hop : op ∈ ops := by simp [hops]
  have hpre : ∀ earlier ∈ pre, earlier ∈ ops := fun earlier he => by simp [hops, he]
  obtain ⟨t, key, ht, hpk, hne, hkey⟩ := opsMatchReplicaSchema_spec h.named hmatch hop
  have hgiven : ∀ earlier ∈ pre, (keyValues earlier.row.primaryKey earlier.row.value).isSome := by
    intro earlier he
    obtain ⟨-, k, -, -, -, hk⟩ := opsMatchReplicaSchema_spec h.named hmatch (hpre earlier he)
    rw [hk]
    rfl
  have hapart : ∀ earlier ∈ pre, earlier.row.tableName = op.row.tableName →
      earlier.row.primaryKey = op.row.primaryKey ∧ ∀ k ∈ keyValues earlier.row.primaryKey earlier.row.value,
        t.address env.engine (rowSql env.stringify k) ≠ storedKey env t key := by
    intro earlier he hname
    obtain ⟨u, -, hu, hupk, -, -⟩ := opsMatchReplicaSchema_spec h.named hmatch (hpre earlier he)
    obtain rfl : u = t := some.inj (hu.symm.trans (hname ▸ ht))
    refine ⟨hupk.symm.trans hpk, fun k hk hsame => ?_⟩
    have hdiffer := (List.pairwise_append.mp (hops ▸ h.apart)).2.2 earlier he op List.mem_cons_self
    refine hdiffer ?_
    rw [addressed, addressed, hname, ht, bind_some, hk, hkey, map_some, hsame]
    rfl
  obtain ⟨rows, hrows, hfilter⟩ := executeAll_keeps hbefore ht hgiven hapart
  obtain ⟨u, _, htouches, hknown⟩ := execute_touches hafter hkey
  obtain rfl : u = { t with rows := rows } := some.inj (htouches.table.symm.trans hrows)
  have hbound := h.bound op hop t ht
  exact ⟨t, key, rows, ⟨ht, hpk, hne, hkey, hknown, hbound⟩, ⟨hrows, hpk, hne, hkey, hknown, hbound⟩,
    hpk ▸ h.keyed t (mem_of_table? ht) (hpk ▸ hne), hfilter⟩

/-- An update that was executed sets no column twice. -/
theorem distinct_of_execute (hafter : execute env.engine env.stringify before op = .ok after)
    (hkey : keyValues op.row.primaryKey op.row.value = some key) {rowExists : RowOp → Bool}
    (haction : (normalizeOp rowExists op).action = .update) : (op.row.value.map Prod.fst).Nodup := by
  cases op with
  | insert | delete => cases haction
  | update =>
    obtain ⟨t, hwrote⟩ := execute_update hafter hkey
    exact hwrote.distinct
  | upsert =>
    obtain ⟨t, ⟨-, hwrote⟩ | ⟨-, hwrote⟩⟩ := execute_upsert hafter hkey
    · exact hwrote.distinct
    · exact hwrote.distinct

/-- The second check of an operation, as one check. -/
theorem canDo_of_passesPostMutation {op : NormalizedCrudOp} {resultingRow : NormalizedCrudOp → Row}
    {exist : CorrelatedSubquery → Predicate} (h : passesPostMutation tables resultingRow exist op = some true)
    (hdelete : op.action ≠ .delete) :
    canDoWithExists exist (tables.get? op.row.tableName) op.action .postMutation (resultingRow op) op.changed =
      some true := by
  cases op with
  | insert | update => exact h
  | delete => exact absurd rfl hdelete

/-- The tables the rules read are as at first when no executed operation wrote them. -/
theorem table?_consulted {ops : List CrudOp} {op : NormalizedCrudOp} {phase : Phase}
    (hrun : executeAll env.engine env.stringify db ops = .ok after)
    (hkeys : ∀ earlier ∈ ops, (keyValues earlier.row.primaryKey earlier.row.value).isSome)
    (hunread : ∀ earlier ∈ ops, earlier.row.tableName ∉ tablesConsulted tables op phase) :
    ∀ rule ∈ consultedRules (tables.get? op.row.tableName) op.action phase op.changed, ∀ table ∈ readTables rule,
      after.table? table = db.table? table := by
  intro rule hrule table htable
  refine executeAll_table?_ne hrun hkeys (fun earlier he hname => hunread earlier he ?_)
  rw [hname]
  exact List.mem_flatMap.mpr ⟨rule, hrule, htable⟩

end

/-- Every operation that is executed was judged rightly. -/
def JudgedThroughout (env : ReplicaEnv) (tables : Fields TablePermissionsEntry) (db : Database) (ops : List CrudOp) : Prop :=
  ∀ pre op post before after, ops = pre ++ op :: post → executeAll env.engine env.stringify db pre = .ok before →
    execute env.engine env.stringify before op = .ok after → Judged env tables db before after op

section

variable {env : ReplicaEnv} {authData : JsonValue} {permissions : PermissionsConfig} {db : Database} {ops : List CrudOp}

/-- An accepted mutation fits the replica, and each of its operations passed both checks. -/
theorem authorizeCrudOps_accepts (h : authorizeCrudOps env authData (some permissions) db ops = some true) :
    opsMatchReplicaSchema env db ops = true ∧ ∀ op ∈ ops,
      passesPreMutation ((boundTables env authData permissions).getD []) (lookupReplicaRow env db)
          (policyRelatedExists (allReplicaRows env db)) (normalizeOp (replicaRowExists env db) op) = some true ∧
        passesPostMutation ((boundTables env authData permissions).getD []) (resultingReplicaRow env db)
          (policyRelatedExists (allReplicaRows env db)) (normalizeOp (replicaRowExists env db) op) = some true := by
  rw [authorizeCrudOps] at h
  split at h
  · cases h
  · next hmatch =>
    refine ⟨by simpa using hmatch, fun op hop => ?_⟩
    cases htables : boundTables env authData permissions with
    | none =>
      rw [htables] at h
      cases h
    | some =>
      rw [htables] at h
      obtain ⟨verdict, hverdict, h⟩ := map_eq_some_iff.mp h
      cases verdict with
      | error => cases h
      | ok authorized =>
        obtain rfl : authorized = true := h
        exact authorizeMutationWithExists_accepts hverdict hop

/-- When the server accepts operations that do not meet, each of them passes its policies when it is
executed. -/
theorem authorizeCrudOps_judged (haccepts : authorizeCrudOps env authData (some permissions) db ops = some true)
    (hindependent : Independent env ((boundTables env authData permissions).getD []) db ops) :
    JudgedThroughout env ((boundTables env authData permissions).getD []) db ops := by
  intro pre op post before after hops hbefore hafter
  obtain ⟨hmatch, hpassed⟩ := authorizeCrudOps_accepts haccepts
  have hop : op ∈ ops := by simp [hops]
  obtain ⟨hpre, hpost⟩ := hpassed op hop
  obtain ⟨hpreRules, hpostRules⟩ := hindependent.rules pre op post hops
  obtain ⟨t, key, rows, huntouched⟩ := hindependent.untouched hmatch hops hbefore hafter
  have hkeys : ∀ earlier ∈ pre ++ [op], (keyValues earlier.row.primaryKey earlier.row.value).isSome := by
    intro earlier he
    have hmem : earlier ∈ ops := by
      rw [hops]
      rcases List.mem_append.mp he with hpre | hself
      · exact List.mem_append_left _ hpre
      · exact List.mem_append_right _ (by simp_all)
    obtain ⟨-, k, -, -, -, hk⟩ := opsMatchReplicaSchema_spec hindependent.named hmatch hmem
    rw [hk]
    rfl
  have hresolved : normalizeOp (replicaRowExists env db) op = normalizeOp (replicaRowExists env before) op :=
    normalizeOp_congr huntouched.rowExists_eq
  have hrow := row_normalizeOp (replicaRowExists env db) op
  have hpasses : (normalizeOp (replicaRowExists env db) op).action ≠ .insert →
      Passes env ((boundTables env authData permissions).getD []) db (normalizeOp (replicaRowExists env db) op)
        .preMutation :=
    passes_of_passesPreMutation (hrow ▸ huntouched.initial) (hrow ▸ huntouched.keyed)
      (fun hupdate => hrow ▸ distinct_of_execute hafter huntouched.initial.given hupdate) hpre
  refine ⟨hresolved, fun hinsert => ?_, fun hdelete => ?_⟩
  · rw [← hresolved] at hinsert ⊢
    obtain ⟨key', row, hkey', hlookup, hcan⟩ := hpasses hinsert
    rw [hrow] at hkey' hlookup
    obtain rfl : key = key' := some.inj (huntouched.initial.given.symm.trans hkey')
    refine ⟨key, row, hrow.symm ▸ hkey', hrow.symm ▸ huntouched.lookupReplicaRow_eq ▸ hlookup, ?_⟩
    have hkept := table?_consulted hbefore (fun e he => hkeys e (List.mem_append_left _ he)) hpreRules
    rw [canDo_of_alike (fun _ => rfl) hkept]
    exact hcan
  · rw [← hresolved] at hdelete ⊢
    have hexists : (normalizeOp (replicaRowExists env db) op).action = .update →
        replicaRowExists env db op.row = true := by
      intro hupdate
      obtain ⟨key', row, hkey', hlookup, -⟩ := hpasses (by simp [hupdate])
      rw [hrow] at hkey' hlookup
      rw [replicaRowExists, hkey', bind_some, hlookup]
      rfl
    obtain ⟨shown, hshown, halike⟩ := huntouched.resulting hafter
      (hindependent.values op hop t huntouched.initial.table) hexists hdelete
    refine ⟨key, shown, hrow.symm ▸ huntouched.initial.given, hrow.symm ▸ hshown, ?_⟩
    have hkept := table?_consulted (executeAll_concat hbefore hafter) hkeys hpostRules
    rw [canDo_of_alike halike hkept]
    exact canDo_of_passesPostMutation hpost hdelete

end

/-! ## Two updates of issues -/

/-- A replica that stores values as they are given. -/
def plainEnv : ReplicaEnv :=
  { engine := { store := fun _ value => value, evalDefault := fun _ => .null }
    asF64 := fun n => n
    fromUtf8Lossy := fun _ => ""
    stringify := fun _ => ""
    listed := fun _ => true }

/-- A stored issue. -/
def storedIssue (id owner : String) : SqlRow := [("id", .text id), ("owner", .text owner)]

/-- Two issues of one owner. -/
def issueDatabase : Database :=
  { tables := [
      { name := "issue"
        columns := [⟨"id", "TEXT", true, none⟩, ⟨"owner", "TEXT", false, none⟩]
        primaryKey := ["id"]
        rows := [storedIssue "i1" "me", storedIssue "i2" "me"] }]
    indexes := [] }

/-- One may update one's own issues, in any way. -/
def ownIssues : PermissionsConfig :=
  { tables := some [("issue",
      { row := some
          { select := none
            insert := none
            update :=
              { preMutation := some [.simple .eq (.column "owner") (.literal (.string "me"))]
                postMutation := some [.and []] }
            delete := none }
        cell := none })] }

/-- Give an issue away. -/
def giveTo (id owner : String) : CrudOp :=
  .update { tableName := "issue", primaryKey := ["id"], value := [("id", .string id), ("owner", .string owner)] }

/-- Two issues are given away. -/
theorem judged_twoIssues : JudgedThroughout plainEnv ((boundTables plainEnv .null ownIssues).getD []) issueDatabase
    [giveTo "i1" "you", giveTo "i2" "them"] := by
  have hstrings : ∀ op ∈ [giveTo "i1" "you", giveTo "i2" "them"], ∀ entry ∈ op.row.value, ∃ s, entry.2 = .string s := by
    intro op hop entry hentry
    simp only [List.mem_cons, List.not_mem_nil, or_false] at hop
    rcases hop with rfl | rfl <;>
      simp only [giveTo, CrudOp.row, List.mem_cons, List.not_mem_nil, or_false] at hentry <;>
      rcases hentry with rfl | rfl <;> exact ⟨_, rfl⟩
  refine authorizeCrudOps_judged (by decide) ⟨?_, ?_, List.pairwise_pair.mpr ?_, ?_, ?_, ?_⟩
  · rw [Database.Named]
    decide
  · intro t ht _
    obtain rfl := List.mem_singleton.mp ht
    refine ⟨?_, List.pairwise_pair.mpr (by decide)⟩
    simp [KeyValue.Full, keyOf, storedIssue, cell, get?, comparand]
  · intro hsame
    exact absurd (some.inj (Prod.mk.inj hsame).2) (by decide)
  · -- The rules have no subqueries.
    intro pre op post hops
    have hop : op ∈ [giveTo "i1" "you", giveTo "i2" "them"] := by simp [hops]
    have hnone : ∀ op ∈ [giveTo "i1" "you", giveTo "i2" "them"], ∀ phase,
        tablesConsulted ((boundTables plainEnv .null ownIssues).getD [])
          (normalizeOp (replicaRowExists plainEnv issueDatabase) op) phase = [] := by
      intro op hop phase
      simp only [List.mem_cons, List.not_mem_nil, or_false] at hop
      rcases hop with rfl | rfl <;> cases phase <;> rfl
    simp [hnone op hop]
  · intro op hop t ht entry hentry _
    obtain ⟨s, hs⟩ := hstrings op hop entry hentry
    rw [hs]
    rfl
  · intro op hop t ht
    have hupdate : normalizeOp (replicaRowExists plainEnv issueDatabase) op = .update op.row := by
      simp only [List.mem_cons, List.not_mem_nil, or_false] at hop
      rcases hop with rfl | rfl <;> rfl
    rw [hupdate]
    intro entry hentry
    obtain ⟨s, hs⟩ := hstrings op hop entry hentry
    rw [hs, coerce]
    split <;> rfl

/-- An issue is given away twice: the second time it is somebody else's. -/
theorem not_judged_givenTwice :
    authorizeCrudOps plainEnv .null (some ownIssues) issueDatabase [giveTo "i1" "you", giveTo "i1" "them"] = some true ∧
      ¬ JudgedThroughout plainEnv ((boundTables plainEnv .null ownIssues).getD []) issueDatabase
        [giveTo "i1" "you", giveTo "i1" "them"] := by
  refine ⟨by decide, fun h => ?_⟩
  have hjudged := h [giveTo "i1" "you"] (giveTo "i1" "them") []
    { issueDatabase with tables := issueDatabase.tables.map (fun t =>
        { t with rows := [storedIssue "i1" "you", storedIssue "i2" "me"] }) }
    { issueDatabase with tables := issueDatabase.tables.map (fun t =>
        { t with rows := [storedIssue "i1" "them", storedIssue "i2" "me"] }) } rfl (by rfl) (by rfl)
  obtain ⟨key, row, hkey, hrow, hcan⟩ := hjudged.pre (by decide)
  obtain rfl := some.inj hkey
  obtain rfl := some.inj hrow
  exact absurd hcan (by decide)

end ZeroCache.Server
