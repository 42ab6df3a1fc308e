import ZeroCache.ViewSyncer.Direct

/-!
# When a direct advance is exact

Two consecutive snapshots of a table and the change log between them are related by what the log
says of single rows: a deleted key is gone, a changed or removed row has an entry that names it,
a new row has an entry that sets it. Under this relation an advance is exact if and only if no
later entry of the log takes away the previous row of a key that an earlier entry has set.
-/

namespace ZeroCache.ViewSyncer

open Sqlite Replica Zql Lib List Option Assoc Table

/-- The row key of an entry matches a row. -/
def entryMatches (env : Env) (t : Table) (entry : ChangeLogEntry) (row : SqlRow) : Bool :=
  match entry.rowKey with
  | .json key => t.matchesKey env.engine (boundKey env key) row
  | .raw _ => false

/-- The keys by which rows of a table are told apart. -/
def identityKeys (spec : SnapshotTableSpec) : List (List String) := spec.primaryKey :: spec.uniqueKeys

/-- The entries of the query's table between two snapshots, in commit order. -/
def tableLog (ast : Ast) (prev curr : Snapshot) : List ChangeLogEntry :=
  (readSince curr.file.changeLog prev.version).filter (fun entry => entry.table = ast.table)

/-- Two snapshots of the query's table, each with its keys unique, and the log between them. -/
structure Consecutive (env : Env) (specs : Fields SnapshotTableSpec) (ast : Ast) (spec : SnapshotTableSpec)
    (prev curr : Snapshot) (prevTable currTable : Table) : Prop where
  spec_eq : specs.get? ast.table = some spec
  name_eq : spec.name = ast.table
  prev_eq : prev.file.database.getTable spec.name = .ok prevTable
  curr_eq : curr.file.database.getTable spec.name = .ok currTable
  columns_eq : currTable.columns = prevTable.columns
  visible : ∀ key ∈ identityKeys spec, ∀ column ∈ key, column ∈ spec.columns
  prev_stored : prevTable.Stored env.engine
  curr_stored : currTable.Stored env.engine
  prev_unique : conflictFree (identityKeys spec) prevTable.rows = true
  curr_unique : conflictFree (identityKeys spec) currTable.rows = true
  /-- An entry names a row by its primary key or by a unique key. -/
  keyed : ∀ entry ∈ tableLog ast prev curr, ∀ key, entry.rowKey = .json key →
    ∃ unique ∈ identityKeys spec, ∀ column ∈ unique, column ∈ key.map Prod.fst
  /-- A row is set by one entry. -/
  set_once : (tableLog ast prev curr).Pairwise (fun e f => e.op = .set → f.op = .set →
    ∀ row ∈ currTable.rows, entryMatches env currTable e row = true → entryMatches env currTable f row = false)
  /-- A deleted key is gone. -/
  deleted : ∀ entry ∈ tableLog ast prev curr, entry.op = .del →
    ∀ row ∈ currTable.rows, entryMatches env currTable entry row = false
  /-- A row that is no longer there as it was is named. -/
  removed : ∀ row ∈ prevTable.rows, row ∉ currTable.rows →
    ∃ entry ∈ tableLog ast prev curr, entryMatches env prevTable entry row = true
  /-- A row that was not there as it is now is set. -/
  added : ∀ row ∈ currTable.rows, row ∉ prevTable.rows →
    ∃ entry ∈ tableLog ast prev curr, entry.op = .set ∧ entryMatches env currTable entry row = true

/-- Rows held by the same key have the same primary key. -/
def KeysIdentify (env : Env) (ast : Ast) (spec : SnapshotTableSpec) (prevTable currTable : Table) : Prop :=
  ∀ a ∈ prevTable.rows ++ currTable.rows, ∀ b ∈ prevTable.rows ++ currTable.rows,
    resultKey env spec ast.table a = resultKey env spec ast.table b → agreeOn spec.primaryKey a b = true

/-- An entry takes a previous row away: it sets a row that has one of its unique keys now, or
deletes a key it had. -/
def TakesAway (env : Env) (spec : SnapshotTableSpec) (prevTable currTable : Table)
    (entry : ChangeLogEntry) (row : SqlRow) : Prop :=
  (entry.op = .set ∧ ∃ next ∈ currTable.rows, entryMatches env currTable entry next = true ∧
    conflict (identityKeys spec) next row = true) ∨
  (entry.op = .del ∧ entryMatches env prevTable entry row = true)

/-- No entry takes away the previous row of a key at which an earlier entry has set a row of the
result. -/
def NoTakeover (env : Env) (ast : Ast) (spec : SnapshotTableSpec) (prev curr : Snapshot)
    (prevTable currTable : Table) : Prop :=
  (tableLog ast prev curr).Pairwise (fun earlier later => earlier.op = .set →
    ∀ row ∈ currTable.rows, entryMatches env currTable earlier row = true →
      directRowMatches ast (resultRow env spec ast.table row).row = some true →
      ∀ old ∈ prevTable.rows, resultKey env spec ast.table old = resultKey env spec ast.table row →
        ¬ TakesAway env spec prevTable currTable later old)

/-- The condition of the query can be evaluated on every row that is set. -/
def Evaluates (env : Env) (ast : Ast) (spec : SnapshotTableSpec) (prev curr : Snapshot)
    (currTable : Table) : Prop :=
  ∀ entry ∈ tableLog ast prev curr, entry.op = .set → ∀ row ∈ currTable.rows,
    entryMatches env currTable entry row = true →
      (directRowMatches ast (resultRow env spec ast.table row).row).isSome

/-- The advance returns, holds exactly the result on the current snapshot, and reports exactly the
difference to the result on the previous one. -/
def DirectExact (env : Env) (queryId : String) (pipeline : Pipeline) (diff : SnapshotDiff)
    (specs : Fields SnapshotTableSpec) (spec : SnapshotTableSpec) (prevTable currTable : Table) : Prop :=
  ∃ advanced emitted, applyDirectChanges env queryId pipeline diff.rows specs = .ok (advanced, emitted) ∧
    (∀ key, advanced.rows.get? key = (directRows env pipeline.ast spec currTable.rows).get? key) ∧
    emitted = diffRows queryId (directRows env pipeline.ast spec prevTable.rows)
      (directRows env pipeline.ast spec currTable.rows)

/-! ## What an entry resolves to -/

section Resolve

variable {env : Env} {specs : Fields SnapshotTableSpec} {ast : Ast} {spec : SnapshotTableSpec}
  {prev curr : Snapshot} {prevTable currTable : Table} {allNames : List String}

theorem coerce_eq_of_columns {t t' : Table} (h : t.columns = t'.columns) (column : String)
    (value : SqlValue) : t.coerce env.engine column value = t'.coerce env.engine column value := by
  simp only [coerce, h]

variable {entry : ChangeLogEntry}

/-- Two rows an entry names, in tables of the same columns, share a unique key. -/
theorem conflict_of_entryMatches {t t' : Table} (hcolumns : t.columns = t'.columns)
    (hkeyed : ∀ key, entry.rowKey = .json key →
      ∃ unique ∈ identityKeys spec, ∀ column ∈ unique, column ∈ key.map Prod.fst)
    {a b : SqlRow} (ha : entryMatches env t entry a = true) (hb : entryMatches env t' entry b = true) :
    conflict (identityKeys spec) a b = true := by
  unfold entryMatches at ha hb
  cases hkey : entry.rowKey with
  | raw => simp [hkey] at ha
  | json key =>
    simp only [hkey, matchesKey, List.all_eq_true] at ha hb
    obtain ⟨unique, hunique, hsub⟩ := hkeyed key hkey
    refine any_eq_true.mpr ⟨unique, hunique, all_eq_true.mpr (fun column hcolumn => ?_)⟩
    obtain ⟨⟨c, value⟩, hentry, rfl⟩ := mem_map.mp (hsub column hcolumn)
    have hbound : (c, jsonToSql env value) ∈ boundKey env key := mem_map.mpr ⟨_, hentry, rfl⟩
    have hbc := hb _ hbound
    rw [← coerce_eq_of_columns hcolumns] at hbc
    exact sqlEq_of_sqlEq (ha _ hbound) hbc

theorem mem_select {t : Table} {columns : List String} {keys : List SqlRow} {row : SqlRow} :
    row ∈ t.select env.engine columns keys ↔
      ∃ r ∈ t.rows, (∃ key ∈ keys, t.matchesKey env.engine key r = true) ∧ project columns r = row := by
  simp only [select, List.mem_map, mem_filter, List.any_eq_true]
  constructor
  · rintro ⟨r, ⟨hr, hkey⟩, hproject⟩
    exact ⟨r, hr, hkey, hproject⟩
  · rintro ⟨r, hr, hkey, hproject⟩
    exact ⟨r, ⟨hr, hkey⟩, hproject⟩

variable (hc : Consecutive env specs ast spec prev curr prevTable currTable)

include hc

variable {next : SqlRow} {change : Option SnapshotChange}

/-- A key is bound from a row exactly when none of its columns is NULL there. -/
theorem mem_validKeys {key : List String} : key ∈ validKeys spec (project spec.columns next) ↔
      key ∈ identityKeys spec ∧ ∀ column ∈ key, cell next column ≠ .null := by
  simp only [validKeys, mem_filter, mem_insertionSort, mem_dedup, List.all_eq_true]
  refine and_congr_right (fun hkey => forall₂_congr (fun column hcolumn => ?_))
  rw [get?_project (hc.visible key hkey column hcolumn)]
  simp

/-- A key bound from a current row matches the previous rows that agree with it. -/
theorem matchesKey_iff_agreeOn
    {old : SqlRow} (hnext : next ∈ currTable.rows) {key : List String} (hkey : key ∈ identityKeys spec) :
    prevTable.matchesKey env.engine
        (key.map (fun column => (column, cell (project spec.columns next) column))) old = true ↔
      agreeOn key next old = true := by
  simp only [matchesKey, agreeOn, List.all_map, List.all_eq_true, Function.comp_apply]
  refine forall₂_congr (fun column hcolumn => ?_)
  rw [cell_project (hc.visible key hkey column hcolumn), coerce_eq_of_columns hc.columns_eq.symm,
    hc.curr_stored next hnext column, sqlEq_comm]

theorem mem_uniqueConflicts (hnext : next ∈ currTable.rows) {rows : List SqlRow}
    (h : getUniqueConflicts env prev.file.database spec (project spec.columns next) = .ok rows) (row : SqlRow) :
    row ∈ rows ↔ ∃ old ∈ prevTable.rows, conflict (identityKeys spec) next old = true ∧
      project spec.columns old = row := by
  have hvalid : ∀ old : SqlRow, conflict (identityKeys spec) next old = true ↔
      ∃ key ∈ validKeys spec (project spec.columns next), agreeOn key next old = true := by
    intro old
    simp only [conflict, List.any_eq_true, mem_validKeys hc]
    constructor
    · rintro ⟨key, hkey, hagree⟩
      have hnull : ∀ column ∈ key, cell next column ≠ .null :=
        fun column hcolumn => sqlEq_ne_null (all_eq_true.mp hagree column hcolumn)
      exact ⟨key, ⟨hkey, hnull⟩, hagree⟩
    · rintro ⟨key, ⟨hkey, -⟩, hagree⟩
      exact ⟨key, hkey, hagree⟩
  unfold getUniqueConflicts at h
  dsimp only at h
  split at h
  · next hempty =>
    cases h
    have hnone : validKeys spec (project spec.columns next) = [] := isEmpty_iff.mp hempty
    simp [hvalid, hnone]
  · rw [selectByKeys_ok hc.prev_eq h, mem_select]
    refine exists_congr (fun old => and_congr_right (fun _ => and_congr_left (fun _ => ?_)))
    rw [hvalid]
    simp only [List.mem_map, exists_exists_and_eq_and]
    refine exists_congr (fun key => and_congr_right (fun hkey => ?_))
    exact matchesKey_iff_agreeOn hc hnext ((mem_validKeys hc).mp hkey).1

omit hc in
/-- Looking the key of an entry up finds the row it names. -/
theorem getRow_named {snapshot : Snapshot} {t : Table} {key : Fields JsonValue}
    (ht : snapshot.file.database.getTable spec.name = .ok t)
    (hunique : conflictFree (identityKeys spec) t.rows = true) (hkey : entry.rowKey = .json key)
    (hkeyed : ∀ key, entry.rowKey = .json key →
      ∃ unique ∈ identityKeys spec, ∀ column ∈ unique, column ∈ key.map Prod.fst)
    {found : Option SqlRow} (h : getRow env snapshot.file.database spec key = .ok found) (row : SqlRow) :
    found = some row ↔ ∃ r ∈ t.rows, entryMatches env t entry r = true ∧ project spec.columns r = row := by
  have hselect : ∀ q, q ∈ t.select env.engine spec.columns [boundKey env key] ↔
      ∃ r ∈ t.rows, entryMatches env t entry r = true ∧ project spec.columns r = q := by
    simp [mem_select, entryMatches, hkey]
  have hsame : ∀ q ∈ t.select env.engine spec.columns [boundKey env key],
      ∀ q' ∈ t.select env.engine spec.columns [boundKey env key], q = q' := by
    intro q hq q' hq'
    obtain ⟨r, hr, hm, rfl⟩ := (hselect q).mp hq
    obtain ⟨r', hr', hm', rfl⟩ := (hselect q').mp hq'
    rw [eq_of_conflict hunique hr hr' (conflict_of_entryMatches rfl hkeyed hm hm')]
  rw [getRow_ok ht h, ← hselect]
  constructor
  · exact mem_of_head?
  · intro hmem
    cases hrows : t.select env.engine spec.columns [boundKey env key] with
    | nil => simp [hrows] at hmem
    | cons first =>
      rw [head?_cons, hsame row hmem first (by simp [hrows])]

/-- A set resolves to the row it names now and to the previous rows that share a key with it. -/
theorem resolveChange_set (hentry : entry ∈ tableLog ast prev curr) (hop : entry.op = .set)
    (h : resolveChange env prev curr specs allNames entry = .ok change) :
    ∃ next ∈ currTable.rows, entryMatches env currTable entry next = true ∧ ∃ key previous,
      change = some ⟨ast.table, previous, some (project spec.columns next), key⟩ ∧
      ∀ row, row ∈ previous ↔ ∃ old ∈ prevTable.rows, conflict (identityKeys spec) next old = true ∧
        project spec.columns old = row := by
  have htable : entry.table = ast.table := by simpa using (mem_filter.mp hentry).2
  obtain ⟨key, next, previous, hkey, -, hnext, hprevious, hchange⟩ := resolveChange_ok (htable ▸ hc.spec_eq) h
  rw [nextValue, if_pos hop] at hnext
  obtain ⟨found, hfound, hnext⟩ := bind_ok hnext
  cases found with
  | none => cases hnext
  | some q =>
    cases hnext
    obtain ⟨row, hrow, hmatch, rfl⟩ :=
      (getRow_named hc.curr_eq hc.curr_unique hkey (hc.keyed entry hentry) hfound q).mp rfl
    refine ⟨row, hrow, hmatch, key, previous, ?_, mem_uniqueConflicts hc hrow hprevious⟩
    simpa [htable] using hchange

/-- A delete resolves to the previous row it names, if there is one. -/
theorem resolveChange_del (hentry : entry ∈ tableLog ast prev curr) (hop : entry.op = .del)
    (h : resolveChange env prev curr specs allNames entry = .ok change) :
    ∃ key previous, change = (if previous.isEmpty then none else some ⟨ast.table, previous, none, key⟩) ∧
      ∀ row, row ∈ previous ↔ ∃ old ∈ prevTable.rows, entryMatches env prevTable entry old = true ∧
        project spec.columns old = row := by
  have htable : entry.table = ast.table := by simpa using (mem_filter.mp hentry).2
  obtain ⟨key, next, previous, hkey, -, hnext, hprevious, hchange⟩ := resolveChange_ok (htable ▸ hc.spec_eq) h
  rw [nextValue, if_neg (by simp [hop])] at hnext
  cases hnext
  rw [prevValues] at hprevious
  cases hfound : getRow env prev.file.database spec key with
  | error =>
    rw [hfound] at hprevious
    cases hprevious
  | ok found =>
    rw [hfound] at hprevious
    cases hprevious
    refine ⟨key, found.toList, by simpa [htable] using hchange, fun row => ?_⟩
    rw [mem_toList]
    exact getRow_named hc.prev_eq hc.prev_unique hkey (hc.keyed entry hentry) hfound row

/-- The change by key an entry resolves to. -/
def entryChange (env : Env) (prev curr : Snapshot) (specs : Fields SnapshotTableSpec)
    (allNames : List String) (ast : Ast) (spec : SnapshotTableSpec) (entry : ChangeLogEntry) :
    Option (KeyedChange String MaterializedRow) :=
  (resolved env prev curr specs allNames entry).map (keyedChange env ast spec)

omit hc in
/-- A change is of the table of its entry. -/
theorem table_of_resolved {change : SnapshotChange}
    (h : resolved env prev curr specs allNames entry = some change) : change.table = entry.table := by
  unfold resolved at h
  split at h
  · next resolvedTo hresolve =>
    subst h
    cases hspec : specs.get? entry.table with
    | none =>
      simp only [resolveChange, hspec] at hresolve
      repeat' split at hresolve
      all_goals cases hresolve
    | some =>
      obtain ⟨_, next, previous, _, _, _, _, hchange⟩ := resolveChange_ok hspec hresolve
      split at hchange
      · cases hchange
      · cases hchange
        rfl
  · cases h

/-- Every entry of the query's table resolved. -/
def AllResolved (env : Env) (prev curr : Snapshot) (specs : Fields SnapshotTableSpec)
    (allNames : List String) (ast : Ast) : Prop :=
  ∀ entry ∈ tableLog ast prev curr, resolveChange env prev curr specs allNames entry =
    .ok (resolved env prev curr specs allNames entry)

theorem set_or_del (hall : AllResolved env prev curr specs allNames ast)
    (hentry : entry ∈ tableLog ast prev curr) : entry.op = .set ∨ entry.op = .del := by
  have htable : entry.table = ast.table := by simpa using (mem_filter.mp hentry).2
  obtain ⟨_, _, _, _, hop, _⟩ := resolveChange_ok (htable ▸ hc.spec_eq) (hall entry hentry)
  exact hop

/-- An entry names at most one current row. -/
theorem eq_of_entryMatches (hentry : entry ∈ tableLog ast prev curr) {a b : SqlRow}
    (ha : a ∈ currTable.rows) (hb : b ∈ currTable.rows)
    (hma : entryMatches env currTable entry a = true) (hmb : entryMatches env currTable entry b = true) : a = b :=
  eq_of_conflict hc.curr_unique ha hb (conflict_of_entryMatches rfl (hc.keyed entry hentry) hma hmb)

section

variable (hall : AllResolved env prev curr specs allNames ast) (hentry : entry ∈ tableLog ast prev curr)

include hall hentry

/-- The keys an entry removes are those of the previous rows it takes away. -/
theorem mem_removed (key : String) :
    (∃ change, entryChange env prev curr specs allNames ast spec entry = some change ∧ key ∈ change.removed) ↔
      ∃ old ∈ prevTable.rows, TakesAway env spec prevTable currTable entry old ∧
        resultKey env spec ast.table old = key := by
  have hresolve := hall entry hentry
  rcases set_or_del hc hall hentry with hop | hop
  · obtain ⟨next, hnext, hmatch, _, previous, hchange, hprevious⟩ := resolveChange_set hc hentry hop hresolve
    have htakes : ∀ old, TakesAway env spec prevTable currTable entry old ↔
        conflict (identityKeys spec) next old = true := by
      intro old
      simp only [TakesAway, hop, true_and, reduceCtorEq, false_and, or_false]
      constructor
      · rintro ⟨next', hnext', hmatch', hconflict⟩
        rwa [eq_of_entryMatches hc hentry hnext hnext' hmatch hmatch']
      · exact fun hconflict => ⟨next, hnext, hmatch, hconflict⟩
    simp only [entryChange, hchange, map_some, some.injEq, exists_eq_left', keyedChange,
      List.mem_map, hprevious, htakes]
    constructor
    · rintro ⟨_, ⟨old, hold, hconflict, rfl⟩, hkey⟩
      exact ⟨old, hold, hconflict, hkey⟩
    · rintro ⟨old, hold, hconflict, hkey⟩
      exact ⟨_, ⟨old, hold, hconflict, rfl⟩, hkey⟩
  · obtain ⟨_, previous, hchange, hprevious⟩ := resolveChange_del hc hentry hop hresolve
    have htakes : ∀ old, TakesAway env spec prevTable currTable entry old ↔
        entryMatches env prevTable entry old = true := by
      simp [TakesAway, hop]
    have hmem : (∃ change, entryChange env prev curr specs allNames ast spec entry = some change ∧
        key ∈ change.removed) ↔
        ∃ row ∈ previous, materializedKey env (toResult env spec ast.table row) = key := by
      rw [entryChange, hchange]
      cases previous with
      | nil => simp
      | cons => simp [keyedChange, eq_comm]
    simp only [hmem, hprevious, htakes]
    constructor
    · rintro ⟨_, ⟨old, hold, hmatch, rfl⟩, hkey⟩
      exact ⟨old, hold, hmatch, hkey⟩
    · rintro ⟨old, hold, hmatch, hkey⟩
      exact ⟨_, ⟨old, hold, hmatch, rfl⟩, hkey⟩

/-- An entry writes the key of the current row it sets, with the row if it matches the query. -/
theorem written_iff (key : String) (row : Option MaterializedRow) :
    (∃ change, entryChange env prev curr specs allNames ast spec entry = some change ∧
        change.written = some (key, row)) ↔
      entry.op = .set ∧ ∃ next ∈ currTable.rows, entryMatches env currTable entry next = true ∧
        resultKey env spec ast.table next = key ∧ keptRow ast (resultRow env spec ast.table next) = row := by
  have hresolve := hall entry hentry
  rcases set_or_del hc hall hentry with hop | hop
  · obtain ⟨next, hnext, hmatch, _, previous, hchange, -⟩ := resolveChange_set hc hentry hop hresolve
    simp only [entryChange, hchange, map_some, some.injEq, exists_eq_left', keyedChange, Prod.mk.injEq, hop, true_and]
    constructor
    · rintro ⟨hkey, hrow⟩
      exact ⟨next, hnext, hmatch, hkey, hrow⟩
    · rintro ⟨next', hnext', hmatch', hkey, hrow⟩
      obtain rfl := eq_of_entryMatches hc hentry hnext hnext' hmatch hmatch'
      exact ⟨hkey, hrow⟩
  · obtain ⟨_, previous, hchange, -⟩ := resolveChange_del hc hentry hop hresolve
    rw [entryChange, hchange]
    cases previous with
    | nil => simp [hop]
    | cons => simp [hop, keyedChange]

theorem evaluable_iff : (∀ change, resolved env prev curr specs allNames entry = some change →
        evaluable env ast spec change = true) ↔
      (entry.op = .set → ∀ row ∈ currTable.rows, entryMatches env currTable entry row = true →
        (directRowMatches ast (resultRow env spec ast.table row).row).isSome) := by
  have hresolve := hall entry hentry
  rcases set_or_del hc hall hentry with hop | hop
  · obtain ⟨next, hnext, hmatch, _, previous, hchange, -⟩ := resolveChange_set hc hentry hop hresolve
    simp only [hchange, some.injEq, forall_eq', hop, true_imp_iff]
    constructor
    · intro h row hrow hm
      rwa [← eq_of_entryMatches hc hentry hnext hrow hmatch hm]
    · exact fun h => h next hnext hmatch
  · obtain ⟨_, previous, hchange, -⟩ := resolveChange_del hc hentry hop hresolve
    rw [hchange]
    cases previous with
    | nil => simp [hop]
    | cons => simp [hop, evaluable]

end

end Resolve

/-! ## Results by key -/

section Results

variable {env : Env} {ast : Ast} {spec : SnapshotTableSpec} {rows : List SqlRow}

theorem mem_of_get?_directRows {key : String} {entry : MaterializedRow}
    (h : (directRows env ast spec rows).get? key = some entry) :
    ∃ row ∈ rows, resultKey env spec ast.table row = key ∧
      keptRow ast (resultRow env spec ast.table row) = some entry := by
  obtain ⟨row, hrow, hpair⟩ := mem_filterMap.mp (mem_of_get? h)
  cases hkept : keptRow ast (resultRow env spec ast.table row) with
  | none => simp [hkept] at hpair
  | some =>
    simp only [hkept, map_some, some.injEq, Prod.mk.injEq] at hpair
    exact ⟨row, hrow, hpair.1, hpair.2 ▸ hkept⟩

/-- When keys tell the rows apart, each row is looked up by its key. -/
theorem get?_directRows {row : SqlRow} (hrow : row ∈ rows)
    (hinj : ∀ a ∈ rows, ∀ b ∈ rows, resultKey env spec ast.table a = resultKey env spec ast.table b → a = b) :
    (directRows env ast spec rows).get? (resultKey env spec ast.table row) =
      keptRow ast (resultRow env spec ast.table row) := by
  cases hget : (directRows env ast spec rows).get? (resultKey env spec ast.table row) with
  | some =>
    obtain ⟨other, hother, hkey, hkept⟩ := mem_of_get?_directRows hget
    rw [← hinj other hother row hrow hkey, hkept]
  | none =>
    cases hkept : keptRow ast (resultRow env spec ast.table row) with
    | none => rfl
    | some entry =>
      have hmem : (resultKey env spec ast.table row, entry) ∈ directRows env ast spec rows :=
        mem_filterMap.mpr ⟨row, hrow, by simp [hkept]⟩
      exact absurd (mem_map_of_mem hmem) (get?_eq_none.mp hget)

end Results

/-! ## Exactness -/

section Exact

variable {env : Env} {specs : Fields SnapshotTableSpec} {ast : Ast} {spec : SnapshotTableSpec}
  {prev curr : Snapshot} {prevTable currTable : Table} {allNames : List String}

section

variable (hc : Consecutive env specs ast spec prev curr prevTable currTable)

include hc

section

variable (hkeys : KeysIdentify env ast spec prevTable currTable)

include hkeys

theorem prev_eq_of_key : ∀ a ∈ prevTable.rows, ∀ b ∈ prevTable.rows,
      resultKey env spec ast.table a = resultKey env spec ast.table b → a = b := by
  intro a ha b hb hkey
  have hagree := hkeys a (mem_append_left _ ha) b (mem_append_left _ hb) hkey
  exact eq_of_conflict hc.prev_unique ha hb (any_eq_true.mpr ⟨_, mem_cons_self, hagree⟩)

theorem curr_eq_of_key : ∀ a ∈ currTable.rows, ∀ b ∈ currTable.rows,
      resultKey env spec ast.table a = resultKey env spec ast.table b → a = b := by
  intro a ha b hb hkey
  have hagree := hkeys a (mem_append_right _ ha) b (mem_append_right _ hb) hkey
  exact eq_of_conflict hc.curr_unique ha hb (any_eq_true.mpr ⟨_, mem_cons_self, hagree⟩)

/-- The entries between two snapshots track the result of the query from one to the other. -/
theorem entryChanges_track (hall : AllResolved env prev curr specs allNames ast) :
    Tracks (fun key => (directRows env ast spec prevTable.rows).get? key)
      (fun key => (directRows env ast spec currTable.rows).get? key)
      ((tableLog ast prev curr).filterMap (entryChange env prev curr specs allNames ast spec)) := by
  have hprev := prev_eq_of_key hc hkeys
  have hcurr := curr_eq_of_key hc hkeys
  constructor
  case written_target =>
    intro change hchange key row hwritten
    obtain ⟨entry, hentry, heq⟩ := mem_filterMap.mp hchange
    obtain ⟨-, next, hnext, -, rfl, rfl⟩ := (written_iff hc hall hentry key row).mp ⟨change, heq, hwritten⟩
    exact get?_directRows hnext hcurr
  case written_once =>
    rw [pairwise_filterMap]
    refine hc.set_once.imp_of_mem (fun {e f} he hf honce c hce d hdf key row row' hcw hdw => ?_)
    obtain ⟨heop, next, hnext, hmatch, hkey, -⟩ := (written_iff hc hall he key row).mp ⟨c, hce, hcw⟩
    obtain ⟨hfop, next', hnext', hmatch', hkey', -⟩ := (written_iff hc hall hf key row').mp ⟨d, hdf, hdw⟩
    obtain rfl := hcurr next hnext next' hnext' (hkey.trans hkey'.symm)
    simp [honce heop hfop next hnext hmatch] at hmatch'
  case written_removed =>
    intro change hchange key row hwritten hsome
    obtain ⟨entry, hentry, heq⟩ := mem_filterMap.mp hchange
    obtain ⟨hop, next, hnext, hmatch, hkey, -⟩ := (written_iff hc hall hentry key row).mp ⟨change, heq, hwritten⟩
    obtain ⟨kept, hkept⟩ := isSome_iff_exists.mp hsome
    obtain ⟨old, hold, hkeyold, -⟩ := mem_of_get?_directRows hkept
    have hagree := hkeys next (mem_append_right _ hnext) old (mem_append_left _ hold)
      (hkey.trans hkeyold.symm)
    have htakes : TakesAway env spec prevTable currTable entry old :=
      .inl ⟨hop, next, hnext, hmatch, any_eq_true.mpr ⟨_, mem_cons_self, hagree⟩⟩
    obtain ⟨change', heq', hremoved⟩ := (mem_removed hc hall hentry key).mpr ⟨old, hold, htakes, hkeyold⟩
    rw [heq] at heq'
    cases heq'
    exact hremoved
  case unwritten =>
    intro key hsome hunwritten
    obtain ⟨kept, hkept⟩ := isSome_iff_exists.mp hsome
    obtain ⟨row, hrow, rfl, -⟩ := mem_of_get?_directRows hkept
    have hunset : ∀ entry ∈ tableLog ast prev curr, entry.op = .set →
        entryMatches env currTable entry row = false := by
      intro entry hentry hop
      by_contra hmatch
      rw [Bool.not_eq_false] at hmatch
      obtain ⟨change, heq, hwritten⟩ := (written_iff hc hall hentry _ _).mpr ⟨hop, row, hrow, hmatch, rfl, rfl⟩
      exact hunwritten change (mem_filterMap.mpr ⟨entry, hentry, heq⟩) _ hwritten
    have hold : row ∈ prevTable.rows := by
      by_contra hnew
      obtain ⟨entry, hentry, hop, hmatch⟩ := hc.added row hrow hnew
      simp [hunset entry hentry hop] at hmatch
    refine ⟨(get?_directRows hold hprev).trans (get?_directRows hrow hcurr).symm, ?_⟩
    intro change hchange hremoved
    obtain ⟨entry, hentry, heq⟩ := mem_filterMap.mp hchange
    obtain ⟨old, holdmem, htakes, hkey⟩ := (mem_removed hc hall hentry _).mp ⟨change, heq, hremoved⟩
    obtain rfl := hprev old holdmem row hold hkey
    rcases htakes with ⟨hop, next, hnext, hmatch, hconflict⟩ | ⟨hop, hmatch⟩
    · obtain rfl := eq_of_conflict hc.curr_unique hnext hrow hconflict
      simp [hunset entry hentry hop] at hmatch
    · have hgone := hc.deleted entry hentry hop old hrow
      simp only [entryMatches, matchesKey, coerce, hc.columns_eq] at hgone hmatch
      simp [hgone] at hmatch
  case dropped =>
    intro key hnone hsome
    obtain ⟨kept, hkept⟩ := isSome_iff_exists.mp hsome
    obtain ⟨old, hold, rfl, hkeptold⟩ := mem_of_get?_directRows hkept
    have hgone : old ∉ currTable.rows := by
      intro hmem
      rw [get?_directRows hmem hcurr, hkeptold] at hnone
      cases hnone
    obtain ⟨entry, hentry, hmatch⟩ := hc.removed old hold hgone
    have htakes : TakesAway env spec prevTable currTable entry old := by
      rcases set_or_del hc hall hentry with hop | hop
      · obtain ⟨next, hnext, hnextmatch, -⟩ := resolveChange_set hc hentry hop (hall entry hentry)
        exact .inl ⟨hop, next, hnext, hnextmatch,
          conflict_of_entryMatches hc.columns_eq (hc.keyed entry hentry) hnextmatch hmatch⟩
      · exact .inr ⟨hop, hmatch⟩
    obtain ⟨change, heq, hremoved⟩ := (mem_removed hc hall hentry _).mpr ⟨old, hold, htakes, rfl⟩
    exact ⟨change, mem_filterMap.mpr ⟨entry, hentry, heq⟩, hremoved⟩

end

end

theorem keptRow_eq_some {entry kept : MaterializedRow} :
    keptRow ast entry = some kept ↔ directRowMatches ast entry.row = some true ∧ entry = kept := by
  unfold keptRow
  split
  · next h => simp [h]
  · next h => simp [h]

/-- Kept rows stay exactly when there is no takeover. -/
theorem keepsWritten_iff (hc : Consecutive env specs ast spec prev curr prevTable currTable)
    (hall : AllResolved env prev curr specs allNames ast) :
    KeepsWritten ((tableLog ast prev curr).filterMap (entryChange env prev curr specs allNames ast spec)) ↔
      NoTakeover env ast spec prev curr prevTable currTable := by
  unfold KeepsWritten NoTakeover
  rw [pairwise_filterMap]
  refine List.Pairwise.iff_of_mem (fun {e f} he hf => ?_)
  constructor
  · intro h hop row hrow hmatch hselected old hold hkey htakes
    obtain ⟨c, hce, hwritten⟩ := (written_iff hc hall he _ _).mpr
      ⟨hop, row, hrow, hmatch, rfl, keptRow_eq_some.mpr ⟨hselected, rfl⟩⟩
    obtain ⟨d, hdf, hremoved⟩ := (mem_removed hc hall hf _).mpr ⟨old, hold, htakes, hkey⟩
    exact h c hce d hdf _ _ hwritten hremoved
  · intro h c hce d hdf key row hwritten hremoved
    obtain ⟨hop, next, hnext, hmatch, rfl, hkept⟩ := (written_iff hc hall he key _).mp ⟨c, hce, hwritten⟩
    obtain ⟨old, hold, htakes, hkey⟩ := (mem_removed hc hall hf _).mp ⟨d, hdf, hremoved⟩
    exact h hop next hnext hmatch (keptRow_eq_some.mp hkept).1 old hold hkey htakes

/-- The changes of the query's table are those its entries resolve to. -/
theorem relevant_eq {entries : List ChangeLogEntry} :
    (entries.filterMap (resolved env prev curr specs allNames)).filter (fun change => change.table = ast.table) =
      (entries.filter (fun entry => entry.table = ast.table)).filterMap (resolved env prev curr specs allNames) := by
  induction entries with
  | nil => rfl
  | cons entry rest ih =>
    cases hentry : resolved env prev curr specs allNames entry with
    | none =>
      rw [filterMap_cons_none hentry, ih, filter_cons]
      split
      · rw [filterMap_cons_none hentry]
      · rfl
    | some =>
      have htable := table_of_resolved hentry
      rw [filterMap_cons_some hentry, filter_cons, filter_cons, ih, htable]
      split
      · rw [filterMap_cons_some hentry]
      · rfl

theorem get?_affected {affected : List String} {rows : Fields MaterializedRow} (key : String) :
    get? (affected.filterMap (fun key => (rows.get? key).map (fun row => (key, row)))) key =
      if key ∈ affected then rows.get? key else none := by
  induction affected with
  | nil => rfl
  | cons first rest ih =>
    cases hrow : rows.get? first with
    | none =>
      rw [filterMap_cons_none (by simp [hrow]), ih]
      by_cases hkey : key = first
      · subst hkey
        simp [hrow]
      · simp [hkey]
    | some =>
      rw [filterMap_cons_some (by rw [hrow]; rfl), get?_cons, ih]
      by_cases hkey : first = key
      · subst hkey
        simp [hrow]
      · simp [hkey, Ne.symm hkey]

variable {queryId : String} {pipeline : Pipeline} {diff : SnapshotDiff}

/-- An advance over a difference runs the changes of the log by key, or panics. -/
theorem applyDirectChanges_eq (hc : Consecutive env specs pipeline.ast spec prev curr prevTable currTable)
    (hdiff : materializeDiff env prev curr specs allNames = .ok diff) :
    applyDirectChanges env queryId pipeline diff.rows specs =
      if ((tableLog pipeline.ast prev curr).filterMap (resolved env prev curr specs allNames)).all
          (evaluable env pipeline.ast spec) then
        let s := DiffState.run ⟨pipeline.rows, [], []⟩ ((tableLog pipeline.ast prev curr).filterMap
          (entryChange env prev curr specs allNames pipeline.ast spec))
        .ok ({ pipeline with rows := s.rows }, diffRows queryId s.previous
          (s.affected.filterMap (fun key => (s.rows.get? key).map (fun row => (key, row)))))
      else .error .panic := by
  have hrelevant : diff.rows.filter (fun change => change.table = pipeline.ast.table) =
      (tableLog pipeline.ast prev curr).filterMap (resolved env prev curr specs allNames) := by
    rw [(materializeDiff_ok hdiff).2, relevant_eq]
    rfl
  have htable : ∀ change ∈ (tableLog pipeline.ast prev curr).filterMap
      (resolved env prev curr specs allNames), change.table = pipeline.ast.table := by
    intro change hchange
    rw [← hrelevant] at hchange
    simpa using (mem_filter.mp hchange).2
  have hmap : ((tableLog pipeline.ast prev curr).filterMap (resolved env prev curr specs allNames)).map
      (keyedChange env pipeline.ast spec) = (tableLog pipeline.ast prev curr).filterMap
        (entryChange env prev curr specs allNames pipeline.ast spec) := by
    rw [map_filterMap]
    rfl
  rw [applyDirectChanges, hrelevant, foldlM_applyDirectChange hc.spec_eq htable, hmap]
  split
  · rfl
  · rfl

theorem evaluable_all_iff (hc : Consecutive env specs ast spec prev curr prevTable currTable)
    (hall : AllResolved env prev curr specs allNames ast) :
    ((tableLog ast prev curr).filterMap (resolved env prev curr specs allNames)).all
        (evaluable env ast spec) = true ↔ Evaluates env ast spec prev curr currTable := by
  simp only [List.all_eq_true, mem_filterMap, forall_exists_index, and_imp]
  constructor
  · intro h entry hentry
    exact (evaluable_iff hc hall hentry).mp (fun change heq => h change entry hentry heq)
  · intro h change entry hentry heq
    exact (evaluable_iff hc hall hentry).mpr (h entry hentry) change heq

/-- A direct advance over the materialized difference is exact if and only if the condition can be
evaluated on the rows that are set and no entry takes a row away that an earlier one has set. -/
theorem directExact_iff (hc : Consecutive env specs pipeline.ast spec prev curr prevTable currTable)
    (hkeys : KeysIdentify env pipeline.ast spec prevTable currTable)
    (hdiff : materializeDiff env prev curr specs allNames = .ok diff)
    (hheld : ∀ key, pipeline.rows.get? key = (directRows env pipeline.ast spec prevTable.rows).get? key) :
    DirectExact env queryId pipeline diff specs spec prevTable currTable ↔
      Evaluates env pipeline.ast spec prev curr currTable ∧
        NoTakeover env pipeline.ast spec prev curr prevTable currTable := by
  have hall : AllResolved env prev curr specs allNames pipeline.ast :=
    fun entry hentry => (materializeDiff_ok hdiff).1 entry (mem_filter.mp hentry).1
  have htracks := entryChanges_track hc hkeys hall
  rw [← evaluable_all_iff hc hall, ← keepsWritten_iff hc hall]
  unfold DirectExact
  rw [applyDirectChanges_eq hc hdiff]
  constructor
  · rintro ⟨advanced, emitted, hadvance, hrows, -⟩
    split at hadvance
    · next heval =>
      cases hadvance
      exact ⟨heval, (htracks.rows_run_iff hheld).mp hrows⟩
    · cases hadvance
  · rintro ⟨heval, hkeeps⟩
    have hreach := (htracks.rows_run_iff (s := ⟨pipeline.rows, [], []⟩) hheld).mpr hkeeps
    rw [if_pos heval]
    refine ⟨_, _, rfl, hreach, diffRows_congr (fun key => ?_)⟩
    rw [get?_affected]
    rcases htracks.difference (s := ⟨pipeline.rows, [], []⟩) hheld rfl rfl hkeeps key with
      ⟨htouched, hprevious⟩ | ⟨huntouched, hprevious, hsame⟩
    · rw [if_pos htouched, hprevious, hreach key]
    · rw [if_neg huntouched, hprevious, hsame, changeOf_self, changeOf_self]

end Exact

/-! ## A table of issues with unique slugs -/

def issueSpec : SnapshotTableSpec := ⟨"issue", ["id", "slug"], [], ["id"], [["slug"]], none⟩

def issueRow (id slug : String) : SqlRow := [("id", .text id), ("slug", .text slug)]

def issues (rows : List SqlRow) : Table :=
  ⟨"issue", [⟨"id", "text", true, none⟩, ⟨"slug", "text", true, none⟩], ["id"], rows⟩

def issueSet (pos : ℤ) (id : String) : ChangeLogEntry := ⟨"01", pos, "issue", .json [("id", .string id)], .set, []⟩

/-- A snapshot of the issues. -/
def issuesAt (version : String) (rows : List SqlRow) (log : List ChangeLogEntry) : Snapshot :=
  ⟨⟨⟨[issues rows], [⟨"issue_slug", "issue", true, [("slug", .asc)]⟩]⟩, log, [], [], version⟩, "zero", version⟩

def allIssues : Ast := .mk none "issue" none none [] none none none

/-- The pipeline of all issues. -/
def issuesPipeline (rows : List SqlRow) : Pipeline :=
  ⟨allIssues, directRows textKeyEnv allIssues issueSpec rows, ["issue"]⟩

/-- What relates two snapshots of the issues and a log of sets, as checks. -/
theorem issues_consecutive {before after : List SqlRow} {log : List ChangeLogEntry}
    (hlog : tableLog allIssues (issuesAt "00" before []) (issuesAt "01" after log) = log)
    (hbefore : conflictFree [["id"], ["slug"]] before = true) (hafter : conflictFree [["id"], ["slug"]] after = true)
    (hset : ∀ entry ∈ log, ∃ pos id, entry = issueSet pos id) (honce : log.Pairwise (fun e f => ∀ row ∈ after,
      entryMatches textKeyEnv (issues after) e row = true → entryMatches textKeyEnv (issues after) f row = false))
    (hnamed : ∀ row ∈ before, row ∉ after → ∃ entry ∈ log, entryMatches textKeyEnv (issues before) entry row = true)
    (hadded : ∀ row ∈ after, row ∉ before → ∃ entry ∈ log, entryMatches textKeyEnv (issues after) entry row = true) :
    Consecutive textKeyEnv [("issue", issueSpec)] allIssues issueSpec (issuesAt "00" before [])
      (issuesAt "01" after log) (issues before) (issues after) := by
  have hstored : ∀ rows, (issues rows).Stored textKeyEnv.engine := by
    intro rows row _ column
    unfold coerce
    split
    · rfl
    · rfl
  have hop : ∀ entry ∈ log, entry.op = .set := by
    intro entry hentry
    obtain ⟨pos, id, rfl⟩ := hset entry hentry
    rfl
  constructor
  case spec_eq => rfl
  case name_eq => rfl
  case prev_eq => rfl
  case curr_eq => rfl
  case columns_eq => rfl
  case visible => decide
  case prev_stored => exact hstored before
  case curr_stored => exact hstored after
  case prev_unique => exact hbefore
  case curr_unique => exact hafter
  case keyed =>
    intro entry hentry key hkey
    obtain ⟨pos, id, rfl⟩ := hset entry (hlog ▸ hentry)
    cases hkey
    exact ⟨["id"], mem_cons_self, by simp⟩
  case set_once =>
    rw [hlog]
    exact honce.imp (fun h _ _ => h)
  case deleted =>
    intro entry hentry hdel
    simp [hop entry (hlog ▸ hentry)] at hdel
  case removed =>
    intro row hrow hgone
    rw [hlog]
    exact hnamed row hrow hgone
  case added =>
    intro row hrow hnew
    obtain ⟨entry, hentry, hmatch⟩ := hadded row hrow hnew
    rw [hlog]
    exact ⟨entry, hentry, hop entry hentry, hmatch⟩

/-- An advance over the edit of one issue is exact. -/
theorem directExact_of_edit : ∃ diff, materializeDiff textKeyEnv (issuesAt "00" [issueRow "1" "x"] [])
      (issuesAt "01" [issueRow "1" "z"] [issueSet 0 "1"]) [("issue", issueSpec)] ["issue"] = .ok diff ∧
    DirectExact textKeyEnv "q" (issuesPipeline [issueRow "1" "x"]) diff [("issue", issueSpec)] issueSpec
      (issues [issueRow "1" "x"]) (issues [issueRow "1" "z"]) := by
  have hc : Consecutive textKeyEnv [("issue", issueSpec)] allIssues issueSpec
      (issuesAt "00" [issueRow "1" "x"] []) (issuesAt "01" [issueRow "1" "z"] [issueSet 0 "1"])
      (issues [issueRow "1" "x"]) (issues [issueRow "1" "z"]) :=
    issues_consecutive (by decide) (by decide) (by decide) (by simp [issueSet]) (by simp) (by decide)
      (by decide)
  obtain ⟨diff, hdiff⟩ : ∃ diff, materializeDiff textKeyEnv (issuesAt "00" [issueRow "1" "x"] [])
      (issuesAt "01" [issueRow "1" "z"] [issueSet 0 "1"]) [("issue", issueSpec)] ["issue"] = .ok diff :=
    ⟨_, rfl⟩
  have hkeys : KeysIdentify textKeyEnv allIssues issueSpec (issues [issueRow "1" "x"])
      (issues [issueRow "1" "z"]) := by
    unfold KeysIdentify
    decide
  have hone : tableLog allIssues (issuesAt "00" [issueRow "1" "x"] [])
      (issuesAt "01" [issueRow "1" "z"] [issueSet 0 "1"]) = [issueSet 0 "1"] := by
    decide
  refine ⟨diff, hdiff, (directExact_iff hc hkeys hdiff (fun _ => rfl)).mpr ⟨?_, ?_⟩⟩
  · intro entry _ _ row _ _
    rfl
  · change NoTakeover textKeyEnv allIssues _ _ _ _ _
    exact pairwise_singleton _ _

/-- The slug of one issue moves to another: the first issue, set by the first entry, is taken away
by the second, which sets the row that has its slug now. -/
theorem not_directExact_of_moved_slug : ∃ diff, Consecutive textKeyEnv [("issue", issueSpec)] allIssues issueSpec
      (issuesAt "00" [issueRow "1" "x", issueRow "2" "y"] [])
      (issuesAt "01" [issueRow "1" "z", issueRow "2" "x"] [issueSet 0 "1", issueSet 1 "2"])
      (issues [issueRow "1" "x", issueRow "2" "y"]) (issues [issueRow "1" "z", issueRow "2" "x"]) ∧
    KeysIdentify textKeyEnv allIssues issueSpec (issues [issueRow "1" "x", issueRow "2" "y"])
      (issues [issueRow "1" "z", issueRow "2" "x"]) ∧
    materializeDiff textKeyEnv (issuesAt "00" [issueRow "1" "x", issueRow "2" "y"] [])
      (issuesAt "01" [issueRow "1" "z", issueRow "2" "x"] [issueSet 0 "1", issueSet 1 "2"])
      [("issue", issueSpec)] ["issue"] = .ok diff ∧
    ¬ DirectExact textKeyEnv "q" (issuesPipeline [issueRow "1" "x", issueRow "2" "y"]) diff
      [("issue", issueSpec)] issueSpec (issues [issueRow "1" "x", issueRow "2" "y"])
      (issues [issueRow "1" "z", issueRow "2" "x"]) := by
  refine ⟨_, issues_consecutive (by decide) (by decide) (by decide) (by simp [issueSet]) (by decide)
    (by decide) (by decide), by unfold KeysIdentify; decide, rfl, ?_⟩
  rintro ⟨advanced, emitted, hadvance, hrows, -⟩
  cases hadvance
  exact absurd (hrows "issue:1") (by decide)

end ZeroCache.ViewSyncer
