import ZeroCache.Server.Hydration
import ZeroCache.ViewSyncer.GraphMeaning

/-!
# Hydration from SQLite and the meaning of queries

Hydration hands out the rows a query reaches, and so the rows the pipeline of the query holds, if
SQL selects what the query means and no row found through the condition of a level passes for a
parent of a related subquery of that level. In general it does: related subqueries are looked up
for all rows found so far, whatever table they are from.
-/

namespace ZeroCache.Server

open Replica ViewSyncer Zql List Hydrator Subquery Lib HydratePatchesResult

variable {α β : Type}

/-! ## Children of parent rows -/

/-- A column of a child equals the literal of a column of its parent. -/
def pairMatches (asF64 : ℤ → ℚ) (parent child : Row) (pair : String × String) : Bool :=
  (literalOf asF64 parent pair.1).any (fun literal =>
    literalToValue literal ≠ .null && child.get pair.2 = literalToValue literal)

/-- The filter of a parent row selects a child. -/
def filterMatches (asF64 : ℤ → ℚ) (correlation : Correlation) (parent child : Row) : Bool :=
  (correlation.parentField.zip correlation.childField).all (pairMatches asF64 parent child)

section Filter

variable (engine : SqlEngine) (source : Source) (outer : String) {asF64 : ℤ → ℚ}

theorem scalarLiteral_of_literalOf {row : Row} {field : String} {literal : LiteralValue}
    (h : literalOf asF64 row field = some literal) : scalarLiteral literal = true := by
  obtain ⟨value, -, hliteral⟩ := Option.bind_eq_some_iff.mp h
  cases value <;> simp [jsonToLiteral] at hliteral <;> subst hliteral <;> rfl

variable {pairs : List (String × String)} {parent : Row}

/-- The conditions of column pairs, if all of them have literals, hold together of the children. -/
theorem pairConditions_select {formulas : List (Formula SqlTable)}
    (h : pairs.mapM (pairCondition asF64 parent) = some formulas) :
    ∃ tests, allToSql engine source outer formulas = some tests ∧ ∀ row,
      (∀ test ∈ tests, test row = some true) ↔ pairs.all (pairMatches asF64 parent row) = true := by
  induction pairs generalizing formulas with
  | nil =>
    cases h
    exact ⟨[], rfl, by simp⟩
  | cons pair rest ih =>
    simp only [mapM_cons, Option.bind_eq_bind, Option.bind_eq_some_iff, Option.pure_def, Option.some.injEq] at h
    obtain ⟨formula, hformula, others, hothers, rfl⟩ := h
    obtain ⟨literal, hliteral, rfl⟩ := Option.map_eq_some_iff.mp hformula
    obtain ⟨tests, hsql, htests⟩ := ih hothers
    refine ⟨engine.compare .eq (.column pair.2) (.literal literal) :: tests, ?_, fun row => ?_⟩
    · rw [allToSql, hsql]
      rfl
    · rw [forall_mem_cons, htests row, engine.compare_eq _ _ _ (scalarLiteral_of_literalOf hliteral),
      all_cons, pairMatches, hliteral]
      simp

/-- A parent row without a literal for some column has no children. -/
theorem pairMatches_of_none (h : pairs.mapM (pairCondition (α := SqlTable) asF64 parent) = none) (row : Row) :
    pairs.all (pairMatches asF64 parent row) = false := by
  induction pairs with
  | nil => cases h
  | cons pair rest ih =>
    rw [all_cons]
    cases hliteral : literalOf asF64 parent pair.1 with
    | none => simp [pairMatches, hliteral]
    | some =>
      have hrest : rest.mapM (pairCondition (α := SqlTable) asF64 parent) = none := by
        cases hrest : rest.mapM (pairCondition (α := SqlTable) asF64 parent) with
        | none => rfl
        | some => simp [pairCondition, hliteral, hrest] at h
      rw [ih hrest, Bool.and_false]

/-- The conditions of parent rows select the children of any of them. -/
theorem parentConditions_select (asF64 : ℤ → ℚ) (correlation : Correlation) (parents : List Row) :
    ∃ tests, allToSql engine source outer (parents.filterMap (parentCondition asF64 correlation)) = some tests ∧
      ∀ row, (∃ test ∈ tests, test row = some true) ↔
        ∃ parent ∈ parents, filterMatches asF64 correlation parent row = true := by
  induction parents with
  | nil => exact ⟨[], rfl, by simp⟩
  | cons parent rest ih =>
    obtain ⟨tests, hsql, htests⟩ := ih
    cases hpairs : (correlation.parentField.zip correlation.childField).mapM
        (pairCondition (α := SqlTable) asF64 parent) with
    | none =>
      refine ⟨tests, ?_, fun row => ?_⟩
      · rwa [filterMap_cons_none (by rw [parentCondition, hpairs]; rfl)]
      · rw [htests row, exists_mem_cons_iff, filterMatches, pairMatches_of_none hpairs]
        simp
    | some formulas =>
      obtain ⟨own, hown, htest⟩ := pairConditions_select engine source outer hpairs
      refine ⟨sqlAll own :: tests, ?_, fun row => ?_⟩
      · rw [filterMap_cons_some (by rw [parentCondition, hpairs]; rfl), allToSql, filtersToSql, hown, hsql]
        rfl
      · rw [exists_mem_cons_iff, exists_mem_cons_iff, htests row, sqlAll_eq_true, htest row, filterMatches]

/-- The filter of some parent rows selects the children of any of them. -/
theorem correlationFilter_selects (asF64 : ℤ → ℚ) (rows : List Row) (correlation : Correlation) (parents : List Row) :
    Selects rows (filtersToSql engine source outer (correlationFilter asF64 correlation parents))
      (fun row => parents.any (fun parent => filterMatches asF64 correlation parent row)) := by
  obtain ⟨tests, hsql, htests⟩ := parentConditions_select engine source outer asF64 correlation parents
  have hor : Selects rows (filtersToSql engine source outer (.or (parents.filterMap (parentCondition asF64 correlation))))
      (fun row => parents.any (fun parent => filterMatches asF64 correlation parent row)) := by
    refine ⟨sqlAny tests, by rw [filtersToSql, hsql]; rfl, fun row _ => ?_⟩
    rw [sqlAny_eq_true, htests row, any_eq_true]
  obtain ⟨parentField, childField⟩ := correlation
  unfold correlationFilter
  split
  · next parentField childField hparent hchild =>
    subst hparent hchild
    have hmatch : ∀ row : Row, (parents.any (fun parent => filterMatches asF64 ⟨[parentField], [childField]⟩ parent row)) =
        true ↔ ∃ literal ∈ parents.filterMap (fun row => literalOf asF64 row parentField),
          literalToValue literal ≠ .null ∧ row.get childField = literalToValue literal := by
      intro row
      simp only [any_eq_true, filterMatches, zip_cons_cons, zip_nil_left, all_cons,
        all_nil, Bool.and_true, pairMatches, Option.any_eq_true, mem_filterMap]
      constructor
      · rintro ⟨parent, hparent, literal, hliteral, hvalue⟩
        exact ⟨literal, ⟨parent, hparent, hliteral⟩, by simpa using hvalue⟩
      · rintro ⟨literal, ⟨parent, hparent, hliteral⟩, hvalue⟩
        exact ⟨parent, hparent, literal, hliteral, by simpa using hvalue⟩
    split
    · next hnone =>
      refine ⟨sqlAny [], rfl, fun row _ => ?_⟩
      rw [hmatch row, hnone]
      simp [sqlAny_eq_true]
    · refine ⟨_, rfl, fun row _ => ?_⟩
      rw [hmatch row]
      refine engine.compare_in _ _ _ (fun literal hliteral => ?_)
      obtain ⟨parent, -, hliteral⟩ := mem_filterMap.mp hliteral
      exact scalarLiteral_of_literalOf hliteral
  · exact hor

end Filter

/-! ## Rows of a subquery for its parents -/

section Rows

variable {env : Env} {plans : Fields HydrationPlan} {engine : SqlEngine} {source : Source} {queryHash : String}
  {orig version : CvrVersion} {sourceOrder : String → Option QueryOrdering → QueryOrdering}

theorem scope_hydratorOf (ast : Ast) :
    (hydratorOf env plans engine source queryHash orig version ast).scope = sqlTable engine source ast :=
  foldAst_fusion scope (fun _ => rfl) ast

open Formula

/-- The condition hydration compiles for a level is that of the query. -/
theorem where_hydratorOf (ast : Ast) :
    ((queryOf ast).map (hydratorOf env plans engine source queryHash orig version)).where_.map
      (map (map scope)) = (queryOf ast).where_.map (map (map (sqlTable engine source))) := by
  have hmap := Query.map_map (hydratorOf env plans engine source queryHash orig version) scope (queryOf ast)
  have hscope : scope ∘ hydratorOf env plans engine source queryHash orig version = sqlTable engine source :=
    funext scope_hydratorOf
  rw [hscope] at hmap
  exact congrArg Query.where_ hmap

/-- A row satisfies the condition of a query. -/
def whereHolds (source : Source) (sourceOrder : String → Option QueryOrdering → QueryOrdering) (ast : Ast)
    (row : Row) : Bool :=
  ((queryOf ast).map (meaning source sourceOrder)).where_.all (Formula.holds row)

/-- The rows of a subquery that its filter selects for a parent row. -/
def childRows (asF64 : ℤ → ℚ) (source : Source) (sourceOrder : String → Option QueryOrdering → QueryOrdering)
    (correlation : Correlation) (ast : Ast) (parent : Row) : List Row :=
  limited ast.limit ((source.fetch ast.table (sourceOrder ast.table ast.orderBy) none (ast.start.map startOf)).filter
    (fun row => whereHolds source sourceOrder ast row && filterMatches asF64 correlation parent row))

theorem startMatches_boundToStart (order : QueryOrdering) (start : Option Bound) (row : Row) :
    startMatches order (start.bind boundToStart) row = startMatches order (start.map startOf) row := by
  cases start with
  | none => rfl
  | some bound =>
    obtain ⟨value, exclusive⟩ := bound
    have hnone : namedPart order [] = [] := by
      cases order with
      | nil => rfl
      | cons => simp [namedPart]
    cases value with
    | object => rfl
    | _ => simp [startMatches, boundToStart, startOf, skipBound, hnone]

variable {ast : Ast} {correlation : Correlation}

/-- The filter of a subquery for some parent rows selects the children of any of them. -/
theorem relatedFilter_selects (asF64 : ℤ → ℚ) (batch : List Row)
    (sourceOrder : String → Option QueryOrdering → QueryOrdering) (hsql : Everywhere (SqlSane engine source) ast)
    (hequated : correlation.parentField ≠ [] ∧ correlation.parentField.length = correlation.childField.length) :
    ∃ filter, relatedFilter asF64 correlation
        ((queryOf ast).where_.map (map (map (sqlTable engine source)))) batch = some filter ∧
      Selects (source.rows ast.table) (filtersToSql engine source ast.table filter) (fun row =>
        whereHolds source sourceOrder ast row && batch.any
    (fun parent => filterMatches asF64 correlation parent row)) := by
  have hcorrelated : ¬ (correlation.parentField = [] ∨
      correlation.parentField.length ≠ correlation.childField.length) := by
    simp [hequated.1, hequated.2]
  obtain ⟨test, htest, hselects⟩ :=
    correlationFilter_selects engine source ast.table asF64 (source.rows ast.table) correlation batch
  have hown : Selects (source.rows ast.table) (sqlTable engine source ast).filter (whereHolds source sourceOrder ast) :=
    sqlTable_selects hsql
  obtain ⟨whereTest, hwhereTest, hwhereSelects⟩ := hown
  rw [sqlTable, foldAst_eq] at hwhereTest
  cases hwhere : ast.where_ with
  | none =>
    refine ⟨correlationFilter asF64 correlation batch, ?_, test, htest, fun row hrow => ?_⟩
    · simp only [relatedFilter, if_neg hcorrelated, queryOf, hwhere, Option.map_none]
    · rw [hselects row hrow]
      simp [whereHolds, queryOf, Query.map, hwhere]
  | some condition =>
    refine ⟨.and [(formulaOf condition).map (map (sqlTable engine source)),
      correlationFilter asF64 correlation batch], ?_, sqlAll [whereTest, test], ?_, fun row hrow => ?_⟩
    · simp only [relatedFilter, if_neg hcorrelated, queryOf, hwhere, Option.map_some]
    · simp only [queryOf, hwhere] at hwhereTest
      have hfirst : filtersToSql engine source ast.table
          ((formulaOf condition).map (map (sqlTable engine source))) = some whereTest := hwhereTest
      rw [filtersToSql, allToSql, allToSql, htest, hfirst]
      rfl
    · rw [sqlAll_eq_true, forall_mem_cons, forall_mem_singleton, hwhereSelects row hrow, hselects row hrow,
        Bool.and_eq_true]

theorem fetch_boundToStart {table : String} {order : QueryOrdering} (h : SortsApart order (source.rows table))
    (constraint : Option Constraint) (start : Option Bound) :
    source.fetch table order constraint (start.bind boundToStart) =
      source.fetch table order constraint (start.map startOf) := by
  refine eq_of_sorted (source.sorted _ _ _ _ h) (source.sorted _ _ _ _ h) (fun row => ?_)
  rw [source.mem_fetch, source.mem_fetch, startMatches_boundToStart]

/-- The rows fetched with a test that selects a predicate are those that satisfy it. -/
theorem fetchRowsFromSqlite_eq {table : String} {order : QueryOrdering} (h : SortsApart order (source.rows table))
    {test : Row → Option Bool} {p : Row → Bool} (hselects : ∀ row ∈ source.rows table, test row = some true ↔ p row = true)
    (limit : Option ℚ) (start : Option Bound) : fetchRowsFromSqlite source table order test limit start =
      limited limit ((source.fetch table order none (start.map startOf)).filter p) := by
  rw [fetchRowsFromSqlite, fetch_boundToStart h]
  refine congrArg (limited limit) (filter_congr (fun row hrow => ?_))
  rw [Bool.eq_iff_iff, decide_eq_true_eq]
  exact hselects row ((source.mem_fetch _ _ _ _ _).mp hrow).1

/-- The rows of a subquery that are selected for a batch of parent rows: those of each of them. A
limit is on the rows of one parent, so a batch is one parent then. -/
theorem selectRows_batch (asF64 : ℤ → ℚ) {batch : List Row}
    (hsane : Sane source sourceOrder ast) (hsql : Everywhere (SqlSane engine source) ast)
    (hequated : correlation.parentField ≠ [] ∧ correlation.parentField.length = correlation.childField.length)
    (hbatch : ast.limit = none ∨ ∃ parent, batch = [parent]) : ∃ filter rows, relatedFilter asF64 correlation
        ((queryOf ast).where_.map (map (map (sqlTable engine source)))) batch = some filter ∧
      selectRows engine source ast.table (sourceOrder ast.table ast.orderBy) (some filter) ast.limit ast.start =
        .ok rows ∧ ∀ row, row ∈ rows ↔
        ∃ parent ∈ batch, row ∈ childRows asF64 source sourceOrder correlation ast parent := by
  obtain ⟨filter, hfilter, test, htest, hselects⟩ := relatedFilter_selects asF64 batch sourceOrder hsql hequated
  refine ⟨filter, fetchRowsFromSqlite source ast.table (sourceOrder ast.table ast.orderBy) test ast.limit ast.start,
    hfilter, ?_, fun row => ?_⟩
  · simp only [selectRows, htest]
  · rw [fetchRowsFromSqlite_eq hsane.apart hselects]
    rcases hbatch with hlimit | ⟨parent, rfl⟩
    · simp only [childRows, hlimit, limited, mem_filter, Bool.and_eq_true, any_eq_true]
      constructor
      · rintro ⟨hrow, hwhere, parent, hparent, hmatches⟩
        exact ⟨parent, hparent, hrow, hwhere, hmatches⟩
      · rintro ⟨parent, hparent, hrow, hwhere, hmatches⟩
        exact ⟨hrow, hwhere, parent, hparent, hmatches⟩
    · simp [childRows]

end Rows

/-! ## Parents -/

/-- A value that has a literal. -/
def isScalar : JsonValue → Bool
  | .null => true
  | .bool _ => true
  | .number _ => true
  | .string _ => true
  | _ => false

section Parents

variable {source : Source} {sourceOrder : String → Option QueryOrdering → QueryOrdering} {asF64 : ℤ → ℚ}
  {sub : Subquery Ast} {parent : Row}

/-- The filter of a parent row selects exactly the children the row has. -/
def Faithful (asF64 : ℤ → ℚ) (source : Source) (sub : Subquery Ast) (parent : Row) : Prop :=
  ∀ child ∈ source.rows sub.query.table,
    filterMatches asF64 sub.correlation parent child = constraintMatches (sub.constraint parent) child

/-- The filter of a row selects nothing. -/
def Idle (asF64 : ℤ → ℚ) (source : Source) (sub : Subquery Ast) (row : Row) : Prop :=
  ∀ child ∈ source.rows sub.query.table, filterMatches asF64 sub.correlation row child = false

theorem pairMatches_of_scalar {child : Row} {pair : String × String} (h : isScalar (parent.get pair.1) = true) :
    pairMatches asF64 parent child pair = true ↔
      parent.get pair.1 ≠ .null ∧ child.get pair.2 = parent.get pair.1 := by
  have hget : parent.get pair.1 = (Assoc.get? parent pair.1).getD .null := rfl
  rw [hget] at h ⊢
  simp only [pairMatches, literalOf, Option.any_eq_true]
  cases hvalue : Assoc.get? parent pair.1 with
  | none => simp
  | some value =>
    cases value <;> simp_all [isScalar, jsonToLiteral, literalToValue]

theorem faithful_of_scalar (h : ∀ field ∈ sub.correlation.parentField, isScalar (parent.get field) = true) :
    Faithful asF64 source sub parent := by
  intro child _
  simp only [constraintMatches, constraint, childConstraint, all_map]
  refine all_congr_mem (fun pair hpair => ?_)
  rw [Bool.eq_iff_iff, pairMatches_of_scalar (h pair.1 (of_mem_zip hpair).1)]
  simp

/-- The rows selected for a faithful parent row are the children it has. -/
theorem childRows_of_faithful (hsane : Sane source sourceOrder sub.query) (h : Faithful asF64 source sub parent) :
    childRows asF64 source sourceOrder sub.correlation sub.query parent =
      (meaning source sourceOrder sub.query).rows (sub.constraint parent) := by
  rw [meaning_rows]
  refine congrArg _ (eq_of_sorted ((source.sorted _ _ _ _ hsane.apart).filter _)
    ((source.sorted _ _ _ _ hsane.apart).filter _) (fun row => ?_))
  simp only [mem_filter, source.mem_fetch, Bool.and_eq_true, constraintMatches, true_and]
  constructor
  · rintro ⟨⟨hrow, hstart⟩, hwhere, hmatches⟩
    exact ⟨⟨hrow, (h row hrow).symm.trans hmatches, hstart⟩, hwhere⟩
  · rintro ⟨⟨hrow, hmatches, hstart⟩, hwhere⟩
    exact ⟨⟨hrow, hstart⟩, hwhere, (h row hrow).trans hmatches⟩

theorem childRows_of_idle (h : Idle asF64 source sub parent) :
    childRows asF64 source sourceOrder sub.correlation sub.query parent = [] := by
  have hnone : (source.fetch sub.query.table (sourceOrder sub.query.table sub.query.orderBy) none
      (sub.query.start.map startOf)).filter (fun row => whereHolds source sourceOrder sub.query row &&
        filterMatches asF64 sub.correlation parent row) = [] := by
    rw [filter_eq_nil_iff]
    intro row hrow
    simp [h row ((source.mem_fetch _ _ _ _ _).mp hrow).1]
  rw [childRows, hnone]
  cases sub.query.limit with
  | none => rfl
  | some => simp [limited]

end Parents

/-! ## Hydrated pairs -/

/-- The tables and rows of bodies. -/
def pairsOf (bodies : List (RowId × Row)) : List (String × Row) := bodies.map (fun body => (body.1.table, body.2))

@[simp]
theorem pairsOf_append (a b : List (RowId × Row)) : pairsOf (a ++ b) = pairsOf a ++ pairsOf b := map_append

/-- Hydrating one thing after another hands out what each of them hands out. -/
theorem foldlM_append_pairs {items : List α} {f : α → Except HydrationError HydratePatchesResult}
    {handed : α → String × Row → Prop}
    (h : ∀ item ∈ items, ∃ result, f item = .ok result ∧ ∀ pair, pair ∈ pairsOf result.rowBodies ↔ handed item pair)
    (before : HydratePatchesResult) :
    ∃ result, items.foldlM (fun result item => return append result (← f item)) before = .ok result ∧
      ∀ pair, pair ∈ pairsOf result.rowBodies ↔
        pair ∈ pairsOf before.rowBodies ∨ ∃ item ∈ items, handed item pair := by
  induction items generalizing before with
  | nil => exact ⟨before, rfl, by simp⟩
  | cons item rest ih =>
    obtain ⟨own, hown, hpairs⟩ := h item mem_cons_self
    obtain ⟨result, hresult, hrest⟩ := ih (fun i hi => h i (mem_cons_of_mem _ hi)) (before.append own)
    refine ⟨result, ?_, fun pair => ?_⟩
    · rw [foldlM_cons, hown]
      exact hresult
    · rw [hrest pair, append, pairsOf_append, mem_append, hpairs pair, exists_mem_cons_iff, or_assoc]

/-! ## Hydrated and reached rows -/

/-- What one level of a query must satisfy for hydration to hand out the rows it reaches: SQL selects
its rows, the columns its subqueries are looked up by hold scalars, no subquery is below a
disjunction, and no stored row of a table that is reached through its condition has children in one
of its related subqueries. -/
structure HydrationSane (engine : SqlEngine) (asF64 : ℤ → ℚ) (source : Source) (ast : Ast) : Prop where
  sql : SqlSane engine source ast
  scalar : ∀ sub ∈ (queryOf ast).subs, ∀ field ∈ sub.correlation.parentField, ∀ row ∈ source.rows ast.table,
    isScalar (row.get field) = true
  under : ∀ condition ∈ ast.where_, (formulaOf condition).underOr = false
  idle : ∀ related ∈ (queryOf ast).related, ∀ hop ∈ (queryOf ast).existHops, hop.1 = .exist →
    ∀ entry ∈ referencedSources hop.2.query, ∀ row ∈ source.rows entry.1, Idle asF64 source related row

/-- The tables of the replica as they are planned are those the pipelines know. -/
def PlansMatch (plans : Fields HydrationPlan) (specs : Fields SnapshotTableSpec) : Prop :=
  ∀ table spec, specs.get? table = some spec →
    plans.get? table = some ⟨table, spec.primaryKey⟩ ∧ spec.primaryKey.Nodup

section Reached

variable {source : Source} {sourceOrder : String → Option QueryOrdering → QueryOrdering}

variable {constraint : Option Constraint} {ast : Ast}

theorem table_of_reached {pair : String × Row} (h : pair ∈ (meaning source sourceOrder ast).reached constraint) :
    ∃ entry ∈ referencedSources ast, entry.1 = pair.1 := by
  induction ast generalizing constraint with
  | level ast ih =>
    rw [referencedSources, foldAst_eq]
    obtain ⟨row, -, rfl | ⟨sub, hsub, hpair⟩⟩ := mem_reached.mp h
    · exact ⟨_, mem_cons_self, rfl⟩
    · have hmem := hops_subset _ hsub
      obtain ⟨entry, hentry, htable⟩ := ih sub hmem hpair
      refine ⟨entry, mem_cons_of_mem _ ?_, htable⟩
      rw [Query.subs_map, flatMap_map]
      exact mem_flatMap.mpr ⟨sub, hmem, hentry⟩

theorem not_mem_reached (h : (meaning source sourceOrder ast).rows constraint = []) (pair : String × Row) :
    pair ∉ (meaning source sourceOrder ast).reached constraint := by
  intro hpair
  obtain ⟨row, hrow, -⟩ := mem_reached.mp hpair
  rw [h] at hrow
  cases hrow

/-- A row that satisfies a condition without subqueries below a disjunction passes every existence
test of it. -/
theorem existHolds_of_whereHolds (hunder : ∀ condition ∈ ast.where_, (formulaOf condition).underOr = false)
    {row : Row} (h : whereHolds source sourceOrder ast row = true) {hop : ExistsOp × Subquery Ast}
    (hhop : hop ∈ (queryOf ast).existHops) :
    existHolds hop.1 (hop.2.map (meaning source sourceOrder)) row = true := by
  cases hwhere : ast.where_ with
  | none => simp [Query.existHops, queryOf, hwhere] at hhop
  | some condition =>
    simp only [queryOf, hwhere] at hhop
    simp only [whereHolds, queryOf, Query.map, hwhere, Option.map_some, Option.all_some, Formula.holds,
      Formula.holdsWith_map] at h
    rw [Formula.holdsWith_eq_residual _ _ (hunder condition hwhere), Bool.and_eq_true, all_eq_true] at h
    exact h.2 hop hhop

end Reached

section Hydrates

variable (env : Env) (plans : Fields HydrationPlan) (engine : SqlEngine) (specs : Fields SnapshotTableSpec)
  (source : Source) (queryHash : String) (orig version : CvrVersion)

/-- A subquery is hydrated for parent rows that have children or none: the rows it reaches from the
former are handed out. -/
def Hydrates (sub : Subquery Ast) : Prop :=
  ∀ parents : List (RowId × Row),
    (∀ parent ∈ parents, Faithful env.asF64 source sub parent.2 ∨ Idle env.asF64 source sub parent.2) →
    ∃ result, (hydratorOf env plans engine source queryHash orig version sub.query).hydrate sub.correlation parents =
        .ok result ∧
      ∀ pair, pair ∈ pairsOf result.rowBodies ↔ ∃ parent ∈ parents, Faithful env.asF64 source sub parent.2 ∧
        pair ∈ (meaning source (graphSourceOrder specs) sub.query).reached (sub.constraint parent.2)

variable {env plans engine specs source queryHash orig version}

/-- Hydrating subqueries hands out what each of them reaches. -/
theorem hydrateRelated_pairs {subs : List (Subquery Ast)} (parents : List (RowId × Row))
    (h : ∀ sub ∈ subs, Hydrates env plans engine specs source queryHash orig version sub)
    (hparents : ∀ sub ∈ subs, ∀ parent ∈ parents,
      Faithful env.asF64 source sub parent.2 ∨ Idle env.asF64 source sub parent.2) :
    ∃ result, hydrateRelated (subs.map (map (hydratorOf env plans engine source queryHash orig version))) parents =
        .ok result ∧ ∀ pair, pair ∈ pairsOf result.rowBodies ↔ ∃ sub ∈ subs, ∃ parent ∈ parents,
        Faithful env.asF64 source sub parent.2 ∧
          pair ∈ (meaning source (graphSourceOrder specs) sub.query).reached (sub.constraint parent.2) := by
  have heach : ∀ sub ∈ subs, ∃ result,
      (hydratorOf env plans engine source queryHash orig version sub.query).hydrate sub.correlation parents = .ok result ∧
        ∀ pair, pair ∈ pairsOf result.rowBodies ↔ ∃ parent ∈ parents, Faithful env.asF64 source sub parent.2 ∧
          pair ∈ (meaning source (graphSourceOrder specs) sub.query).reached (sub.constraint parent.2) :=
    fun sub hsub => h sub hsub parents (hparents sub hsub)
  obtain ⟨result, hresult, hpairs⟩ := foldlM_append_pairs heach .empty
  refine ⟨result, ?_, fun pair => ?_⟩
  · rw [hydrateRelated, foldlM_map]
    exact hresult
  · rw [hpairs pair]
    simp [empty, pairsOf]

/-- The bodies of a result are rows of a level: they are stored in its table and satisfy its
condition. -/
def RowsOf (specs : Fields SnapshotTableSpec) (source : Source) (ast : Ast) (own : HydratePatchesResult) : Prop :=
  ∀ body ∈ own.rowBodies, body.1.table = ast.table ∧ body.2 ∈ source.rows ast.table ∧
    whereHolds source (graphSourceOrder specs) ast body.2 = true

section Level

variable {ast : Ast} {own : HydratePatchesResult} (hsane : HydrationSane engine env.asF64 source ast)
  (hsubs : ∀ sub ∈ (queryOf ast).subs, Hydrates env plans engine specs source queryHash orig version sub)
  (hown : RowsOf specs source ast own)
include hsane hown

theorem faithful_of_rowsOf {sub : Subquery Ast} (hsub : sub ∈ (queryOf ast).subs) {body : RowId × Row}
    (hbody : body ∈ own.rowBodies) : Faithful env.asF64 source sub body.2 :=
  faithful_of_scalar (fun field hfield => hsane.scalar sub hsub field hfield body.2 (hown body hbody).2.1)

include hsubs

/-- For the rows of a level, the subqueries in its condition hand out what those that must have a
row reach. -/
theorem hydrateRelated_exist : ∃ exist, hydrateRelated (((queryOf ast).map
        (hydratorOf env plans engine source queryHash orig version)).existHops.map Prod.snd) own.rowBodies = .ok exist ∧
      ∀ pair, pair ∈ pairsOf exist.rowBodies ↔ ∃ hop ∈ (queryOf ast).existHops, hop.1 = .exist ∧
        ∃ body ∈ own.rowBodies,
          pair ∈ (meaning source (graphSourceOrder specs) hop.2.query).reached (hop.2.constraint body.2) := by
  have hmem : ∀ sub ∈ (queryOf ast).existHops.map Prod.snd, sub ∈ (queryOf ast).subs :=
    fun sub hsub => mem_append_right _ hsub
  obtain ⟨exist, hexist, hpairs⟩ := hydrateRelated_pairs own.rowBodies (fun sub hsub => hsubs sub (hmem sub hsub))
    (fun sub hsub body hbody => .inl (faithful_of_rowsOf hsane hown (hmem sub hsub) hbody))
  refine ⟨exist, ?_, fun pair => ?_⟩
  · rw [Query.existHops_map, map_map]
    rw [map_map] at hexist
    exact hexist
  · rw [hpairs pair]
    constructor
    · rintro ⟨sub, hsub, body, hbody, -, hpair⟩
      obtain ⟨⟨op, sub⟩, hhop, rfl⟩ := mem_map.mp hsub
      refine ⟨(op, sub), hhop, ?_, body, hbody, hpair⟩
      have hholds := existHolds_of_whereHolds hsane.under (hown body hbody).2.2 hhop
      cases op with
      | exist => rfl
      | notExist =>
        -- A row that passes a test for no row has no children in the subquery.
        have hnone : (meaning source (graphSourceOrder specs) sub.query).rows (sub.constraint body.2) = [] :=
          isEmpty_iff.mp hholds
        exact absurd hpair (not_mem_reached hnone pair)
    · rintro ⟨hop, hhop, -, body, hbody, hpair⟩
      have hsub : hop.2 ∈ (queryOf ast).existHops.map Prod.snd := mem_map_of_mem hhop
      exact ⟨hop.2, hsub, body, hbody, faithful_of_rowsOf hsane hown (hmem _ hsub) hbody, hpair⟩

omit hown in
/-- Below the rows of a level, hydration hands out what the subqueries of the level reach from
them: the rows found through the condition have no children in the related subqueries. -/
theorem hydrateRelated_level (hsub : ∀ sub ∈ (queryOf ast).subs, Sane source (graphSourceOrder specs) sub.query)
    {R : Row → Prop} (hrows : ∀ pair, pair ∈ pairsOf own.rowBodies ↔ ∃ row, R row ∧ (ast.table, row) = pair)
    (hR : ∀ row, R row → row ∈ source.rows ast.table ∧ whereHolds source (graphSourceOrder specs) ast row = true) :
    ∃ exist related,
      hydrateRelated (((queryOf ast).map (hydratorOf env plans engine source queryHash orig version)).existHops.map
        Prod.snd) own.rowBodies = .ok exist ∧
      hydrateRelated ((queryOf ast).map (hydratorOf env plans engine source queryHash orig version)).related
        (own.append exist).rowBodies = .ok related ∧
      ∀ pair, pair ∈ pairsOf ((own.append exist).append related).rowBodies ↔ ∃ row, R row ∧
        ((ast.table, row) = pair ∨ ∃ sub ∈ (queryOf ast).hops,
          pair ∈ (meaning source (graphSourceOrder specs) sub.query).reached (sub.constraint row)) := by
  have hbodies : ∀ body ∈ own.rowBodies, body.1.table = ast.table ∧ R body.2 := by
    intro body hbody
    obtain ⟨row, hrow, heq⟩ := (hrows (body.1.table, body.2)).mp (mem_map_of_mem hbody)
    obtain ⟨htable, rfl⟩ := Prod.mk.inj heq
    exact ⟨htable.symm, hrow⟩
  have hown : RowsOf specs source ast own := fun body hbody => ⟨(hbodies body hbody).1, hR _ (hbodies body hbody).2⟩
  have hmem : ∀ sub ∈ (queryOf ast).related, sub ∈ (queryOf ast).subs := fun sub hsub => mem_append_left _ hsub
  obtain ⟨exist, hexist, hreached⟩ := hydrateRelated_exist hsane hsubs hown
  have hidle : ∀ sub ∈ (queryOf ast).related, ∀ body ∈ exist.rowBodies, Idle env.asF64 source sub body.2 := by
    intro sub hsub body hbody
    obtain ⟨hop, hhop, hmust, parent, -, hpair⟩ :=
      (hreached (body.1.table, body.2)).mp (mem_map_of_mem hbody)
    obtain ⟨entry, hentry, htable⟩ := table_of_reached hpair
    refine hsane.idle sub hsub hop hhop hmust entry hentry body.2 ?_
    rw [htable]
    exact reached_rows hpair
  obtain ⟨related, hrelated, hpairs⟩ := hydrateRelated_pairs (own.append exist).rowBodies
    (fun sub hsub => hsubs sub (hmem sub hsub))
    (fun sub hsub body hbody => (mem_append.mp hbody).imp
      (faithful_of_rowsOf hsane hown (hmem sub hsub)) (hidle sub hsub body))
  refine ⟨exist, related, hexist, hrelated, fun pair => ?_⟩
  simp only [append, pairsOf_append, mem_append] at hpairs ⊢
  rw [hreached pair, hpairs pair]
  constructor
  · rintro ((hpair | ⟨hop, hhop, hmust, body, hbody, hpair⟩) | ⟨sub, hrel, body, hbody, hfaithful, hpair⟩)
    · obtain ⟨row, hrow, heq⟩ := (hrows pair).mp hpair
      exact ⟨row, hrow, .inl heq⟩
    · refine ⟨body.2, (hbodies body hbody).2, .inr ⟨hop.2, mem_append_right _ (mem_map_of_mem ?_), hpair⟩⟩
      exact mem_filter.mpr ⟨hhop, by simpa using hmust⟩
    · rcases hbody with hbody | hbody
      · exact ⟨body.2, (hbodies body hbody).2, .inr ⟨sub, mem_append_left _ hrel, hpair⟩⟩
      · have hnone := childRows_of_faithful (hsub sub (hmem sub hrel)) hfaithful
        rw [childRows_of_idle (hidle sub hrel body hbody)] at hnone
        exact absurd hpair (not_mem_reached hnone.symm pair)
  · rintro ⟨row, hrow, heq | ⟨sub, hin, hpair⟩⟩
    · exact .inl (.inl ((hrows pair).mpr ⟨row, hrow, heq⟩))
    · obtain ⟨body, hbody, heq⟩ := mem_map.mp ((hrows (ast.table, row)).mpr ⟨row, hrow, rfl⟩)
      obtain ⟨-, rfl⟩ := Prod.mk.inj heq
      rcases mem_append.mp hin with hrel | hex
      · exact .inr ⟨sub, hrel, body, .inl hbody, faithful_of_rowsOf hsane hown (hmem sub hrel) hbody, hpair⟩
      · obtain ⟨hop, hhop, rfl⟩ := mem_map.mp hex
        obtain ⟨hhop, hmust⟩ := mem_filter.mp hhop
        exact .inl (.inr ⟨hop, hhop, by simpa using hmust, body, hbody, hpair⟩)

end Level

/-- A completed order names the primary key once. -/
theorem foldl_completeOrder {keys : List String} (hnodup : keys.Nodup) {order : QueryOrdering}
    (hnew : ∀ key ∈ keys, ∀ entry ∈ order, entry.1 ≠ key) :
    keys.foldl (fun order key => if order.any (fun entry => entry.1 = key) then order else order ++ [(key, .asc)])
      order = order ++ keys.map (fun key => (key, .asc)) := by
  induction keys generalizing order with
  | nil => simp
  | cons key rest ih =>
    obtain ⟨hkey, hrest⟩ := nodup_cons.mp hnodup
    have hfresh : ¬ (order.any (fun entry => decide (entry.1 = key)) = true) := by
      rw [Bool.not_eq_true, any_eq_false]
      exact fun entry hentry => by simpa using hnew key mem_cons_self entry hentry
    rw [foldl_cons, if_neg hfresh, ih hrest, append_assoc]
    · rfl
    · intro other hother entry hentry
      rcases mem_append.mp hentry with hmem | hmem
      · exact hnew other (mem_cons_of_mem _ hother) entry hmem
      · rw [mem_singleton.mp hmem]
        rintro rfl
        exact hkey hother

variable {spec : SnapshotTableSpec}

/-- Hydration reads a table in the order of its source. -/
theorem sortForHydration_eq {table : String} (hspec : specs.get? table = some spec)
    (hnodup : spec.primaryKey.Nodup) (orderBy : Option QueryOrdering) :
    sortForHydration ⟨table, spec.primaryKey⟩ orderBy = graphSourceOrder specs table orderBy := by
  have hplain : spec.primaryKey.foldl (fun (order : QueryOrdering) key =>
      if order.any (fun entry => entry.1 = key) then order else order ++ [(key, .asc)]) [] =
        spec.primaryKey.map (fun key => (key, .asc)) :=
    foldl_completeOrder hnodup (fun _ _ _ hentry => by cases hentry)
  rw [graphSourceOrder, hspec]
  cases orderBy with
  | none => exact hplain.symm
  | some order =>
    cases order with
    | nil => exact hplain.symm
    | cons => rfl

/-- Receiving the rows of a subquery hands out all of them. -/
theorem receiveRelatedRows_bodies (hversion : orig.lt version = true) (identity : RowIdentity)
    (existing : Fields ExistingRow) (rows : List Row) :
    ∃ result, receiveRelatedRows identity existing orig version rows = .ok result ∧
      result.rowBodies = bodiesOf identity rows := by
  obtain ⟨⟨outcomes, received⟩, hreceive⟩ := receiveRows_returns hversion identity existing rows ⟨[], []⟩
  rw [receiveRelatedRows, hreceive]
  exact ⟨_, rfl, rfl⟩

theorem pairsOf_bodiesOf (plan : HydrationPlan) (rows : List Row) :
    pairsOf (bodiesOf (identityForPlan env plan queryHash) rows) = rows.map (fun row => (plan.tableName, row)) := by
  rw [pairsOf, bodiesOf, map_map]
  rfl

variable {q : Query β} {parents : List α}

/-- Parents are looked up one by one if there is a limit, and each of them once. -/
theorem mem_parentBatches {batch : List α} (h : batch ∈ parentBatches q parents) :
    q.limit = none ∨ ∃ parent, batch = [parent] := by
  unfold parentBatches at h
  split at h
  · obtain ⟨parent, -, rfl⟩ := mem_map.mp h
    exact .inr ⟨parent, rfl⟩
  · next hplain => exact .inl (by simpa using (not_or.mp hplain).1)

theorem exists_mem_parentBatches {P : α → Prop} :
    (∃ batch ∈ parentBatches q parents, ∃ parent ∈ batch, P parent) ↔ ∃ parent ∈ parents, P parent := by
  unfold parentBatches
  split
  · simp
  · simp

variable {ast : Ast} {correlation : Correlation}

theorem mem_childRows {asF64 : ℤ → ℚ} {sourceOrder : String → Option QueryOrdering → QueryOrdering}
    {parent row : Row} (h : row ∈ childRows asF64 source sourceOrder correlation ast parent) :
    row ∈ source.rows ast.table ∧ whereHolds source sourceOrder ast row = true := by
  obtain ⟨hfetch, hholds⟩ := mem_filter.mp (mem_of_mem_limited h)
  exact ⟨((source.mem_fetch _ _ _ _ _).mp hfetch).1, (Bool.and_eq_true _ _ ▸ hholds).1⟩

section Batches

variable (hspec : specs.get? ast.table = some spec) (hnodup : spec.primaryKey.Nodup)
  (hsane : Sane source (graphSourceOrder specs) ast) (hsql : Everywhere (SqlSane engine source) ast)
  (hequated : correlation.parentField ≠ [] ∧ correlation.parentField.length = correlation.childField.length)
  (hversion : orig.lt version = true)
include hspec hnodup hsane hsql hequated hversion

/-- A batch of parent rows is handed the rows of the subquery for each of them. -/
theorem hydrateBatch_pairs {batch : List (RowId × Row)} (hbatch : ast.limit = none ∨ ∃ parent, batch = [parent]) :
    ∃ result, hydrateBatch env engine source queryHash orig version
        ((queryOf ast).map (hydratorOf env plans engine source queryHash orig version)) correlation
        ⟨ast.table, spec.primaryKey⟩ batch = .ok result ∧
      ∀ pair, pair ∈ pairsOf result.rowBodies ↔ ∃ parent ∈ batch, ∃ row,
        row ∈ childRows env.asF64 source (graphSourceOrder specs) correlation ast parent.2 ∧ (ast.table, row) = pair := by
  have hsingle : ast.limit = none ∨ ∃ parent, batch.map Prod.snd = [parent] :=
    hbatch.imp_right (fun ⟨parent, hparent⟩ => ⟨parent.2, by rw [hparent]; rfl⟩)
  obtain ⟨filter, rows, hfilter, hrows, hmem⟩ := selectRows_batch env.asF64 hsane hsql hequated hsingle
  obtain ⟨result, hresult, hbodies⟩ := receiveRelatedRows_bodies hversion
    (identityForPlan env ⟨ast.table, spec.primaryKey⟩ queryHash) [] rows
  refine ⟨result, ?_, fun pair => ?_⟩
  · rw [hydrateBatch, where_hydratorOf, hfilter, sortForHydration_eq hspec hnodup]
    exact (congrArg (· >>= _) hrows).trans hresult
  · rw [hbodies, pairsOf_bodiesOf]
    simp only [hmem, mem_map, exists_exists_and_eq_and]
    constructor
    · rintro ⟨row, ⟨parent, hparent, hrow⟩, rfl⟩
      exact ⟨parent, hparent, row, hrow, rfl⟩
    · rintro ⟨parent, hparent, row, hrow, rfl⟩
      exact ⟨row, ⟨parent, hparent, hrow⟩, rfl⟩

variable (env plans queryHash) in
/-- The rows of a subquery for parent rows are handed out. -/
theorem hydrateBatches_pairs (parents : List (RowId × Row)) :
    ∃ own, (parentBatches ((queryOf ast).map (hydratorOf env plans engine source queryHash orig version)) parents).foldlM
        (fun result batch => return append result (← hydrateBatch env engine source queryHash orig
          version ((queryOf ast).map (hydratorOf env plans engine source queryHash orig version)) correlation
          ⟨ast.table, spec.primaryKey⟩ batch)) .empty = .ok own ∧
      ∀ pair, pair ∈ pairsOf own.rowBodies ↔ ∃ row, (∃ parent ∈ parents,
        row ∈ childRows env.asF64 source (graphSourceOrder specs) correlation ast parent.2) ∧ (ast.table, row) = pair := by
  have heach := fun batch (hbatch : batch ∈ parentBatches
      ((queryOf ast).map (hydratorOf env plans engine source queryHash orig version)) parents) =>
    @hydrateBatch_pairs env plans engine specs source queryHash orig version spec ast correlation hspec hnodup hsane hsql
      hequated hversion batch (mem_parentBatches hbatch)
  obtain ⟨own, hown, hpairs⟩ := foldlM_append_pairs heach .empty
  refine ⟨own, hown, fun pair => ?_⟩
  rw [hpairs pair, exists_mem_parentBatches]
  simp only [empty, pairsOf, map_nil, not_mem_nil, false_or]
  constructor
  · rintro ⟨parent, hparent, row, hrow, heq⟩
    exact ⟨row, ⟨parent, hparent, hrow⟩, heq⟩
  · rintro ⟨row, ⟨parent, hparent, hrow⟩, heq⟩
    exact ⟨parent, hparent, row, hrow, heq⟩

end Batches

theorem hydrate_hydratorOf (ast : Ast) : (hydratorOf env plans engine source queryHash orig version ast).hydrate =
      hydrateLevel env plans engine source queryHash orig version
        ((queryOf ast).map (hydratorOf env plans engine source queryHash orig version)) := by
  rw [hydratorOf, foldAst_eq]
  rfl

/-- A subquery whose levels are sane is hydrated as it means. -/
theorem hydrates_of_sane {sub : Subquery Ast} (hplans : PlansMatch plans specs) (hversion : orig.lt version = true)
    (hknown : ∀ entry ∈ referencedSources sub.query, (specs.get? entry.1).isSome)
    (hsane : Everywhere (Sane source (graphSourceOrder specs)) sub.query)
    (hhydration : Everywhere (HydrationSane engine env.asF64 source) sub.query)
    (hequated : sub.correlation.parentField ≠ [] ∧
      sub.correlation.parentField.length = sub.correlation.childField.length) :
    Hydrates env plans engine specs source queryHash orig version sub := by
  obtain ⟨alias_, correlation, ast⟩ := sub
  induction ast generalizing alias_ correlation with
  | level ast ih =>
    intro parents hparents
    obtain ⟨spec, hspec⟩ := Option.isSome_iff_exists.mp (hknown _ (table_mem_referencedSources ast))
    obtain ⟨hplan, hnodup⟩ := hplans ast.table spec hspec
    have hsubs : ∀ sub ∈ (queryOf ast).subs, Hydrates env plans engine specs source queryHash orig version sub :=
      fun sub hsub => ih sub hsub sub.alias_ sub.correlation
        (fun entry hentry => hknown entry (mem_referencedSources_sub hsub hentry)) (hsane.sub hsub)
        (hhydration.sub hsub) (hhydration.level.sql.equated sub hsub)
    obtain ⟨own, hown, hpairs⟩ := hydrateBatches_pairs env plans queryHash hspec hnodup hsane.level
      (hhydration.imp (fun _ h => h.sql)) hequated hversion parents
    obtain ⟨exist, related, hexist, hrelated, hall⟩ := hydrateRelated_level hhydration.level hsubs
      (fun sub hsub => (hsane.sub hsub).level) hpairs (fun _ ⟨_, _, hrow⟩ => mem_childRows hrow)
    refine ⟨(own.append exist).append related, ?_, fun pair => ?_⟩
    · have hplanned : planFor plans ast.table = .ok ⟨ast.table, spec.primaryKey⟩ := by rw [planFor, hplan]
      rw [hydrate_hydratorOf]
      refine (bind_of_ok hplanned _).trans ((bind_of_ok hown _).trans ?_)
      exact (bind_of_ok hexist _).trans (bind_of_ok hrelated _)
    · rw [hall pair]
      constructor
      · rintro ⟨row, ⟨parent, hparent, hrow⟩, hpair⟩
        rcases hparents parent hparent with hfaithful | hidle
        · refine ⟨parent, hparent, hfaithful, mem_reached.mpr ⟨row, ?_, hpair⟩⟩
          rwa [← childRows_of_faithful hsane.level hfaithful]
        · rw [childRows_of_idle hidle] at hrow
          cases hrow
      · rintro ⟨parent, hparent, hfaithful, hpair⟩
        obtain ⟨row, hrow, hpair⟩ := mem_reached.mp hpair
        rw [← childRows_of_faithful hsane.level hfaithful] at hrow
        exact ⟨row, ⟨parent, hparent, hrow⟩, hpair⟩

/-- The root rows of a query are those it means. -/
theorem selectRows_root (hsane : Sane source (graphSourceOrder specs) ast)
    (hsql : Everywhere (SqlSane engine source) ast) :
    selectRows engine source ast.table (graphSourceOrder specs ast.table ast.orderBy)
      ((queryOf ast).where_.map (Formula.map (map (sqlTable engine source)))) ast.limit ast.start =
        .ok ((meaning source (graphSourceOrder specs) ast).rows none) := by
  have hown : Selects (source.rows ast.table) (sqlTable engine source ast).filter
      (whereHolds source (graphSourceOrder specs) ast) := sqlTable_selects hsql
  obtain ⟨test, htest, hselects⟩ := hown
  rw [sqlTable, foldAst_eq] at htest
  have hselect : selectRows engine source ast.table (graphSourceOrder specs ast.table ast.orderBy)
      ((queryOf ast).where_.map (Formula.map (map (sqlTable engine source)))) ast.limit ast.start =
        .ok (fetchRowsFromSqlite source ast.table (graphSourceOrder specs ast.table ast.orderBy) test ast.limit
          ast.start) := by
    simp only [queryOf] at htest
    cases hwhere : ast.where_ with
    | none =>
      rw [hwhere] at htest
      cases htest
      simp only [selectRows, queryOf, hwhere, Option.map_none]
    | some condition =>
      rw [hwhere] at htest
      have hcompiled : filtersToSql engine source ast.table
          ((formulaOf condition).map (map (sqlTable engine source))) = some test := htest
      simp only [selectRows, queryOf, hwhere, Option.map_some, hcompiled]
  rw [hselect, meaning_rows, fetchRowsFromSqlite_eq hsane.apart hselects]
  rfl

variable {cvr : Cvr}

/-- Executing a query hands out the rows selected for it, at a new version. -/
theorem hydrateRoot_bodies (env : Env) (records : List RowRecord) (hversion : cvr.version.lt orig = false)
    (tracked : List String) (queryHash : String) (plan : HydrationPlan) {rows : List Row}
    (hselect : selectRows engine source plan.tableName (sortForHydration plan ast.orderBy)
      ((queryOf ast).where_.map (Formula.map (map (sqlTable engine source)))) ast.limit ast.start =
    .ok rows) :
    ∃ root cvr' tracked', hydrateRoot env engine source records cvr orig tracked queryHash plan ast =
        .ok (root, cvr', tracked') ∧ root.rowBodies = bodiesOf (identityForPlan env plan queryHash) rows ∧
      orig.lt cvr'.version = true := by
  have hensured : ({ cvr with version := orig.ensureNewVersion cvr.version } : Cvr).version.lt orig = false :=
    CvrVersion.not_lt_of_lt (CvrVersion.lt_ensureNewVersion hversion)
  obtain ⟨received, cvr', tracked', hreceived, hlt⟩ := hydrateQueryFromRows_returns (identityForPlan env plan queryHash)
    hensured tracked queryHash queryHash rows (existingRows env records plan queryHash).received
    (existingRows env records plan queryHash).forDeletion
  refine ⟨⟨hydrationToPatches (identityForPlan env plan queryHash) received cvr'.version,
    hydrationRowUpdates (identityForPlan env plan queryHash) received,
    bodiesOf (identityForPlan env plan queryHash) rows⟩, cvr', tracked', ?_, rfl, hlt⟩
  refine (bind_of_ok hselect _).trans ?_
  simp only [hreceived]
  rfl

/-- Hydrating a query whose levels are sane hands out the rows it reaches. -/
theorem hydrateAst_pairs (hspec : specs.get? ast.table = some spec)
    (hplans : PlansMatch plans specs) (hknown : ∀ entry ∈ referencedSources ast, (specs.get? entry.1).isSome)
    (hsane : Everywhere (Sane source (graphSourceOrder specs)) ast)
    (hhydration : Everywhere (HydrationSane engine env.asF64 source) ast) (records : List RowRecord)
    (hversion : cvr.version.lt orig = false) (tracked : List String) (queryHash : String) :
    ∃ result cvr' tracked', hydrateAst env plans engine source records cvr orig tracked queryHash
        ⟨ast.table, spec.primaryKey⟩ ast = .ok (result, cvr', tracked') ∧ ∀ pair, pair ∈ pairsOf result.rowBodies ↔
        pair ∈ (meaning source (graphSourceOrder specs) ast).reached none := by
  obtain ⟨hplan, hnodup⟩ := hplans ast.table spec hspec
  have hselect := selectRows_root hsane.level (hhydration.imp (fun _ h => h.sql))
  rw [← sortForHydration_eq hspec hnodup] at hselect
  obtain ⟨root, cvr', tracked', hroot, hbodies, hlt⟩ :=
    hydrateRoot_bodies env records hversion tracked queryHash ⟨ast.table, spec.primaryKey⟩ hselect
  have hpairs : ∀ pair, pair ∈ pairsOf root.rowBodies ↔
      ∃ row ∈ (meaning source (graphSourceOrder specs) ast).rows none, (ast.table, row) = pair := by
    intro pair
    rw [hbodies, pairsOf_bodiesOf, mem_map]
  have hrows : ∀ row ∈ (meaning source (graphSourceOrder specs) ast).rows none, row ∈ source.rows ast.table ∧
      whereHolds source (graphSourceOrder specs) ast row = true := by
    intro row hrow
    rw [meaning_rows] at hrow
    obtain ⟨hfetch, hholds⟩ := mem_filter.mp (mem_of_mem_limited hrow)
    exact ⟨((source.mem_fetch _ _ _ _ _).mp hfetch).1, hholds⟩
  have hsubs : ∀ sub ∈ (queryOf ast).subs, Hydrates env plans engine specs source queryHash orig cvr'.version sub :=
    fun sub hsub => hydrates_of_sane hplans hlt
      (fun entry hentry => hknown entry (mem_referencedSources_sub hsub hentry)) (hsane.sub hsub)
      (hhydration.sub hsub) (hhydration.level.sql.equated sub hsub)
  obtain ⟨exist, related, hexist, hrelated, hall⟩ := hydrateRelated_level hhydration.level hsubs
    (fun sub hsub => (hsane.sub hsub).level) hpairs hrows
  refine ⟨(root.append exist).append related, cvr', tracked', ?_, fun pair => ?_⟩
  · exact (bind_of_ok hroot _).trans ((bind_of_ok hexist _).trans (bind_of_ok hrelated _))
  · rw [hall pair, mem_reached]

end Hydrates

/-! ## Hydration and pipelines -/

/-- A row as the wire carries it, without its version. -/
def wireRow (row : Row) : Row := row.filter (fun entry => entry.1 ≠ zeroVersionColumnName)

theorem wireRow_clampRowVersion (row : Row) (minRowVersion : Option String) :
    wireRow (clampRowVersion row minRowVersion) = wireRow row := by
  cases minRowVersion with
  | none => rfl
  | some =>
    unfold wireRow clampRowVersion
    induction row with
    | nil => rfl
    | cons entry rest ih =>
      simp only [map_cons, filter_cons, ih]
      split
      · split_ifs <;> simp_all
      · rfl

/-- Hydrating a query hands a client, as the wire carries them, exactly the rows that the pipeline of
the query holds over the same database. -/
def HandsOutHeldRows (env : Env) (plans : Fields HydrationPlan) (engine : SqlEngine)
    (specs : Fields SnapshotTableSpec) (source : Source) (records : List RowRecord) (cvr : Cvr) (orig : CvrVersion)
    (tracked : List String) (queryHash : String) (ast : Ast) : Prop :=
  ∃ plan result cvr' tracked' output, plans.get? ast.table = some plan ∧
    hydrateAst env plans engine source records cvr orig tracked queryHash plan ast = .ok (result, cvr', tracked') ∧
    hydrateGraph env specs source ast = .ok output ∧
    ∀ table row, (∃ body ∈ result.rowBodies, body.1.table = table ∧ wireRow body.2 = row) ↔
      ∃ key entry, output.get? key = some entry ∧ entry.table = table ∧ wireRow entry.row = row

/-- An engine that compares as the filters of the pipeline do. -/
def filterEngine : SqlEngine where
  compare := fun op left right row => some (simpleHolds op left right row)
  compare_eq := by
    intro column literal row _
    by_cases hnull : literalToValue literal = .null
    · simp [simpleHolds, createSimplePredicate, hnull]
    · by_cases hrow : row.get column = .null
      · simp [simpleHolds, createSimplePredicate, hnull, hrow, Ne.symm hnull]
      · simp [simpleHolds, createSimplePredicate, hnull, hrow, evalNonNullOp]
  compare_in := by
    intro column items row _
    have hvalue : literalToValue (.array items) = .array (items.map literalToValue) := by
      rw [literalToValue, literalsToValues_eq]
    by_cases hrow : row.get column = .null
    · simp [simpleHolds, createSimplePredicate, hvalue, hrow, eq_comm]
    · have hholds : simpleHolds .inList (.column column) (.literal (.array items)) row = true ↔
          ∃ item ∈ items, literalToValue item = row.get column := by
        simp [simpleHolds, createSimplePredicate, hvalue, hrow, evalNonNullOp, inSet]
      rw [Option.some.injEq, hholds]
      constructor
      · rintro ⟨item, hitem, heq⟩
        exact ⟨item, hitem, heq ▸ hrow, heq.symm⟩
      · rintro ⟨item, hitem, -, heq⟩
        exact ⟨item, hitem, heq.symm⟩

/-- The plans of the tables of the tracker. -/
def trackerPlans : Fields HydrationPlan :=
  [("issue", ⟨"issue", ["id"]⟩), ("comment", ⟨"comment", ["id"]⟩), ("label", ⟨"label", ["id"]⟩)]

/-- The issue of one label is called like the comment of another issue. -/
def namesakeTables (table : String) : List Row :=
  if table = "label" then [trackerRow "l" "i", trackerRow "m" "c"] else trackerTables table

/-- Issues with a comment, and their labels. -/
def labelsOfCommented : Ast := issuesWith (some (hasRowIn "comment")) [ofIssue "label" (some "labels")]

/-- An empty record. -/
def newCvr : Cvr := ⟨⟨"00", none⟩, [], []⟩

theorem plansMatch_tracker : PlansMatch trackerPlans trackerSpecs := by
  have hall : ∀ entry ∈ trackerSpecs, trackerPlans.get? entry.1 = some ⟨entry.1, entry.2.primaryKey⟩ ∧
      entry.2.primaryKey.Nodup := by
    decide
  exact fun table spec hspec => hall (table, spec) (Assoc.mem_of_get? hspec)

theorem hydrationSane_leaf {table : String} {alias_ : Option String} :
    HydrationSane filterEngine textKeyEnv.asF64 (Source.ofTables trackerTables) (ofIssue table alias_).subquery := by
  refine ⟨⟨?_, ?_, ?_, ?_⟩, ?_, ?_, ?_⟩
  · exact fun condition hcondition => by cases hcondition
  · exact fun sub hsub => by cases hsub
  · exact fun hop hhop => by cases hhop
  · exact fun hop hhop => by cases hhop
  · exact fun sub hsub => by cases hsub
  · exact fun condition hcondition => by cases hcondition
  · exact fun sub hsub => by cases hsub

theorem existHops_commentsOfLabelled :
    (queryOf commentsOfLabelled).existHops = [(.exist, subOf (ofIssue "label" (some "label")))] := rfl

/-- The label of the namesake is handed out with the labels of the commented issue. -/
theorem pairsOf_labelsOfCommented : (hydrateAst textKeyEnv trackerPlans filterEngine (Source.ofTables namesakeTables) []
    newCvr ⟨"00", none⟩ [] "q" ⟨"issue", ["id"]⟩ labelsOfCommented).toOption.map
      (fun result => pairsOf result.1.rowBodies) =
        some [("issue", trackerRow "i" ""), ("comment", trackerRow "c" "i"), ("label", trackerRow "l" "i"),
          ("label", trackerRow "m" "c")] := by
  rfl

theorem hydrateGraph_labelsOfCommented : hydrateGraph textKeyEnv trackerSpecs (Source.ofTables namesakeTables)
    labelsOfCommented = .ok [("issue:i", ⟨"issue", trackerRow "i" "", [("id", .string "i")]⟩),
      ("label:l", ⟨"label", trackerRow "l" "i", [("id", .string "l")]⟩),
      ("comment:c", ⟨"comment", trackerRow "c" "i", [("id", .string "c")]⟩)] := by
  rfl

end ZeroCache.Server
