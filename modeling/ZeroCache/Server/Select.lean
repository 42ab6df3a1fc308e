import ZeroCache.Zql.Correct
import ZeroCache.Lib.SqlCondition

/-!
# Conditions in SQL

Hydration does not run a query through the operator graph: it compiles the condition of each level
to SQL and lets SQLite select the rows (`query_builder.rs`). A condition in SQL is true, false or
null, and a row is selected when it is true. What SQLite makes of a comparison is a parameter; of
the comparisons hydration itself adds, `IN` and `=` with a literal, it is assumed that they hold for
equal values that are not null.
-/

namespace ZeroCache.Server

open Zql List Option Formula Subquery
open Sqlite (sqlAnd sqlOr sqlAnd_eq_true sqlOr_eq_true)

variable {α β : Type}

/-- What a condition is for a row; `none` is null. -/
abbrev SqlTest := Row → Option Bool

/-- A literal that is not a list. -/
def scalarLiteral : LiteralValue → Bool
  | .array _ => false
  | _ => true

/-- How SQLite evaluates comparisons. -/
structure SqlEngine where
  compare : SimpleOperator → ValuePosition → ValuePosition → SqlTest
  compare_eq : ∀ column literal row, scalarLiteral literal = true →
    (compare .eq (.column column) (.literal literal) row = some true ↔
      literalToValue literal ≠ .null ∧ row.get column = literalToValue literal)
  compare_in : ∀ column items row, (∀ item ∈ items, scalarLiteral item = true) →
    (compare .inList (.column column) (.literal (.array items)) row = some true ↔
      ∃ item ∈ items, literalToValue item ≠ .null ∧ row.get column = literalToValue item)

/-! ## Connectives -/

/-- The conjunction of tests. -/
def sqlAll (tests : List SqlTest) : SqlTest := fun row => tests.foldr (fun test rest => sqlAnd (test row) rest) (some true)

/-- The disjunction of tests. -/
def sqlAny (tests : List SqlTest) : SqlTest := fun row => tests.foldr (fun test rest => sqlOr (test row) rest) (some false)

variable {tests : List SqlTest} {row : Row}

theorem sqlAll_eq_true : sqlAll tests row = some true ↔ ∀ test ∈ tests, test row = some true := by
  induction tests with
  | nil => simp [sqlAll]
  | cons test rest ih =>
    rw [sqlAll] at ih
    rw [sqlAll, foldr_cons, sqlAnd_eq_true, ih, forall_mem_cons]

theorem sqlAny_eq_true : sqlAny tests row = some true ↔ ∃ test ∈ tests, test row = some true := by
  induction tests with
  | nil => simp [sqlAny]
  | cons test rest ih =>
    rw [sqlAny] at ih
    rw [sqlAny, foldr_cons, sqlOr_eq_true, ih]
    simp only [mem_cons, exists_eq_or_imp]

/-! ## Compiling conditions -/

/-- Whether a side of a comparison is a literal. -/
def isLiteral : ValuePosition → Bool
  | .literal _ => true
  | _ => false

/-- A table with the condition its rows are selected by; there is none if it cannot be compiled. -/
structure SqlTable where
  table : String
  filter : Option SqlTest

/-- A row of the subquery belongs to a row of the table outside. Columns are named by their tables,
so in a subquery on the outer table itself both columns are of the inner row. -/
def correlates (outer : String) (sub : Subquery SqlTable) (row child : Row) : Bool :=
  (sub.correlation.parentField.zip sub.correlation.childField).all (fun pair =>
    let parent := if sub.query.table = outer then child else row
    parent.get pair.1 ≠ .null && child.get pair.2 = parent.get pair.1)

section Compile

variable (engine : SqlEngine) (source : Source)

/-- A comparison in SQL (`simple_condition_to_sql`). -/
def simpleConditionToSql (op : SimpleOperator) (left right : ValuePosition) : Option SqlTest :=
  if isBound left && isBound right && (isLiteral right || (op ≠ .inList && op ≠ .notInList)) then
    some (engine.compare op left right)
  else none

/-- An existence test in SQL; the limit, the start and the order of the subquery are not part of it
(`exists_to_sql`). -/
def existsToSql (outer : String) (op : ExistsOp) (sub : Subquery SqlTable) : Option SqlTest :=
  if sub.correlation.parentField.length ≠ sub.correlation.childField.length ∨ sub.correlation.parentField = [] then
    none
  else
    sub.query.filter.map (fun filter row =>
      let found := (source.rows sub.query.table).any
        (fun child => correlates outer sub row child && filter child = some true)
      match op with
      | .exist => some found
      | .notExist => some (!found))

mutual
/-- A condition in SQL (`filters_to_sql_with_outer`). -/
def filtersToSql (outer : String) : Formula SqlTable → Option SqlTest
  | .simple op left right => simpleConditionToSql engine op left right
  | .and formulas => (allToSql outer formulas).map sqlAll
  | .or formulas => (allToSql outer formulas).map sqlAny
  | .exist op sub => existsToSql source outer op sub

/-- Conditions in SQL. -/
def allToSql (outer : String) : List (Formula SqlTable) → Option (List SqlTest)
  | [] => some []
  | formula :: rest => do return (← filtersToSql outer formula) :: (← allToSql outer rest)
end

/-- The condition of one level in SQL. -/
def whereToSql (q : Query SqlTable) : Option SqlTest :=
  match q.where_ with
  | none => some (fun _ => some true)
  | some formula => filtersToSql engine source q.table formula

/-- The table of a query and its condition in SQL. -/
def sqlTable (ast : Ast) : SqlTable :=
  foldAst (fun q => { table := q.table, filter := whereToSql engine source q }) ast

/-- The start of a read at a bound, if the bound is a row (`bound_to_start`). -/
def boundToStart (bound : Bound) : Option Start :=
  match bound.row with
  | .object entries => some ⟨entries, if bound.exclusive then .after else .at⟩
  | _ => none

/-- The rows SQLite selects, in order and up to a limit (`fetch_rows_from_sqlite`). -/
def fetchRowsFromSqlite (table : String) (order : QueryOrdering) (test : SqlTest) (limit : Option ℚ)
    (start : Option Bound) : List Row :=
  limited limit ((source.fetch table order none (start.bind boundToStart)).filter (fun row => test row = some true))

end Compile

/-! ## What SQL selects -/

/-- A condition can be compiled, and of some rows it selects those that have a property. -/
def Selects (rows : List Row) (sql : Option SqlTest) (property : Row → Bool) : Prop :=
  ∃ test, sql = some test ∧ ∀ row ∈ rows, test row = some true ↔ property row = true

/-- What one level of a query must satisfy for SQL to select its rows: SQLite compares as the filters
of the pipeline do, every correlation equates columns, and a subquery in the condition is on another
table, has no start and does not ask for zero rows. -/
structure SqlSane (engine : SqlEngine) (source : Source) (ast : Ast) : Prop where
  compared : ∀ condition ∈ ast.where_, ∀ simple ∈ (formulaOf condition).simples,
    Selects (source.rows ast.table) (simpleConditionToSql engine simple.1 simple.2.1 simple.2.2)
      (simpleHolds simple.1 simple.2.1 simple.2.2)
  equated : ∀ sub ∈ (queryOf ast).subs, sub.correlation.parentField ≠ [] ∧
    sub.correlation.parentField.length = sub.correlation.childField.length
  outer : ∀ hop ∈ (queryOf ast).existHops, hop.2.query.table ≠ ast.table
  whole : ∀ hop ∈ (queryOf ast).existHops, hop.2.query.start = none ∧ ∀ limit ∈ hop.2.query.limit, limitOf limit ≠ 0

section Meaning

variable {engine : SqlEngine} {source : Source} {sourceOrder : String → Option QueryOrdering → QueryOrdering}
  {rows : List Row}

variable {outer : String}

/-- Arms that are each selected by a property are together selected by all and by any of them. -/
theorem allToSql_selects {sql : α → Formula SqlTable} {property : α → Row → Bool} {arms : List α}
    (h : ∀ arm ∈ arms, Selects rows (filtersToSql engine source outer (sql arm)) (property arm)) :
    ∃ tests, allToSql engine source outer (arms.map sql) = some tests ∧ ∀ row ∈ rows,
      ((∀ test ∈ tests, test row = some true) ↔ ∀ arm ∈ arms, property arm row = true) ∧
      ((∃ test ∈ tests, test row = some true) ↔ ∃ arm ∈ arms, property arm row = true) := by
  induction arms with
  | nil => exact ⟨[], rfl, by simp⟩
  | cons arm rest ih =>
    obtain ⟨test, hsql, htest⟩ := h arm mem_cons_self
    obtain ⟨tests, hsqls, htests⟩ := ih (fun a ha => h a (mem_cons_of_mem _ ha))
    refine ⟨test :: tests, ?_, fun row hrow => ?_⟩
    · rw [map_cons, allToSql, hsql, hsqls]
      rfl
    · simp only [forall_mem_cons, exists_mem_cons_iff, htest row hrow, (htests row hrow).1,
        (htests row hrow).2, and_self]

/-- A condition is selected as it means, if its comparisons and its existence tests are. -/
theorem filtersToSql_selects (f : Subquery α → Subquery SqlTable)
    {exist : ExistsOp → Subquery α → Row → Bool} (formula : Formula α) (hsimple : ∀ simple ∈ formula.simples,
      Selects rows (simpleConditionToSql engine simple.1 simple.2.1 simple.2.2) (simpleHolds simple.1 simple.2.1 simple.2.2))
    (hexist : ∀ hop ∈ formula.gather, Selects rows (existsToSql source outer hop.1 (f hop.2)) (exist hop.1 hop.2)) :
    Selects rows (filtersToSql engine source outer (formula.map f)) (fun row => formula.holdsWith exist row) := by
  induction formula with
  | simple op left right => exact hsimple (op, left, right) (by simp [simples])
  | exist op sub => exact hexist (op, sub) (by simp [gather])
  | and formulas ih =>
    obtain ⟨tests, hsql, htests⟩ := allToSql_selects (fun f hf => ih f hf
      (fun simple hmem => hsimple simple (by simpa [simples] using ⟨f, hf, hmem⟩))
      (fun hop hmem => hexist hop (by simpa [gather] using ⟨f, hf, hmem⟩)))
    refine ⟨sqlAll tests, ?_, fun row hrow => ?_⟩
    · rw [Formula.map, mapAll_eq, filtersToSql, hsql]
      rfl
    · simp only [sqlAll_eq_true, (htests row hrow).1, holdsWith, allHold_eq, List.all_eq_true]
  | or formulas ih =>
    obtain ⟨tests, hsql, htests⟩ := allToSql_selects (fun f hf => ih f hf
      (fun simple hmem => hsimple simple (by simpa [simples] using ⟨f, hf, hmem⟩))
      (fun hop hmem => hexist hop (by simpa [gather] using ⟨f, hf, hmem⟩)))
    refine ⟨sqlAny tests, ?_, fun row hrow => ?_⟩
    · rw [Formula.map, mapAll_eq, filtersToSql, hsql]
      rfl
    · simp only [sqlAny_eq_true, (htests row hrow).2, holdsWith, anyHolds_eq, List.any_eq_true]

theorem limited_eq_nil {γ : Type} {limit : Option ℚ} (h : ∀ n ∈ limit, limitOf n ≠ 0) (rows : List γ) :
    limited limit rows = [] ↔ rows = [] := by
  cases limit with
  | none => rfl
  | some n => simp [limited, h n rfl]

variable {ast : Ast}

/-- A subquery without a start that may return rows has one when a row of its table matches. -/
theorem rows_ne_nil_iff (hstart : ast.start = none) (hlimit : ∀ limit ∈ ast.limit, limitOf limit ≠ 0)
    (constraint : Option Constraint) :
    (meaning source sourceOrder ast).rows constraint ≠ [] ↔ ∃ row ∈ source.rows ast.table,
      constraintMatches constraint row = true ∧
        ((queryOf ast).map (meaning source sourceOrder)).where_.all (holds row) = true := by
  rw [meaning_rows, hstart, ne_eq, limited_eq_nil hlimit, filter_eq_nil_iff]
  simp only [map_none, not_forall, not_not, source.mem_fetch, startMatches, and_true]
  constructor
  · rintro ⟨row, ⟨hrow, hmatches⟩, hholds⟩
    exact ⟨row, hrow, hmatches, hholds⟩
  · rintro ⟨row, hrow, hmatches, hholds⟩
    exact ⟨row, ⟨hrow, hmatches⟩, hholds⟩

theorem correlates_eq {sub : Subquery SqlTable} (h : sub.query.table ≠ outer) (row child : Row) :
    correlates outer sub row child = constraintMatches (sub.constraint row) child := by
  simp only [correlates, h, constraintMatches, constraint, childConstraint, List.all_map]
  rfl

theorem sqlTable_table (ast : Ast) : (sqlTable engine source ast).table = ast.table := by
  rw [sqlTable, foldAst_eq]
  rfl

/-- An existence test is selected as it means. -/
theorem existsToSql_selects {sub : Subquery Ast} (op : ExistsOp) (hequated : sub.correlation.parentField ≠ [] ∧
      sub.correlation.parentField.length = sub.correlation.childField.length)
    (houter : sub.query.table ≠ outer) (hstart : sub.query.start = none)
    (hlimit : ∀ limit ∈ sub.query.limit, limitOf limit ≠ 0)
    (hfilter : Selects (source.rows sub.query.table) (sqlTable engine source sub.query).filter
      (fun row => ((queryOf sub.query).map (meaning source sourceOrder)).where_.all (holds row))) :
    Selects rows (existsToSql source outer op (sub.map (sqlTable engine source)))
      (existHolds op (sub.map (meaning source sourceOrder))) := by
  obtain ⟨filter, hsql, htest⟩ := hfilter
  have htable : (sub.map (sqlTable engine source)).query.table = sub.query.table := sqlTable_table sub.query
  have hfound : ∀ row, ((source.rows sub.query.table).any (fun child =>
      correlates outer (sub.map (sqlTable engine source)) row child && decide (filter child = some true))) =
        !((meaning source sourceOrder sub.query).rows (sub.constraint row)).isEmpty := by
    intro row
    rw [Bool.eq_iff_iff, List.any_eq_true, Bool.not_eq_true', isEmpty_eq_false_iff, rows_ne_nil_iff hstart hlimit]
    refine exists_congr (fun child => and_congr_right (fun hchild => ?_))
    rw [Bool.and_eq_true, decide_eq_true_eq, htest child hchild, correlates_eq (htable ▸ houter)]
    rfl
  have hsome : existsToSql source outer op (sub.map (sqlTable engine source)) =
      some (fun row => some (existHolds op (sub.map (meaning source sourceOrder)) row)) := by
    have hcompiled : ¬ ((sub.map (sqlTable engine source)).correlation.parentField.length ≠
        (sub.map (sqlTable engine source)).correlation.childField.length ∨
          (sub.map (sqlTable engine source)).correlation.parentField = []) := by
      simp [Subquery.map, hequated.1, hequated.2]
    rw [existsToSql, if_neg hcompiled, htable]
    simp only [Subquery.map] at hfound ⊢
    rw [hsql]
    cases op with
    | exist => simp only [map_some, hfound, existHolds, constraint]
    | notExist => simp only [map_some, hfound, existHolds, constraint, Bool.not_not]
  exact ⟨_, hsome, fun row _ => by simp⟩

/-- The condition of a query is selected as it means. -/
theorem sqlTable_selects (h : Everywhere (SqlSane engine source) ast) :
    Selects (source.rows ast.table) (sqlTable engine source ast).filter
      (fun row => ((queryOf ast).map (meaning source sourceOrder)).where_.all (holds row)) := by
  induction ast with
  | level ast ih =>
    rw [sqlTable, foldAst_eq]
    cases hwhere : ast.where_ with
    | none =>
      simp only [Query.map, queryOf, hwhere]
      exact ⟨_, rfl, fun row _ => by simp⟩
    | some condition =>
      simp only [Query.map, queryOf, hwhere, map_some, all_some, holds, holdsWith_map]
      have hgather : (queryOf ast).existHops = (formulaOf condition).gather := by
        simp [Query.existHops, queryOf, hwhere]
      refine filtersToSql_selects _ _ (h.level.compared condition hwhere) (fun hop hhop => ?_)
      rw [← hgather] at hhop
      have hsub : hop.2 ∈ (queryOf ast).subs := mem_append_right _ (mem_map_of_mem hhop)
      obtain ⟨hstart, hlimit⟩ := h.level.whole hop hhop
      exact existsToSql_selects hop.1 (h.level.equated hop.2 hsub) (h.level.outer hop hhop) hstart hlimit
        (ih hop.2 hsub (h.sub hsub))

end Meaning

end ZeroCache.Server
