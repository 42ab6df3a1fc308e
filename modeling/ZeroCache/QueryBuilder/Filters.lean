import ZeroCache.Lib.SqlCondition
import ZeroCache.Zql.Filter
import ZeroCache.Zql.Query
import ZeroCache.ViewSyncer.Rows

/-!
# The SQL of a condition

`query_builder.rs` writes a condition as the WHERE clause of a SELECT on the replica: columns by
their names, literals as bound values, and a correlated subquery as an `EXISTS` whose correlation
names each column by its table. A condition that holds an unbound parameter is refused (`none`).
-/

namespace ZeroCache.QueryBuilder

open Sqlite Replica SqlCondition

variable (stringify : JsonValue → String)

/-- A number as it is bound: as an integer where doubles are exact. -/
def numberToSqlite (n : ℚ) : SqlValue :=
  if n.den = 1 ∧ -9007199254740992 < n ∧ n < 9007199254740992 then .integer n.num else .real n

/-- A literal as it is bound (`to_sqlite_value` of its own type). -/
def toSqliteValue : LiteralValue → SqlValue
  | .null => .null
  | .string s => .text s
  | .bool b => .integer (if b then 1 else 0)
  | .number n => numberToSqlite n
  | .array items => .text (stringify (literalToValue (.array items)))

/-- A value as `json_each` returns it. -/
def jsonEachValue : JsonValue → SqlValue
  | .null => .null
  | .bool b => .integer (if b then 1 else 0)
  | .number n => if n.den = 1 ∧ -9223372036854775808 ≤ n ∧ n < 9223372036854775808 then .integer n.num else .real n
  | .bigint n => .integer n
  | .string s => .text s
  | .array items => .text (stringify (.array items))
  | .object entries => .text (stringify (.object entries))

/-- The values of `json_each`: the items of an array, or the value itself. -/
def jsonEach : JsonValue → List SqlValue
  | .array items => items.map (jsonEachValue stringify)
  | value => [jsonEachValue stringify value]

/-- A side of a comparison (`value_position_to_sql`). -/
def valuePositionToSql : ValuePosition → Option Operand
  | .column name => some (.column none name)
  | .literal literal => some (.param (toSqliteValue stringify literal))
  | .parameter _ => none

/-- A comparison with an operator of SQL. -/
def compareToSql (comparison : Comparison) (left right : ValuePosition) : Option SqlCondition := do
  return .compare comparison (← valuePositionToSql stringify left) (← valuePositionToSql stringify right)

/-- A test of a list; the list must be a literal. -/
def inToSql (negated : Bool) (left right : ValuePosition) : Option SqlCondition :=
  match right with
  | .literal literal => do
    return .isIn negated (← valuePositionToSql stringify left) (jsonEach stringify (literalToValue literal))
  | _ => none

/-- A pattern match; without case both sides are put in lower case (`like_condition_to_sql`). -/
def likeConditionToSql (caseInsensitive negated : Bool) (left right : ValuePosition) : Option SqlCondition := do
  let left ← valuePositionToSql stringify left
  let right ← valuePositionToSql stringify right
  return if caseInsensitive then .like negated (.lower left) (.lower right) else .like negated left right

/-- A comparison in SQL (`simple_condition_to_sql`). -/
def simpleConditionToSql (op : SimpleOperator) (left right : ValuePosition) : Option SqlCondition :=
  match op with
  | .inList => inToSql stringify false left right
  | .notInList => inToSql stringify true left right
  | .like => likeConditionToSql stringify false false left right
  | .notLike => likeConditionToSql stringify false true left right
  | .iLike => likeConditionToSql stringify true false left right
  | .notILike => likeConditionToSql stringify true true left right
  | .eq => compareToSql stringify .eq left right
  | .ne => compareToSql stringify .ne left right
  | .is => compareToSql stringify .is left right
  | .isNot => compareToSql stringify .isNot left right
  | .lt => compareToSql stringify .lt left right
  | .gt => compareToSql stringify .gt left right
  | .le => compareToSql stringify .le left right
  | .ge => compareToSql stringify .ge left right

/-- The equated columns of a subquery, each named by its table. -/
def correlationToSql (outer : Option String) (child : String) (correlation : Correlation) : List SqlCondition :=
  (correlation.parentField.zip correlation.childField).map (fun pair =>
    .compare .eq (.column (some child) pair.2) (.column outer pair.1))

mutual
/-- A condition in SQL, on a table of the given name (`filters_to_sql_with_outer`). -/
def filtersToSqlWithOuter (outer : Option String) : Condition → Option SqlCondition
  | .simple op left right => simpleConditionToSql stringify op left right
  | .and conditions => do
    let parts ← allToSqlWithOuter outer conditions
    return if conditions.isEmpty then .constant true else .and parts
  | .or conditions => do
    let parts ← allToSqlWithOuter outer conditions
    return if conditions.isEmpty then .constant false else .or parts
  | .correlatedSubquery related op _ _ _ => existsToSql outer (op = .notExist) related

/-- Conditions in SQL. -/
def allToSqlWithOuter (outer : Option String) : List Condition → Option (List SqlCondition)
  | [] => some []
  | condition :: rest => do
    return (← filtersToSqlWithOuter outer condition) :: (← allToSqlWithOuter outer rest)

/-- A correlated subquery in SQL: its condition is on the child table (`exists_to_sql`). -/
def existsToSql (outer : Option String) (negated : Bool) : CorrelatedSubquery → Option SqlCondition
  | .mk correlation (.mk _ table _ where_ _ _ _ _) _ _ =>
    if correlation.parentField.length ≠ correlation.childField.length ∨ correlation.parentField = [] then none
    else do
      let filters ← whereToSql table where_
      return .exist negated table (correlationToSql outer table correlation ++ filters)

/-- The condition of a subquery, if it has one. -/
def whereToSql (table : String) : Option Condition → Option (List SqlCondition)
  | none => some []
  | some condition => do return [← filtersToSqlWithOuter (some table) condition]
end

/-- A condition in SQL that is on no named table (`filters_to_sql`). -/
def filtersToSql (condition : Condition) : Option SqlCondition := filtersToSqlWithOuter stringify none condition

section Junction

variable {stringify} (conv : Conversions) (db : Database) {outer : Option String} {conditions : List Condition}
  {sqls : List SqlCondition}

/-- A junction in SQL is the junction of its parts; an empty one is `TRUE` or `FALSE`. -/
theorem filtersToSqlWithOuter_junction (h : allToSqlWithOuter stringify outer conditions = some sqls) :
    (∃ sql, filtersToSqlWithOuter stringify outer (.and conditions) = some sql ∧
        ∀ scopes, sql.eval conv db scopes = evalAll conv db scopes sqls) ∧
      ∃ sql, filtersToSqlWithOuter stringify outer (.or conditions) = some sql ∧
        ∀ scopes, sql.eval conv db scopes = evalAny conv db scopes sqls := by
  cases conditions with
  | nil =>
    cases h
    exact ⟨⟨.constant true, rfl, fun scopes => by rw [eval, evalAll]⟩,
      .constant false, rfl, fun scopes => by rw [eval, evalAny]⟩
  | cons =>
    refine ⟨⟨.and sqls, ?_, fun scopes => by rw [eval]⟩, .or sqls, ?_, fun scopes => by rw [eval]⟩
    all_goals
      rw [filtersToSqlWithOuter, h]
      rfl

end Junction

end ZeroCache.QueryBuilder
