import ZeroCache.Data.Value

/-!
# The query language

The abstract syntax of queries (`zero-cache-protocol/src/ast.rs`). A query and its conditions are
mutually recursive through correlated subqueries. An absent list of related subqueries and an
empty one are not told apart by any code modelled here, so `related` is a plain list.
-/

namespace ZeroCache

/-- Comparison operators. -/
inductive SimpleOperator where
  | eq
  | ne
  | is
  | isNot
  | lt
  | gt
  | le
  | ge
  | like
  | notLike
  | iLike
  | notILike
  | inList
  | notInList
  deriving DecidableEq, Repr

/-- A literal of a condition. -/
inductive LiteralValue where
  | string (s : String)
  | number (n : ℚ)
  | bool (b : Bool)
  | null
  | array (items : List LiteralValue)
  deriving Repr

/-- One side of a comparison; a parameter is opaque until it is bound. -/
inductive ValuePosition where
  | literal (value : LiteralValue)
  | column (name : String)
  | parameter (raw : JsonValue)

/-- Whether a side of a comparison has a value. -/
def isBound : ValuePosition → Bool
  | .parameter _ => false
  | _ => true

/-- A direction of an ordering. -/
inductive SortDirection where
  | asc
  | desc
  deriving DecidableEq, Repr

/-- The columns a query is ordered by. -/
abbrev QueryOrdering := List (String × SortDirection)

/-- Where a query starts, in its ordering. -/
structure Bound where
  row : JsonValue
  exclusive : Bool

/-- The equated fields of parent and child. -/
structure Correlation where
  parentField : List String
  childField : List String
  deriving DecidableEq, Repr

/-- Which system put a subquery there. -/
inductive System where
  | permissions
  | client
  | test
  deriving DecidableEq, Repr

/-- `EXISTS` or `NOT EXISTS`. -/
inductive ExistsOp where
  | exist
  | notExist
  deriving DecidableEq, Repr

mutual
/-- A query. -/
inductive Ast where
  | mk (schema : Option String) (table : String) (alias_ : Option String)
      (where_ : Option Condition) (related : List CorrelatedSubquery) (start : Option Bound)
      (limit : Option ℚ) (orderBy : Option QueryOrdering)

/-- A condition on a row. -/
inductive Condition where
  | simple (op : SimpleOperator) (left right : ValuePosition)
  | and (conditions : List Condition)
  | or (conditions : List Condition)
  | correlatedSubquery (related : CorrelatedSubquery) (op : ExistsOp) (flip scalar : Option Bool)
      (planId : Option ℤ)

/-- A subquery correlated with its parent row. -/
inductive CorrelatedSubquery where
  | mk (correlation : Correlation) (subquery : Ast) (system : Option System) (hidden : Option Bool)
end

namespace Ast

def schema : Ast → Option String
  | .mk schema _ _ _ _ _ _ _ => schema

def table : Ast → String
  | .mk _ table _ _ _ _ _ _ => table

def alias_ : Ast → Option String
  | .mk _ _ alias_ _ _ _ _ _ => alias_

def where_ : Ast → Option Condition
  | .mk _ _ _ where_ _ _ _ _ => where_

def related : Ast → List CorrelatedSubquery
  | .mk _ _ _ _ related _ _ _ => related

def start : Ast → Option Bound
  | .mk _ _ _ _ _ start _ _ => start

def limit : Ast → Option ℚ
  | .mk _ _ _ _ _ _ limit _ => limit

def orderBy : Ast → Option QueryOrdering
  | .mk _ _ _ _ _ _ _ orderBy => orderBy

end Ast

namespace CorrelatedSubquery

def correlation : CorrelatedSubquery → Correlation
  | .mk correlation _ _ _ => correlation

def subquery : CorrelatedSubquery → Ast
  | .mk _ subquery _ _ => subquery

def system : CorrelatedSubquery → Option System
  | .mk _ _ system _ => system

def hidden : CorrelatedSubquery → Option Bool
  | .mk _ _ _ hidden => hidden

end CorrelatedSubquery

mutual
/-- The value of a literal. -/
def literalToValue : LiteralValue → JsonValue
  | .string s => .string s
  | .number n => .number n
  | .bool b => .bool b
  | .null => .null
  | .array items => .array (literalsToValues items)

/-- The values of literals. -/
def literalsToValues : List LiteralValue → List JsonValue
  | [] => []
  | item :: rest => literalToValue item :: literalsToValues rest
end

theorem literalsToValues_eq (items : List LiteralValue) : literalsToValues items = items.map literalToValue := by
  induction items with
  | nil => rfl
  | cons item rest ih => rw [literalsToValues, ih, List.map_cons]

mutual
/-- Whether a condition contains a correlated subquery. -/
def hasCorrelatedSubquery : Condition → Bool
  | .simple _ _ _ => false
  | .and conditions => anyCorrelatedSubquery conditions
  | .or conditions => anyCorrelatedSubquery conditions
  | .correlatedSubquery _ _ _ _ _ => true

/-- Whether one of the conditions contains a correlated subquery. -/
def anyCorrelatedSubquery : List Condition → Bool
  | [] => false
  | condition :: rest => hasCorrelatedSubquery condition || anyCorrelatedSubquery rest
end

end ZeroCache
