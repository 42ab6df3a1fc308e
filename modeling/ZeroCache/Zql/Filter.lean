import ZeroCache.Data.Ast
import Mathlib.Algebra.Order.Ring.Rat

/-!
# Predicates of conditions

`create_predicate` (`builder/filter.rs`) turns a condition into a test of rows. Building the
predicate may panic and so may running it, so both are optional here: `none` is a panic. A list
of conditions is evaluated from the left and stops at the first that decides it.
-/

namespace ZeroCache.Zql

/-- The order of values of one type, null first; values of different types cannot be compared. -/
def compareValues : JsonValue → JsonValue → Option Ordering
  | .null, .null => some .eq
  | .null, _ => some .lt
  | _, .null => some .gt
  | .string a, .string b => some (compare a b)
  | .number a, .number b => some (compare a b)
  | .bool a, .bool b => some (compare a b)
  | _, _ => none

/-! ## LIKE -/

/-- An element of a compiled pattern. -/
inductive LikeToken where
  | anyRun
  | anyChar
  | char (c : Char)
  deriving DecidableEq, Repr

/-- Compile a pattern; it must not end with the escape character. -/
def compileLike : List Char → Option (List LikeToken)
  | [] => some []
  | '%' :: rest => (compileLike rest).map (LikeToken.anyRun :: ·)
  | '_' :: rest => (compileLike rest).map (LikeToken.anyChar :: ·)
  | '\\' :: c :: rest => (compileLike rest).map (LikeToken.char c :: ·)
  | ['\\'] => none
  | c :: rest => (compileLike rest).map (LikeToken.char c :: ·)

/-- Whether a whole string matches a compiled pattern; case folding is of the ASCII letters. -/
def matchTokens (caseInsensitive : Bool) : List LikeToken → List Char → Bool
  | [], chars => chars.isEmpty
  | .anyChar :: tokens, chars =>
    match chars with
    | [] => false
    | _ :: rest => matchTokens caseInsensitive tokens rest
  | .char c :: tokens, chars =>
    match chars with
    | [] => false
    | d :: rest =>
      (if caseInsensitive then c.toLower == d.toLower else c == d) && matchTokens caseInsensitive tokens rest
  | .anyRun :: tokens, chars => chars.tails.any (matchTokens caseInsensitive tokens)

/-- `LIKE` of two values; both must be strings. -/
def likeMatches (lhs rhs : JsonValue) (caseInsensitive : Bool) : Option Bool :=
  match rhs, lhs with
  | .string pattern, .string s =>
    (compileLike pattern.toList).map (fun tokens => matchTokens caseInsensitive tokens s.toList)
  | _, _ => none

/-- `IN` of a value and an array. -/
def inSet (lhs rhs : JsonValue) : Option Bool :=
  match rhs with
  | .array items => some (items.any (fun item => item = lhs))
  | _ => none

/-- A comparison of two values that are not null. -/
def evalNonNullOp (op : SimpleOperator) (lhs rhs : JsonValue) : Option Bool :=
  match op with
  | .eq => some (lhs = rhs)
  | .ne => some (lhs ≠ rhs)
  | .lt => (compareValues lhs rhs).map (fun o => o == .lt)
  | .le => (compareValues lhs rhs).map (fun o => o != .gt)
  | .gt => (compareValues lhs rhs).map (fun o => o == .gt)
  | .ge => (compareValues lhs rhs).map (fun o => o != .lt)
  | .like => likeMatches lhs rhs false
  | .notLike => (likeMatches lhs rhs false).map not
  | .iLike => likeMatches lhs rhs true
  | .notILike => (likeMatches lhs rhs true).map not
  | .inList => inSet lhs rhs
  | .notInList => (inSet lhs rhs).map not
  | .is => none
  | .isNot => none

/-- A test of rows that may panic. -/
abbrev Predicate := Row → Option Bool

/-- The predicate of a comparison. The right side must be a literal; a comparison with null is
false unless it is `IS` or `IS NOT`; two literals are compared when the predicate is built. -/
def createSimplePredicate (op : SimpleOperator) (left right : ValuePosition) : Option Predicate :=
  match right with
  | .parameter _ => none
  | .column _ => none
  | .literal right =>
    let rhs := literalToValue right
    match left with
    | .parameter _ => none
    | .literal left =>
      let lhs := literalToValue left
      if op = .is then some (fun _ => some (lhs = rhs))
      else if op = .isNot then some (fun _ => some (lhs ≠ rhs))
      else if rhs = .null ∨ lhs = .null then some (fun _ => some false)
      else (evalNonNullOp op lhs rhs).map (fun result _ => some result)
    | .column name =>
      if op = .is then some (fun row => some (row.get name = rhs))
      else if op = .isNot then some (fun row => some (row.get name ≠ rhs))
      else if rhs = .null then some (fun _ => some false)
      else some (fun row => if row.get name = .null then some false else evalNonNullOp op (row.get name) rhs)

/-- All predicates hold, from the left. -/
def allOf : List Predicate → Predicate
  | [], _ => some true
  | p :: rest, row => do if ← p row then allOf rest row else return false

/-- Some predicate holds, from the left. -/
def anyOf : List Predicate → Predicate
  | [], _ => some false
  | p :: rest, row => do if ← p row then return true else anyOf rest row

mutual
/-- The predicate of a condition, with the given test of correlated subqueries. -/
def createPredicateWithExists (exist : CorrelatedSubquery → Predicate) : Condition → Option Predicate
  | .simple op left right => createSimplePredicate op left right
  | .and conditions => (createPredicatesWithExists exist conditions).map allOf
  | .or conditions => (createPredicatesWithExists exist conditions).map anyOf
  | .correlatedSubquery related op _ _ _ =>
    some (fun row => (exist related row).map (fun matched =>
      match op with
      | .exist => matched
      | .notExist => !matched))

/-- The predicates of a list of conditions. -/
def createPredicatesWithExists (exist : CorrelatedSubquery → Predicate) :
    List Condition → Option (List Predicate)
  | [] => some []
  | condition :: rest => do
    return (← createPredicateWithExists exist condition) :: (← createPredicatesWithExists exist rest)
end

/-- The predicate of a condition without correlated subqueries; one in it panics when it runs. -/
def createPredicate (condition : Condition) : Option Predicate :=
  createPredicateWithExists (fun _ _ => none) condition

end ZeroCache.Zql
