import ZeroCache.Lib.Sqlite
import Mathlib.Algebra.Order.Ring.Rat
import Mathlib.Data.List.Infix

/-!
# Conditions of a SELECT

What a WHERE clause of SQLite means: three-valued truth, comparisons after type affinity, `LIKE`
with `\` as its escape character, `IN` over a list of values, and `EXISTS` with the name scoping of
nested queries. A name refers to the innermost enclosing table that has such a column, a name
qualified by a table to the innermost enclosing table of that name; names are compared without the
case of ASCII letters. How a text is read as a number and a number is written as a text is a
parameter.
-/

namespace ZeroCache.Sqlite

/-! ## Three-valued truth -/

/-- The conjunction of SQL; `none` is null. -/
def sqlAnd : Option Bool → Option Bool → Option Bool
  | some false, _ => some false
  | _, some false => some false
  | some true, some true => some true
  | _, _ => none

/-- The disjunction of SQL. -/
def sqlOr : Option Bool → Option Bool → Option Bool
  | some true, _ => some true
  | _, some true => some true
  | some false, some false => some false
  | _, _ => none

variable {a b : Option Bool}

theorem sqlAnd_eq_true : sqlAnd a b = some true ↔ a = some true ∧ b = some true := by
  rcases a with _ | _ | _ <;> rcases b with _ | _ | _ <;> simp [sqlAnd]

theorem sqlOr_eq_true : sqlOr a b = some true ↔ a = some true ∨ b = some true := by
  rcases a with _ | _ | _ <;> rcases b with _ | _ | _ <;> simp [sqlOr]

/-- A negated test; null stays null. -/
def negateIf (negated : Bool) (truth : Option Bool) : Option Bool := truth.map (xor negated)

variable {truth : Option Bool}

theorem negateIf_false_eq_true : negateIf false truth = some true ↔ truth = some true := by
  rcases truth with _ | _ | _ <;> simp [negateIf]

theorem negateIf_true_eq_true : negateIf true truth = some true ↔ truth = some false := by
  rcases truth with _ | _ | _ <;> simp [negateIf]

/-! ## Comparisons -/

/-- What the declared type of a column does to the values it is compared with; the integer, real and
numeric affinities do the same. -/
inductive Affinity where
  | text
  | numeric
  | blob
  deriving DecidableEq, Repr

/-- The affinity of a declared type, found by the words in it. -/
def declaredAffinity (declType : String) : Affinity :=
  let mentions := fun word : String => (declType.toList.map Char.toUpper).tails.any (word.toList.isPrefixOf ·)
  if mentions "INT" then .numeric
  else if mentions "CHAR" || mentions "CLOB" || mentions "TEXT" then .text
  else if mentions "BLOB" || declType == "" then .blob
  else .numeric

/-- How texts are read as numbers and numbers are written as texts. -/
structure Conversions where
  number : String → Option SqlValue
  text : SqlValue → String

/-- Conversions that read no text as a number. -/
def Conversions.plain : Conversions := { number := fun _ => none, text := fun _ => "" }

variable (conv : Conversions)

/-- A value to which an affinity is applied. -/
def convert : Affinity → SqlValue → SqlValue
  | .numeric, .text s => (conv.number s).getD (.text s)
  | .text, .integer n => .text (conv.text (.integer n))
  | .text, .real x => .text (conv.text (.real x))
  | _, value => value

/-- A value of its own affinity, as it is compared with one of another affinity. -/
def asCompared (own other : Affinity) (value : SqlValue) : SqlValue :=
  match own, other with
  | .numeric, _ => value
  | _, .numeric => convert conv .numeric value
  | .blob, .text => convert conv .text value
  | _, _ => value

/-- Numbers come before texts and texts before blobs. -/
def comparandOrder : ℚ ⊕ String ⊕ List UInt8 → ℚ ⊕ String ⊕ List UInt8 → Ordering
  | .inl a, .inl b => compare a b
  | .inl _, .inr _ => .lt
  | .inr _, .inl _ => .gt
  | .inr (.inl a), .inr (.inl b) => compare a b
  | .inr (.inl _), .inr (.inr _) => .lt
  | .inr (.inr _), .inr (.inl _) => .gt
  | .inr (.inr a), .inr (.inr b) => compare a b

/-- The order of two values; there is none with null. -/
def sqlOrder (a b : SqlValue) : Option Ordering :=
  match comparand a, comparand b with
  | some x, some y => some (comparandOrder x y)
  | _, _ => none

/-- Comparison operators. -/
inductive Comparison where
  | eq
  | ne
  | lt
  | le
  | gt
  | ge
  | is
  | isNot
  deriving DecidableEq, Repr

/-- `IS`: equality that also holds between nulls. -/
def sqlIs (a b : SqlValue) : Bool := sqlEq a b || (a == .null && b == .null)

/-- A comparison of two values. -/
def Comparison.test : Comparison → SqlValue → SqlValue → Option Bool
  | .eq, a, b => (sqlOrder a b).map (fun _ => sqlEq a b)
  | .ne, a, b => (sqlOrder a b).map (fun _ => !sqlEq a b)
  | .lt, a, b => (sqlOrder a b).map (fun order => order == .lt)
  | .le, a, b => (sqlOrder a b).map (fun order => order != .gt)
  | .gt, a, b => (sqlOrder a b).map (fun order => order == .gt)
  | .ge, a, b => (sqlOrder a b).map (fun order => order != .lt)
  | .is, a, b => some (sqlIs a b)
  | .isNot, a, b => some (!sqlIs a b)

/-! ## ASCII case -/

theorem toNat_toLower (c : Char) :
    c.toLower.toNat = if 65 ≤ c.toNat ∧ c.toNat ≤ 90 then c.toNat + 32 else c.toNat := by
  have hiff : (c.val ≥ 'A'.val ∧ c.val ≤ 'Z'.val) ↔ (65 ≤ c.toNat ∧ c.toNat ≤ 90) := by
    rfl
  unfold Char.toLower
  split
  · next h =>
    have hle : c.val.toNat ≤ 90 := (hiff.mp h).2
    rw [if_pos (hiff.mp h)]
    change (c.val.toNat + 32) % 2 ^ 32 = c.val.toNat + 32
    omega
  · next h => rw [if_neg (mt hiff.mpr h)]

theorem toLower_toLower (c : Char) : c.toLower.toLower = c.toLower := by
  apply Char.toNat_inj.mp
  rw [toNat_toLower c.toLower, if_neg]
  rw [toNat_toLower]
  split <;> omega

/-- A character that is no letter is no other one without case. -/
theorem toLower_eq_iff {c d : Char} (h : c.isAlpha = false) : c.toLower = d.toLower ↔ c = d := by
  have hc : ¬ (65 ≤ c.toNat ∧ c.toNat ≤ 90) ∧ ¬ (97 ≤ c.toNat ∧ c.toNat ≤ 122) := by
    change (decide (65 ≤ c.val ∧ c.val ≤ 90) || (decide (97 ≤ c.val) && decide (c.val ≤ 122))) = false at h
    simpa [UInt32.le_iff_toNat_le] using h
  rw [← Char.toNat_inj, ← Char.toNat_inj, toNat_toLower, toNat_toLower]
  split <;> split <;> omega

theorem eq_of_toLower_eq {c d : Char} (h : c.isAlpha = false) (hd : d.toLower = c) : d = c := by
  have hc := (toLower_eq_iff h (d := d.toLower)).mpr hd.symm
  rw [toLower_toLower] at hc
  exact ((toLower_eq_iff h).mp hc).symm

/-! ## LIKE and IN -/

/-- The text of a value; null has none. -/
def textOf : SqlValue → Option String
  | .null => none
  | .text s => some s
  | value => some (conv.text value)

/-- A text as `lower` returns it: only ASCII letters change. -/
def lowerText (s : String) : String := String.ofList (s.toList.map Char.toLower)

/-- A value as `lower` returns it. -/
def lowerValue (value : SqlValue) : SqlValue :=
  match textOf conv value with
  | some s => .text (lowerText s)
  | none => .null

/-- Whether a text matches a pattern, without the case of ASCII letters; a pattern that ends in its
escape character matches nothing. -/
def matchesLike : List Char → List Char → Bool
  | [], chars => chars.isEmpty
  | '%' :: rest, chars => chars.tails.any (matchesLike rest)
  | '_' :: rest, chars =>
    match chars with
    | [] => false
    | _ :: chars => matchesLike rest chars
  | '\\' :: c :: rest, chars =>
    match chars with
    | [] => false
    | d :: chars => c.toLower == d.toLower && matchesLike rest chars
  | ['\\'], _ => false
  | c :: rest, chars =>
    match chars with
    | [] => false
    | d :: chars => c.toLower == d.toLower && matchesLike rest chars

section

variable {c : Char} (hrun : c ≠ '%') (hany : c ≠ '_') (hescape : c ≠ '\\') (rest : List Char)

include hrun hany hescape

theorem matchesLike_char (d : Char) (chars : List Char) :
    matchesLike (c :: rest) (d :: chars) = (c.toLower == d.toLower && matchesLike rest chars) := by
  rw [matchesLike]
  · exact hrun
  · exact hany
  · exact fun _ _ h _ => hescape h
  · exact fun h _ => hescape h

theorem matchesLike_char_nil :
    matchesLike (c :: rest) [] = false := by
  rw [matchesLike]
  · exact hrun
  · exact hany
  · exact fun _ _ h _ => hescape h
  · exact fun h _ => hescape h

end

/-- `LIKE` of two values. -/
def sqlLike (value pattern : SqlValue) : Option Bool := do
  return matchesLike (← textOf conv pattern).toList (← textOf conv value).toList

theorem sqlLike_null_left (pattern : SqlValue) : sqlLike conv .null pattern = none := by
  cases textOf conv pattern <;> simp [sqlLike, textOf]

theorem sqlLike_null_right (value : SqlValue) : sqlLike conv value .null = none := rfl

/-- `IN` over a list: false when it is empty, null when nothing is found and null is involved. -/
def sqlIn (value : SqlValue) (values : List SqlValue) : Option Bool :=
  if values = [] then some false
  else if values.any (sqlEq value ·) then some true
  else if value = .null ∨ .null ∈ values then none
  else some false

variable {values : List SqlValue} {scope : Scope} {name : String} {value : SqlValue}

theorem sqlIn_eq_true : sqlIn value values = some true ↔ values.any (sqlEq value ·) = true := by
  unfold sqlIn
  split_ifs <;> simp_all

theorem sqlIn_eq_false : sqlIn value values = some false ↔
      values = [] ∨ values.any (sqlEq value ·) = false ∧ value ≠ .null ∧ SqlValue.null ∉ values := by
  unfold sqlIn
  split_ifs with hempty hfound hnull <;> simp_all
  tauto

/-! ## Names and scopes -/

/-- Whether two names are the same to SQLite. -/
def sameName (a b : String) : Bool := a.toList.map Char.toLower == b.toList.map Char.toLower

/-- A table of the FROM clause of an enclosing query, at one of its rows. -/
structure Scope where
  table : Table
  row : SqlRow

/-- The column a name has in a table. -/
def Table.column? (t : Table) (name : String) : Option Column := t.columns.find? (fun c => sameName c.name name)

/-- The value and the affinity of a column at a scope. -/
def Scope.read (scope : Scope) (name : String) : Option (SqlValue × Affinity) :=
  (scope.table.column? name).map (fun c => (cell scope.row c.name, declaredAffinity c.declType))

/-- What a name refers to in nested scopes, the innermost first. -/
def resolve (scopes : List Scope) (qualifier : Option String) (name : String) : Option (SqlValue × Affinity) :=
  scopes.findSome? (fun scope =>
    if qualifier.all (sameName scope.table.name ·) then scope.read name else none)

/-- The table a name has in a FROM clause. -/
def Database.from? (db : Database) (name : String) : Option Table := db.tables.find? (fun t => sameName t.name name)

/-! ## Conditions -/

/-- A side of a comparison. -/
inductive Operand where
  | column (qualifier : Option String) (name : String)
  | param (value : SqlValue)
  | lower (operand : Operand)

/-- A condition of a WHERE clause. -/
inductive SqlCondition where
  | constant (truth : Bool)
  | compare (comparison : Comparison) (left right : Operand)
  | like (negated : Bool) (left right : Operand)
  | isIn (negated : Bool) (left : Operand) (values : List SqlValue)
  | and (conditions : List SqlCondition)
  | or (conditions : List SqlCondition)
  | exist (negated : Bool) (table : String) (clauses : List SqlCondition)

/-- The value and the affinity of an operand. A name that refers to nothing, with which no statement
is prepared, reads as null. -/
def Operand.eval (scopes : List Scope) : Operand → SqlValue × Affinity
  | .column qualifier name => (resolve scopes qualifier name).getD (.null, .blob)
  | .param value => (value, .blob)
  | .lower operand => (lowerValue conv (operand.eval scopes).1, .blob)

/-- A comparison of two values with their affinities. -/
def compareWith (comparison : Comparison) (left right : SqlValue × Affinity) : Option Bool :=
  comparison.test (asCompared conv left.2 right.2 left.1) (asCompared conv right.2 left.2 right.1)

variable (db : Database)

/-- The tables a FROM clause reads, at each of its rows. -/
def scopesOf (name : String) : List Scope :=
  ((db.from? name).map (fun t => t.rows.map (fun row => ⟨t, row⟩))).getD []

mutual
/-- What a condition is in nested scopes. -/
def SqlCondition.eval (scopes : List Scope) : SqlCondition → Option Bool
  | .constant truth => some truth
  | .compare comparison left right =>
    compareWith conv comparison (left.eval conv scopes) (right.eval conv scopes)
  | .like negated left right =>
    negateIf negated (sqlLike conv (left.eval conv scopes).1 (right.eval conv scopes).1)
  | .isIn negated left values =>
    let value := left.eval conv scopes
    negateIf negated (sqlIn value.1 (values.map (asCompared conv .blob value.2)))
  | .and conditions => evalAll scopes conditions
  | .or conditions => evalAny scopes conditions
  | .exist negated table clauses =>
    negateIf negated (some ((scopesOf db table).any (fun scope => evalAll (scope :: scopes) clauses = some true)))

/-- The conjunction of conditions. -/
def evalAll (scopes : List Scope) : List SqlCondition → Option Bool
  | [] => some true
  | condition :: rest => sqlAnd (condition.eval scopes) (evalAll scopes rest)

/-- The disjunction of conditions. -/
def evalAny (scopes : List Scope) : List SqlCondition → Option Bool
  | [] => some false
  | condition :: rest => sqlOr (condition.eval scopes) (evalAny scopes rest)
end

variable {conv db} {scopes : List Scope}

theorem evalAll_eq_true {conditions : List SqlCondition} :
    evalAll conv db scopes conditions = some true ↔ ∀ c ∈ conditions, c.eval conv db scopes = some true := by
  induction conditions with
  | nil => simp [evalAll]
  | cons condition rest ih => rw [evalAll, sqlAnd_eq_true, ih, List.forall_mem_cons]

variable {read : SqlValue × Affinity}

/-- A name without a qualifier is read in the innermost scope, if that has such a column. -/
theorem resolve_own (h : scope.read name = some read) : resolve (scope :: scopes) none name = some read := by
  simp [resolve, h]

variable {table : String}

/-- A qualified name is read in the innermost scope of its table. -/
theorem resolve_qualified (htable : sameName scope.table.name table = true) (h : scope.read name = some read) :
    resolve (scope :: scopes) (some table) name = some read := by
  simp [resolve, h, htable]

/-- A qualified name passes over a scope of another table. -/
theorem resolve_pass (htable : sameName scope.table.name table = false) :
    resolve (scope :: scopes) (some table) name = resolve scopes (some table) name := by
  simp [resolve, htable]

end ZeroCache.Sqlite
