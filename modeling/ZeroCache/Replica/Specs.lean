import ZeroCache.Data.Value
import ZeroCache.Lib.Sqlite
import Mathlib.Data.List.Sort

/-!
# Column, table and index specifications

The mapping of published Postgres specifications to the replica's (`pg_to_lite.rs`), the type
strings that carry upstream attributes through SQLite's loose types (`lite.rs`), and the
conversion of row values. JSON text is produced by a printer the results do not depend on.
-/

namespace ZeroCache.Replica

open Sqlite

/-- What the replica's code is run with: the SQLite engine, the printer and the parser of JSON
text, the lossy reading of bytes as text, and the conversion of an integer to a double. -/
structure Env where
  engine : Engine
  stringify : JsonValue → String
  parse : String → Option JsonValue
  fromUtf8Lossy : List UInt8 → String
  asF64 : ℤ → ℚ

/-- The Postgres type class of a column or of the elements of an array column. -/
inductive PgTypeClass where
  | base
  | composite
  | domain
  | enum
  | pseudo
  | range
  | multirange
  deriving DecidableEq, Repr

/-- A column specification, upstream or replicated. -/
structure ColumnSpec where
  pos : ℤ
  dataType : String
  pgTypeClass : Option PgTypeClass
  elemPgTypeClass : Option PgTypeClass
  characterMaximumLength : Option ℤ
  notNull : Option Bool
  dflt : Option String
  deriving DecidableEq, Repr

/-- A replicated table's specification. -/
structure LiteTableSpec where
  name : String
  columns : Fields ColumnSpec
  primaryKey : Option (List String)
  deriving DecidableEq, Repr

/-- A published table's specification. -/
structure TableSpec where
  name : String
  schema : String
  columns : Fields ColumnSpec
  primaryKey : Option (List String)
  deriving DecidableEq, Repr

/-- A published index's specification. -/
structure IndexSpec where
  name : String
  tableName : String
  schema : String
  unique : Bool
  columns : List (String × Direction)
  deriving DecidableEq, Repr

/-- The value types queries work with. -/
inductive ValueType where
  | null
  | string
  | number
  | boolean
  | json
  deriving DecidableEq, Repr

/-- Whether `pattern` occurs in `chars`. -/
def isInfix (pattern : List Char) : List Char → Bool
  | [] => pattern.isEmpty
  | c :: rest => pattern.isPrefixOf (c :: rest) || isInfix pattern rest

/-- `str::contains` for a text pattern. -/
def containsText (s pattern : String) : Bool := isInfix pattern.toList s.toList

/-- `to_lowercase`, of the letters type names are written with. -/
def lowercase (s : String) : String := String.ofList (s.toList.map Char.toLower)

/-- The replica name of a table or index. -/
def liteTableName (schema name : String) : String :=
  if schema == "public" then name else schema ++ "." ++ name

/-- Whether a Postgres column is an enum; an array counts by its elements. -/
def isEnumColumn (spec : ColumnSpec) : Bool :=
  (spec.elemPgTypeClass.or spec.pgTypeClass) == some .enum

/-- Whether a Postgres column is an array. -/
def isArrayColumn (spec : ColumnSpec) : Bool := spec.elemPgTypeClass.isSome

/-- The type string with its attributes; the source asserts that the upstream type has no bar. -/
def liteTypeString (upstream : String) (notNull textEnum textArray : Bool) : Option String :=
  if containsText upstream "|" then none
  else some (upstream ++ (if notNull then "|NOT_NULL" else "") ++
    (if textEnum then "|TEXT_ENUM" else "") ++ (if textArray then "|TEXT_ARRAY" else ""))

/-- The upstream type of a type string: the part before the first bar, unless that is empty. -/
def upstreamDataType (liteType : String) : String :=
  let stem := liteType.toList.takeWhile (· != '|')
  if stem.isEmpty then liteType else String.ofList stem

/-- Whether a type string is of an enum. -/
def isEnum (liteType : String) : Bool := containsText liteType "|TEXT_ENUM"

/-- Whether a type string is of an array. -/
def isArray (liteType : String) : Bool :=
  containsText liteType "|TEXT_ARRAY" || containsText liteType "[]"

/-- The consistency that `lite_column_def` asserts of a replicated column's type string. -/
def assertValidLiteColumnSpec (spec : ColumnSpec) : Bool :=
  let hasAttr := containsText spec.dataType "|TEXT_ARRAY"
  let hasBrackets := containsText spec.dataType "[]"
  let stem := spec.dataType.toList.takeWhile (· != '|')
  let afterBar := spec.dataType.toList.dropWhile (· != '|')
  hasAttr == hasBrackets && hasBrackets == spec.elemPgTypeClass.isSome &&
    !(!stem.isEmpty && isInfix ['[', ']'] afterBar)

/-- Numeric types. -/
def numericTypes : List String :=
  ["smallint", "integer", "int", "int2", "int4", "int8", "bigint", "smallserial", "serial",
    "serial2", "serial4", "serial8", "bigserial", "decimal", "numeric", "real",
    "double precision", "float", "float4", "float8"]

/-- Types that are strings in Postgres. -/
def nativeStringTypes : List String :=
  ["bpchar", "character", "character varying", "text", "varchar"]

/-- Types replicated by their text form. -/
def textRepresentedTypes : List String :=
  ["cidr", "ean13", "inet", "isbn", "isbn13", "ismn", "ismn13", "issn", "issn13", "macaddr",
    "macaddr8", "pg_lsn", "upc", "uuid"]

/-- Date and time types. -/
def dateTimeTypes : List String :=
  ["date", "time", "timetz", "time with time zone", "time without time zone", "timestamp",
    "timestamptz", "timestamp with time zone", "timestamp without time zone"]

/-- A type name without its arguments, in lower case. -/
def formatTypeForLookup (pgType : String) : String :=
  lowercase (String.ofList (pgType.toList.takeWhile (· != '(')))

/-- The query value type of a Postgres type. -/
def dataTypeToZqlValueType (pgType : String) (isEnum isArray : Bool) : Option ValueType :=
  if isArray then some .json
  else
    let t := formatTypeForLookup pgType
    if numericTypes.contains t || dateTimeTypes.contains t then some .number
    else if nativeStringTypes.contains t || textRepresentedTypes.contains t then some .string
    else if t == "bool" || t == "boolean" then some .boolean
    else if t == "json" || t == "jsonb" then some .json
    else if isEnum then some .string
    else none

/-- The query value type of a replicated column. -/
def liteTypeToZqlValueType (liteType : String) : Option ValueType :=
  dataTypeToZqlValueType (lowercase (upstreamDataType liteType)) (isEnum liteType) (isArray liteType)

/-- The characters of `\w`. -/
def isWord (c : Char) : Bool := c.isAlphanum || c == '_'

/-- `^-?\d+(\.\d+)?$`. -/
def isNumericLiteral (chars : List Char) : Bool :=
  let digits := if chars.head? == some '-' then chars.tail else chars
  let whole := digits.takeWhile Char.isDigit
  let rest := digits.dropWhile Char.isDigit
  !whole.isEmpty &&
    (rest.isEmpty || (rest.head? == some '.' && !rest.tail.isEmpty && rest.tail.all Char.isDigit))

/-- The quote character of SQL text. -/
def apostrophe : Char := Char.ofNat 39

/-- The quoted part of `^('.*')::(\w+)$`. -/
def quotedCast (chars : List Char) : Option (List Char) :=
  let word := chars.reverse.takeWhile isWord
  let front := (chars.reverse.dropWhile isWord).reverse
  let quoted := front.take (front.length - 2)
  if !word.isEmpty && front.drop (front.length - 2) == [':', ':'] && 2 ≤ quoted.length &&
      quoted.head? == some apostrophe && quoted.getLast? == some apostrophe && !quoted.contains '\n' then
    some quoted
  else none

/-- `::\w+\[\]$` after the given head was removed. -/
def isArrayCast (chars : List Char) : Bool :=
  let tail := chars.drop 2
  let word := tail.takeWhile isWord
  chars.take 2 == [':', ':'] && !word.isEmpty && tail.dropWhile isWord == ['[', ']']

/-- `^ARRAY\s*\[\s*\]::\w+\[\]$` in any case, or `^'\x7b\x7d'::\w+\[\]$`. -/
def isEmptyArray (chars : List Char) : Bool :=
  let afterWord := (chars.drop 5).dropWhile Char.isWhitespace
  let afterOpen := afterWord.tail.dropWhile Char.isWhitespace
  ((chars.take 5).map Char.toLower == "array".toList && afterWord.head? == some '[' &&
      afterOpen.head? == some ']' && isArrayCast afterOpen.tail) ||
    (chars.take 4 == [apostrophe, Char.ofNat 123, Char.ofNat 125, apostrophe] && isArrayCast (chars.drop 4))

/-- A Postgres column default as a SQLite default; `none` outside when it is not on the allowlist. -/
def mapPostgresToLiteDefault (expr : Option String) : Option (Option String) :=
  match expr with
  | none => some none
  | some e =>
    if e.isEmpty then some none
    else if isNumericLiteral e.toList then some (some e)
    else if e == "true" then some (some "1")
    else if e == "false" then some (some "0")
    else match quotedCast e.toList with
      | some quoted => some (some (String.ofList quoted))
      | none => if isEmptyArray e.toList then some (some "'[]'") else none

/-- Why a specification cannot be mapped. -/
inductive SpecError where
  | unsupportedDefault (table column expr : String)
  | assertionFailed
  deriving DecidableEq, Repr

/-- A Postgres column as a replica column: never NOT NULL, with its default unless ignored. -/
def mapPostgresToLiteColumn (table column : String) (spec : ColumnSpec) (ignoreDefault : Bool) :
    Except SpecError ColumnSpec :=
  match liteTypeString spec.dataType (spec.notNull.getD false) (isEnumColumn spec) (isArrayColumn spec) with
  | none => .error .assertionFailed
  | some liteType =>
    let dflt := if ignoreDefault then some none else mapPostgresToLiteDefault spec.dflt
    match dflt with
    | none => .error (.unsupportedDefault table column (spec.dflt.getD ""))
    | some dflt => .ok
      { pos := spec.pos, dataType := liteType, pgTypeClass := none,
        elemPgTypeClass := spec.elemPgTypeClass, characterMaximumLength := none,
        notNull := some false, dflt := dflt }

/-- The name of the version column appended to every replicated table. -/
def zeroVersionColumnName : String := "_0_version"

/-- The specification of the version column: last by position, without a default. -/
def zeroVersionColumnSpec : ColumnSpec :=
  { pos := 9007199254740991, dataType := "text", pgTypeClass := none, elemPgTypeClass := none,
    characterMaximumLength := none, notNull := some false, dflt := none }

/-- A Postgres table as a replica table: no primary key, and a version column at the end. -/
def mapPostgresToLite (t : TableSpec) : Except SpecError LiteTableSpec := do
  let name := liteTableName t.schema t.name
  let columns ← t.columns.mapM (fun entry => do
    return (entry.1, ← mapPostgresToLiteColumn name entry.1 entry.2 true))
  return { name := name
           columns := columns ++ [(zeroVersionColumnName, zeroVersionColumnSpec)]
           primaryKey := none }

/-- A Postgres index as a replica index. -/
def mapPostgresToLiteIndex (index : IndexSpec) : Index :=
  { name := liteTableName index.schema index.name
    tableName := liteTableName index.schema index.tableName
    unique := index.unique
    columns := index.columns }

/-- The declared column of a replica column's specification (`lite_column_def`). -/
def liteColumnDef (name : String) (spec : ColumnSpec) : Except SpecError Column :=
  if assertValidLiteColumnSpec spec then
    .ok { name := name, declType := spec.dataType, notNull := spec.notNull == some true,
          dflt := spec.dflt }
  else .error .assertionFailed

/-- The table a `CREATE TABLE` statement declares: columns by position. -/
def createLiteTable (spec : LiteTableSpec) : Except SpecError Table := do
  let columns ← (spec.columns.insertionSort (fun a b => a.2.pos ≤ b.2.pos)).mapM
    (fun entry => liteColumnDef entry.1 entry.2)
  return { name := spec.name, columns := columns, primaryKey := spec.primaryKey.getD [], rows := [] }

mutual
/-- A value with its booleans turned to 0 and 1 (`to_lite_json`). -/
def toLiteJson : JsonValue → JsonValue
  | .bool b => .number (if b then 1 else 0)
  | .array items => .array (toLiteItems items)
  | .object entries => .object (toLiteEntries entries)
  | v => v

/-- `to_lite_json` of each item. -/
def toLiteItems : List JsonValue → List JsonValue
  | [] => []
  | v :: rest => toLiteJson v :: toLiteItems rest

/-- `to_lite_json` of each entry's value. -/
def toLiteEntries : List (String × JsonValue) → List (String × JsonValue)
  | [] => []
  | (k, v) :: rest => (k, toLiteJson v) :: toLiteEntries rest
end

/-- The lite value of a wire value for a column type, with parsed JSON columns: the format the
dispatcher always uses. Wire values carry no bytes, so no blob arises. -/
def liteValue (stringify : JsonValue → String) (val : JsonValue) (liteType : String) : LiteValue :=
  if val = .null then .null
  else if liteTypeToZqlValueType liteType == some .json then .text (stringify val)
  else match toLiteJson val with
    | .array items => .text (stringify (.array items))
    | .object entries => .text (stringify (.object entries))
    | .string s => .text s
    | .number n => .number n
    | .bigint n => .big n
    | .null => .null
    | .bool b => .number (if b then 1 else 0)

/-- The lite values of a wire row; the source panics on a column the table does not have. -/
def liteRow (stringify : JsonValue → String) (row : Row) (table : LiteTableSpec) :
    Except SpecError (Fields LiteValue) :=
  row.mapM (fun entry =>
    match table.columns.get? entry.1 with
    | some spec => .ok (entry.1, liteValue stringify entry.2 spec.dataType)
    | none => .error .assertionFailed)

/-- The bound value: whole numbers bind as integers, big integers out of range as text. -/
def toSqlValue : LiteValue → SqlValue
  | .null => .null
  | .text s => .text s
  | .blob bytes => .blob bytes
  | .number n => if n.den = 1 ∧ n.num.natAbs < 9200000000000000000 then .integer n.num else .real n
  | .big n => if -9223372036854775808 ≤ n ∧ n ≤ 9223372036854775807 then .integer n else .text (toString n)

end ZeroCache.Replica
