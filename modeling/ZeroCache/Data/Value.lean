import ZeroCache.Lib.Fields
import Mathlib.Data.Rat.Defs

/-!
# Values of the wire and of rows

`JsonValue` is the value type of `bigint_json.rs`: what rows of the change stream, rows of a
query result and literals of a condition are made of. A finite double is an exact rational
here, so `number` never holds NaN or an infinity, neither of which JSON text can carry.
-/

namespace ZeroCache

/-- A JSON value with arbitrary-precision integers beside doubles. -/
inductive JsonValue where
  | null
  | bool (b : Bool)
  | number (n : ℚ)
  | bigint (n : ℤ)
  | string (s : String)
  | array (items : List JsonValue)
  | object (entries : List (String × JsonValue))
  deriving Repr

namespace JsonValue

mutual
/-- Structural equality test of two JSON values. -/
def same : JsonValue → JsonValue → Bool
  | .null, .null => true
  | .bool a, .bool b => a == b
  | .number a, .number b => a == b
  | .bigint a, .bigint b => a == b
  | .string a, .string b => a == b
  | .array a, .array b => sameItems a b
  | .object a, .object b => sameEntries a b
  | _, _ => false

/-- Item by item equality of two arrays. -/
def sameItems : List JsonValue → List JsonValue → Bool
  | [], [] => true
  | a :: as, b :: bs => same a b && sameItems as bs
  | _, _ => false

/-- Entry by entry equality of two objects, in order: the source compares vectors of entries. -/
def sameEntries : List (String × JsonValue) → List (String × JsonValue) → Bool
  | [], [] => true
  | (k, a) :: as, (l, b) :: bs => k == l && same a b && sameEntries as bs
  | _, _ => false
end

mutual
/-- The equality test decides equality of values. -/
theorem same_iff : ∀ a b : JsonValue, same a b = true ↔ a = b
  | .null, b | .bool x, b | .number x, b | .bigint x, b | .string x, b => by cases b <;> simp [same]
  | .array xs, b => by
    cases b with
    | array ys => simp [same, sameItems_iff xs ys]
    | _ => simp [same]
  | .object xs, b => by
    cases b with
    | object ys => simp [same, sameEntries_iff xs ys]
    | _ => simp [same]

/-- The equality test decides equality of arrays. -/
theorem sameItems_iff : ∀ as bs : List JsonValue, sameItems as bs = true ↔ as = bs
  | [], bs => by cases bs <;> simp [sameItems]
  | a :: as, bs => by
    cases bs with
    | nil => simp [sameItems]
    | cons b bs => simp [sameItems, same_iff a b, sameItems_iff as bs]

/-- The equality test decides equality of objects. -/
theorem sameEntries_iff :
    ∀ as bs : List (String × JsonValue), sameEntries as bs = true ↔ as = bs
  | [], bs => by cases bs <;> simp [sameEntries]
  | (k, a) :: as, bs => by
    cases bs with
    | nil => simp [sameEntries]
    | cons b bs =>
      obtain ⟨l, b⟩ := b
      simp [sameEntries, same_iff a b, sameEntries_iff as bs, and_assoc]
end

instance : DecidableEq JsonValue := fun a b => decidable_of_iff (same a b = true) (same_iff a b)

instance : Inhabited JsonValue := ⟨.null⟩

end JsonValue

/-- A value converted for SQLite, before it is bound to a statement (`lite.rs`). -/
inductive LiteValue where
  | null
  | number (n : ℚ)
  | big (n : ℤ)
  | text (s : String)
  | blob (bytes : List UInt8)
  deriving DecidableEq, Repr

/-- A row of a query result (`ivm/data.rs`). -/
abbrev Row := Fields JsonValue

/-- The field of a row; an absent one reads as null (`get` of `filter.rs` and `data.rs`). -/
def Row.get (row : Row) (field : String) : JsonValue := (Assoc.get? row field).getD .null

end ZeroCache
