import ZeroCache.Lib.SqlCondition

/-!
# Storing values by affinity

What SQLite stores in a column of a declared type: the value to which the affinity of the type has been
applied, an integral double as an integer in a numeric column, and an integer as a double in a column
of reals.
-/

namespace ZeroCache.Sqlite

/-- Whether a column stores its numbers as doubles. -/
def isReal (declType : String) : Bool :=
  let mentions := fun word : String => (declType.toList.map Char.toUpper).tails.any (word.toList.isPrefixOf ·)
  declaredAffinity declType == .numeric && !mentions "INT" && (mentions "REAL" || mentions "FLOA" || mentions "DOUB")

/-- A number as a numeric column stores it: as an integer if it is one of 64 bits. -/
def narrowed (x : ℚ) : SqlValue :=
  if x.den = 1 ∧ -9223372036854775808 ≤ x.num ∧ x.num ≤ 9223372036854775807 then .integer x.num else .real x

/-- A value as a numeric column stores it. -/
def narrow : SqlValue → SqlValue
  | .real x => narrowed x
  | value => value

/-- A value as a column of reals stores it. -/
def widen : SqlValue → SqlValue
  | .integer n => .real n
  | value => value

/-- A numeric column that is not one of reals. -/
def isNumeric (declType : String) : Bool := declaredAffinity declType == .numeric && !isReal declType

example : isNumeric "int8|NOT_NULL" = true ∧ isNumeric "timestamp with time zone" = true ∧ isNumeric "float8" = false ∧
    isNumeric "mood|TEXT_ENUM" = false := by decide

namespace Conversions

variable (conv : Conversions)

/-- The value a column of a declared type stores. -/
def stored (declType : String) (value : SqlValue) : SqlValue :=
  let value := convert conv (declaredAffinity declType) value
  if isNumeric declType then narrow value else if isReal declType then widen value else value

/-- The number a numeric column stores for a text. -/
def numeric (s : String) : Option SqlValue := (conv.number s).map narrow

/-- Texts are read as numbers and as nothing else. -/
def Numbers : Prop := ∀ s v, conv.number s = some v → ∃ x : ℚ, narrow v = narrowed x

variable {conv} {declType s : String}

theorem affinity_of_isNumeric (h : isNumeric declType = true) : declaredAffinity declType = .numeric := by
  simp only [isNumeric, Bool.and_eq_true, beq_iff_eq] at h
  exact h.1

/-- A text that is no number is stored as it is. -/
theorem stored_text (h : conv.numeric s = none) : conv.stored declType (.text s) = .text s := by
  have hnone : conv.number s = none := Option.map_eq_none_iff.mp h
  have hconvert : convert conv (declaredAffinity declType) (.text s) = .text s := by
    cases declaredAffinity declType <;> simp [convert, hnone]
  simp [stored, hconvert, narrow, widen]

theorem stored_text_numeric (h : isNumeric declType = true) :
    conv.stored declType (.text s) = (conv.numeric s).getD (.text s) := by
  rw [stored, if_pos h, affinity_of_isNumeric h, convert, numeric]
  cases conv.number s <;> rfl

theorem stored_integer (h : isNumeric declType = true) (n : ℤ) : conv.stored declType (.integer n) = .integer n := by
  rw [stored, if_pos h, affinity_of_isNumeric h]
  rfl

theorem stored_real (h : isNumeric declType = true) (x : ℚ) : conv.stored declType (.real x) = narrowed x := by
  rw [stored, if_pos h, affinity_of_isNumeric h]
  rfl

theorem stored_null : conv.stored declType .null = .null := by
  have hconvert : convert conv (declaredAffinity declType) .null = .null := by
    cases declaredAffinity declType <;> rfl
  simp [stored, hconvert, narrow, widen]

theorem stored_blob (bytes : List UInt8) : conv.stored declType (.blob bytes) = .blob bytes := by
  have hconvert : convert conv (declaredAffinity declType) (.blob bytes) = .blob bytes := by
    cases declaredAffinity declType <;> rfl
  simp [stored, hconvert, narrow, widen]

end Conversions

theorem narrowed_intCast {n : ℤ} (h : -9223372036854775808 ≤ n ∧ n ≤ 9223372036854775807) :
    narrowed n = .integer n := by
  simp [narrowed, h]

theorem narrowed_ne_text (x : ℚ) (s : String) : narrowed x ≠ .text s := by
  rw [narrowed]
  split <;> simp

theorem narrowed_ne_null (x : ℚ) : narrowed x ≠ .null := by
  rw [narrowed]
  split <;> simp

theorem narrowed_injective {a b : ℚ} (h : narrowed a = narrowed b) : a = b := by
  rw [narrowed, narrowed] at h
  split at h
  · next ha =>
    split at h
    · next hb => rw [← (Rat.den_eq_one_iff a).mp ha.1, ← (Rat.den_eq_one_iff b).mp hb.1, SqlValue.integer.inj h]
    · cases h
  · split at h
    · cases h
    · exact SqlValue.real.inj h

namespace Conversions

variable {conv : Conversions}

theorem Numbers.numeric (h : conv.Numbers) {s : String} {v : SqlValue} (hv : conv.numeric s = some v) :
    ∃ x, v = narrowed x := by
  obtain ⟨w, hw, rfl⟩ := Option.map_eq_some_iff.mp hv
  exact h s w hw

/-- In a numeric column a text is stored as a text or a number. -/
theorem Numbers.stored_text_ne_null (h : conv.Numbers) {declType : String} (hnumeric : isNumeric declType = true) (s : String) :
    conv.stored declType (.text s) ≠ .null := by
  rw [stored_text_numeric hnumeric]
  cases hs : conv.numeric s with
  | none => simp
  | some =>
    obtain ⟨x, rfl⟩ := h.numeric hs
    exact narrowed_ne_null x

end Conversions

end ZeroCache.Sqlite
