import ZeroCache.ChangeSource.TextToJson
import ZeroCache.Lib.SqliteStorage
import ZeroCache.Replica.Specs
import Mathlib.Logic.Equiv.List
import Mathlib.Tactic.Ring

/-!
# Values of the initial sync

Initial sync reads a table as COPY text and decodes each field by the type of its column
(`pg_copy_text.rs`). The replication stream decodes the same text along another path: to a wire value,
to a lite value, to a bound value. The two store the same for numbers, texts, truth values, UUIDs,
OIDs and enums. They never do for times of day and bytes, and for big integers, JSON, timestamps and
arrays only where the value has a particular form.
-/

namespace ZeroCache.Replica

open PgTypes ChangeSource Sqlite List Option Conversions String

/-- The type of a column, as COPY decoders need it. -/
structure BinaryColumnSpec where
  typeOid : ℤ
  dataType : String
  pgTypeClass : Option PgTypeClass
  elemPgTypeClass : Option PgTypeClass

/-- The types with a binary decoder. -/
def knownBinaryOids : List ℤ :=
  [BOOL, INT2, INT4, INT8, FLOAT4, FLOAT8, TEXT, VARCHAR, BPCHAR, CHAR, UUID, BYTEA, JSON, JSONB, TIMESTAMP,
    TIMESTAMPTZ, DATE, TIME, TIMETZ, NUMERIC]

def hasBinaryDecoder (spec : BinaryColumnSpec) : Bool :=
  spec.elemPgTypeClass.isSome || spec.pgTypeClass == some .enum || knownBinaryOids.contains spec.typeOid

/-! ## Times -/

/-- The integral part of a double, towards zero. -/
def truncF64 (x : ℚ) : ℤ := x.num.tdiv x.den

section

variable (env : TextEnv)

/-- A time of day: two or three parts. -/
def parseTimeMillis (chars : List Char) : Option ℚ :=
  match splitOnChar ':' chars with
  | [h, m] => clockMillis env h m ['0']
  | [h, m, s] => clockMillis env h m s
  | _ => none

/-- An offset in milliseconds east of UTC: hours, minutes and seconds. -/
def parseTzOffsetMillis (tz : List Char) : Option ℚ :=
  match splitOnChar ':' tz.tail with
  | hh :: rest => do
    let hh ← env.parseF64 (String.ofList hh)
    let mm ← env.parseF64 (String.ofList (rest.headD ['0']))
    let ss ← env.parseF64 (String.ofList (rest.tail.headD ['0']))
    let millis := (|hh| * 3600 + mm * 60 + ss) * 1000
    return if tz.head? = some '+' then millis else -millis
  | [] => none

/-- Milliseconds of a time of day with an offset, within one day. -/
def parseTimetzMillis (text : String) : Option ℚ := do
  let clock := splitTzOffset text.toList
  let millis ← parseTimeMillis env clock.1
  let millis ← match clock.2 with
    | none => some millis
    | some tz => (parseTzOffsetMillis env tz).map (fun offset => millis - offset)
  let ms := truncF64 millis
  return if 0 ≤ ms ∧ ms < 86400000 then ms else ((ms.tmod 86400000 + 86400000).tmod 86400000 : ℤ)

/-- Epoch milliseconds of a date or timestamp (`pg_timestamp_to_epoch_millis` of `pg_copy_text.rs`). -/
def copyTimestampToEpochMillis (text : String) : Option ℚ :=
  epochMillis env (parseTimeMillis env) (parseTzOffsetMillis env) text

/-! ## Decoders -/

/-- A hexadecimal digit. -/
def hexDigit (c : Char) : Option ℕ :=
  if c.isDigit then some (c.toNat - '0'.toNat)
  else if 'a' ≤ c ∧ c ≤ 'f' then some (c.toNat - 'a'.toNat + 10)
  else if 'A' ≤ c ∧ c ≤ 'F' then some (c.toNat - 'A'.toNat + 10)
  else none

/-- Two hexadecimal digits; the first may be a plus sign. -/
def hexByte (a b : Char) : Option UInt8 := do
  let low ← hexDigit b
  if a = '+' then return UInt8.ofNat low
  else return UInt8.ofNat (16 * (← hexDigit a) + low)

/-- Pairs of hexadecimal digits. -/
def hexBytes : List Char → Option (List UInt8)
  | [] => some []
  | [_] => none
  | a :: b :: rest => do return (← hexByte a b) :: (← hexBytes rest)

/-- Bytes in their text form, or the bytes of a text that is none. -/
def decodeByteaText (text : String) : List UInt8 :=
  match text.toList with
  | '\\' :: 'x' :: hex => (hexBytes hex).getD text.toUTF8.toList
  | _ => text.toUTF8.toList

/-- A number or, if the text is none, the text. -/
def numberOrText (number : Option ℚ) (text : String) : LiteValue :=
  match number with
  | some n => .number n
  | none => .text text

/-- An element of an array; big integers that are no safe ones stay exact. -/
def elementTextToJson (elemOid : ℤ) (text : String) : JsonValue :=
  if elemOid = BOOL then .bool (text == "t")
  else if elemOid ∈ [INT2, INT4, FLOAT4, FLOAT8, NUMERIC] then numberOrString (env.parseF64 text) text
  else if elemOid = INT8 then
    match env.parseI64 text with
    | some v => if -9007199254740991 ≤ v ∧ v ≤ 9007199254740991 then .number (env.asF64 v) else .bigint v
    | none => .string text
  else if elemOid ∈ [TIMESTAMP, TIMESTAMPTZ, DATE] then numberOrString (copyTimestampToEpochMillis env text) text
  else if elemOid = TIME then
    numberOrString ((parseTimeMillis env text.toList).map (fun ms => (truncF64 ms : ℚ))) text
  else if elemOid = TIMETZ then numberOrString (parseTimetzMillis env text) text
  else .string text

/-- A value of a type that has a decoder and is no array. -/
def decodeScalar (typeOid : ℤ) (text : String) : LiteValue :=
  if typeOid = BOOL then .number (if text == "t" then 1 else 0)
  else if typeOid ∈ [INT2, INT4] then numberOrText (env.parseF64 text) text
  else if typeOid = INT8 then
    match env.parseI64 text with
    | some n => .big n
    | none => .text text
  else if typeOid ∈ [FLOAT4, FLOAT8, NUMERIC] then numberOrText (env.parseF64 text) text
  else if typeOid = BYTEA then .blob (decodeByteaText text)
  else if typeOid ∈ [TIMESTAMP, TIMESTAMPTZ, DATE] then numberOrText (copyTimestampToEpochMillis env text) text
  else if typeOid = TIME then
    numberOrText ((parseTimeMillis env text.toList).map (fun ms => (truncF64 ms : ℚ))) text
  else if typeOid = TIMETZ then numberOrText (parseTimetzMillis env text) text
  else .text text

/-- The value of a field that is not null (`make_text_decoder`). -/
def makeTextDecoder (spec : BinaryColumnSpec) (text : String) : LiteValue :=
  if spec.elemPgTypeClass.isSome then
    match parsePgArray text with
    | some elements => .text (env.stringify (.array (elements.map (fun element =>
        match element with
        | none => .null
        | some s =>
          match arrayElementType spec.typeOid with
          | some elemOid => elementTextToJson env elemOid s
          | none => .string s))))
    | none => .text text
  else if spec.pgTypeClass = some .enum ∨ !hasBinaryDecoder spec then .text text
  else decodeScalar env spec.typeOid text

/-! ## Two ways into the replica -/

/-- The value initial sync binds for a field. -/
def copied (spec : BinaryColumnSpec) (field : Option String) : SqlValue :=
  toSqlValue (match field with
    | none => .null
    | some text => makeTextDecoder env spec text)

/-- The value a replicated insert binds for a field. -/
def replicated (spec : BinaryColumnSpec) (liteType : String) (field : Option String) : SqlValue :=
  toSqlValue (liteValue env.stringify
    (match field with
      | none => .null
      | some text => textToJson env spec.typeOid text) liteType)

end

/-! ## Where they agree -/

/-- What the parsers and writers do: an integer is also read as the nearest double, zero as zero, and a
text with a colon is no number; JSON strings and arrays start with their own character, arrays are
written element by element, and no JSON text stands for itself as a string. -/
structure TextLaws (env : TextEnv) (conv : Conversions) : Prop where
  int : ∀ s n, env.parseI64 s = some n →
    env.parseF64 s = some (env.asF64 n) ∧ -9223372036854775808 ≤ n ∧ n ≤ 9223372036854775807
  zero : env.parseF64 "0" = some 0
  colon : ∀ s : String, ':' ∈ s.toList → env.parseF64 s = none
  numbers : conv.Numbers
  numeric : ∀ s v, conv.numeric s = some v → s.toList.head? ∉ [some '"', some '[', some '\x7b']
  string : ∀ s, (env.stringify (.string s)).toList.head? = some '"'
  array : ∀ items, (env.stringify (.array items)).toList.head? = some '['
  items : ∀ a b, env.stringify (.array a) = env.stringify (.array b) ↔ a.map env.stringify = b.map env.stringify
  json : ∀ s value, env.parseJson s = some value → env.stringify value ≠ env.stringify (.string s)

/-- The types whose columns have a numeric affinity, among those that are read in two ways. -/
def numericColumnTypes : List ℤ := [INT8, OID, JSON, JSONB, TIMESTAMP, TIMESTAMPTZ, DATE, TIME, TIMETZ]

/-- The name and the OID of a column's type belong together, as in the Postgres catalog: JSON columns and
arrays have the value type of JSON, arrays have an element type, enums have OIDs of their own, and
the names of numbers and times give a numeric affinity. -/
structure Catalogued (spec : BinaryColumnSpec) (liteType : String) : Prop where
  json : liteTypeToZqlValueType liteType = some .json ↔
    spec.elemPgTypeClass.isSome ∨ spec.typeOid = JSON ∨ spec.typeOid = JSONB
  scalar : spec.elemPgTypeClass = none → arrayElementType spec.typeOid = none
  array : spec.elemPgTypeClass.isSome → spec.typeOid ∉ knownBinaryOids ∧ spec.typeOid ≠ OID
  enum : spec.elemPgTypeClass = none → spec.pgTypeClass = some .enum →
    spec.typeOid ∉ knownBinaryOids ∧ spec.typeOid ≠ OID
  affinity : spec.typeOid ∈ numericColumnTypes → isNumeric liteType = true

/-- The offset of a timestamp has seconds. -/
def OffsetSeconds (env : TextEnv) (text : String) : Prop :=
  ∃ clock ∈ timestampClock env text, ∃ tz ∈ clock.2, 3 ≤ (splitOnChar ':' tz.tail).length

/-- The text of a value of a type that is no array, as Postgres writes it. -/
structure WellFormedScalar (env : TextEnv) (conv : Conversions) (typeOid : ℤ) (text : String) : Prop where
  int8 : typeOid = INT8 → (env.parseI64 text).isSome
  oid : typeOid = OID → (env.parseF64 text).isSome ∧ conv.numeric text = (env.parseF64 text).map narrowed
  json : typeOid = JSON ∨ typeOid = JSONB → (env.parseJson text).isSome
  time : typeOid = TIME → (parseTimeMillis env text.toList).isSome
  timetz : typeOid = TIMETZ → (parseTimetzMillis env text).isSome
  timestamp : typeOid ∈ [TIMESTAMP, TIMESTAMPTZ, DATE] →
    (∀ clock ∈ timestampClock env text, (splitOnChar ':' (stripZ clock.1)).length ≤ 3) ∧
      (OffsetSeconds env text → (copyTimestampToEpochMillis env text).isSome)
  other : typeOid ∈ [TIMESTAMP, TIMESTAMPTZ, DATE, TIME, TIMETZ, BYTEA] → conv.numeric text = none

/-- The text of a value, as Postgres writes it. The elements of an array that are read in two ways are
well formed, and its text starts with a brace or with its bounds. -/
def WellFormed (env : TextEnv) (conv : Conversions) (spec : BinaryColumnSpec) (text : String) : Prop :=
  match spec.elemPgTypeClass with
  | none => WellFormedScalar env conv spec.typeOid text
  | some _ => text.toList.head? ∈ [some '[', some '\x7b'] ∧
      ∀ elemOid ∈ arrayElementType spec.typeOid, ∀ elements ∈ parsePgArray text, ∀ s, some s ∈ elements →
        WellFormedScalar env conv elemOid s

/-- The values of a type that is no array that are stored alike. JSON is written anew by the stream, and
a JSON number is stored as a number whichever way it is written. -/
def ScalarAgrees (env : TextEnv) (conv : Conversions) (typeOid : ℤ) (text : String) : Prop :=
  if typeOid = INT8 then ∀ n ∈ env.parseI64 text, env.asF64 n = n
  else if typeOid = JSON ∨ typeOid = JSONB then
    ∀ value ∈ env.parseJson text, value ≠ .null ∧ (env.stringify value = text ∨
      (conv.numeric text).isSome ∧ conv.numeric (env.stringify value) = conv.numeric text)
  else if typeOid ∈ [BYTEA, TIME, TIMETZ] then False
  else if typeOid ∈ [TIMESTAMP, TIMESTAMPTZ, DATE] then ¬ OffsetSeconds env text
  else True

/-- The elements of an array that are written alike. -/
def ElementAgrees (env : TextEnv) (elemOid : ℤ) (text : String) : Prop :=
  if elemOid = INT8 then ∀ v ∈ env.parseI64 text,
    (-9007199254740991 ≤ v ∧ v ≤ 9007199254740991) ∨ env.stringify (.bigint v) = env.stringify (.number (env.asF64 v))
  else elemOid ≠ JSON ∧ elemOid ≠ JSONB

/-- The values that are stored alike. -/
def Agrees (env : TextEnv) (conv : Conversions) (spec : BinaryColumnSpec) (text : String) : Prop :=
  match spec.elemPgTypeClass with
  | none => ScalarAgrees env conv spec.typeOid text
  | some _ => ∃ elemOid elements, arrayElementType spec.typeOid = some elemOid ∧ parsePgArray text = some elements ∧
      ∀ s, some s ∈ elements → ElementAgrees env elemOid s

section

variable {env : TextEnv} {conv : Conversions} {spec : BinaryColumnSpec} {liteType text : String}

/-! ## Timestamps -/

theorem parseTimeMillis_eq {chars : List Char} (h : (splitOnChar ':' chars).length ≤ 3) :
    parseTimeMillis env chars = timeMillis env chars := by
  unfold parseTimeMillis timeMillis
  match hparts : splitOnChar ':' chars with
  | [] | [_] | [_, _] | [_, _, _] => rfl
  | _ :: _ :: _ :: _ :: _ =>
    rw [hparts] at h
    simp only [length_cons] at h
    omega

theorem parseTzOffsetMillis_eq (hzero : env.parseF64 (ofList ['0']) = some 0) {tz : List Char}
    (h : (splitOnChar ':' tz.tail).length ≤ 2) : parseTzOffsetMillis env tz = offsetMillis env tz := by
  match hparts : splitOnChar ':' tz.tail with
  | [] => exact absurd hparts (splitOnChar_ne_nil ':' tz.tail)
  | [hh] =>
    obtain ⟨rfl, hcolon⟩ := splitOnChar_eq_singleton hparts
    rw [parseTzOffsetMillis, offsetMillis, hparts, splitOnce_of_not_mem hcolon]
    dsimp only
    cases hhour : env.parseF64 (ofList tz.tail) with
    | none => rfl
    | some hour =>
      have hsame : (|hour| * 3600 + 0 * 60 + 0) * 1000 = (|hour| * 60 + 0) * 60000 := by ring
      simp only [headD_nil, tail_nil, hzero, offsetMinutes, bind_eq_bind, bind_some, hsame]
  | [hh, mm] =>
    obtain ⟨rest, hsplit, hrest⟩ := splitOnce_of_splitOnChar hparts
    obtain ⟨rfl, -⟩ := splitOnChar_eq_singleton hrest
    rw [parseTzOffsetMillis, offsetMillis, hparts, hsplit]
    dsimp only
    cases hhour : env.parseF64 (ofList hh) with
    | none => rfl
    | some hour =>
      cases hminute : env.parseF64 (ofList mm) with
      | none => simp only [headD_cons, offsetMinutes, hminute, bind_eq_bind, bind_some, bind_none]
      | some minute =>
        have hsame : (|hour| * 3600 + minute * 60 + 0) * 1000 = (|hour| * 60 + minute) * 60000 := by ring
        simp only [headD_cons, headD_nil, tail_cons, hzero, offsetMinutes, hminute, bind_eq_bind,
          bind_some, hsame]
  | _ :: _ :: _ :: _ =>
    rw [hparts] at h
    simp at h

/-- The stream does not read an offset with seconds. -/
theorem offsetMillis_none (hcolon : ∀ s : String, ':' ∈ s.toList → env.parseF64 s = none) {tz : List Char}
    (h : 3 ≤ (splitOnChar ':' tz.tail).length) : offsetMillis env tz = none := by
  match hparts : splitOnChar ':' tz.tail with
  | [] | [_] | [_, _] =>
    rw [hparts] at h
    simp at h
  | hh :: mm :: ss :: more =>
    obtain ⟨rest, hsplit, hrest⟩ := splitOnce_of_splitOnChar hparts
    have hmem : ':' ∈ rest := by
      by_contra hnone
      rw [splitOnChar_of_not_mem hnone] at hrest
      cases (cons.inj hrest).2
    have hminutes : env.parseF64 (ofList rest) = none := hcolon _ (by simpa using hmem)
    unfold offsetMillis
    rw [hsplit]
    cases hhour : env.parseF64 (ofList hh) <;> simp [hhour, offsetMinutes, hminutes]

/-- Without seconds in its offset a timestamp is read alike; with them only by COPY. -/
theorem timestamp_eq_iff (hzero : env.parseF64 "0" = some 0) (hcolon : ∀ s : String, ':' ∈ s.toList → env.parseF64 s = none)
    (htime : ∀ clock ∈ timestampClock env text, (splitOnChar ':' (stripZ clock.1)).length ≤ 3)
    (hread : OffsetSeconds env text → (copyTimestampToEpochMillis env text).isSome) :
    copyTimestampToEpochMillis env text = pgTimestampToEpochMillis env text ↔ ¬ OffsetSeconds env text := by
  constructor
  · rintro heq hseconds
    obtain ⟨clock, hclock, tz, htz, hparts⟩ := hseconds
    have hnone : pgTimestampToEpochMillis env text = none := epochMillis_none hclock htz (offsetMillis_none hcolon hparts)
    have hsome := hread ⟨clock, hclock, tz, htz, hparts⟩
    rw [heq, hnone] at hsome
    cases hsome
  · intro hseconds
    refine epochMillis_congr (fun clock hclock => ⟨parseTimeMillis_eq (htime clock hclock), fun tz htz => ?_⟩)
    refine parseTzOffsetMillis_eq hzero ?_
    by_contra hlong
    exact hseconds ⟨clock, hclock, tz, htz, by omega⟩

/-! ## Scalars -/

/-- A number in a numeric column is stored as the number it is. -/
theorem stored_number (h : isNumeric liteType = true) (x : ℚ) :
    conv.stored liteType (toSqlValue (.number x)) = narrowed x := by
  rw [toSqlValue]
  split
  · next hint =>
    have hx : (x.num : ℚ) = x := (Rat.den_eq_one_iff x).mp hint.1
    have hnarrowed : narrowed x = .integer x.num := by
      rw [← hx, narrowed_intCast (by omega), hx]
    rw [hnarrowed, stored_integer h]
  · rw [stored_real h]

section

variable (hjson : liteTypeToZqlValueType liteType ≠ some .json) (stringify : JsonValue → String)

include hjson

/-- Numbers and the texts that are none arrive alike. -/
theorem liteValue_numberOrString
    (x : Option ℚ) : liteValue stringify (numberOrString x text) liteType = numberOrText x text := by
  cases x <;> simp [liteValue, numberOrString, numberOrText, hjson, toLiteJson]

theorem liteValue_bool (b : Bool) : liteValue stringify (.bool b) liteType = .number (if b then 1 else 0) := by
  simp [liteValue, hjson, toLiteJson]

end

theorem toSqlValue_text (s : String) : toSqlValue (.text s) = .text s := rfl

/-- A text that is no number is stored like a number only if it is read as the same. -/
theorem stored_numberOrText_iff (h : isNumeric liteType = true) (htext : conv.numeric text = none) {a b : Option ℚ} :
    conv.stored liteType (toSqlValue (numberOrText a text)) = conv.stored liteType (toSqlValue (numberOrText b text)) ↔
      a = b := by
  cases a with
  | none =>
    cases b with
    | none => simp
    | some y =>
      simpa [numberOrText, toSqlValue_text, stored_number h, stored_text htext] using
        (narrowed_ne_text y text).symm
  | some x =>
    cases b with
    | none =>
      simpa [numberOrText, toSqlValue_text, stored_number h, stored_text htext] using
        narrowed_ne_text x text
    | some =>
      rw [numberOrText, numberOrText, stored_number h, stored_number h]
      exact ⟨fun heq => congrArg some (narrowed_injective heq), fun heq => by rw [some.inj heq]⟩

/-- The two ways a field is stored. -/
def StoredAlike (env : TextEnv) (conv : Conversions) (spec : BinaryColumnSpec) (liteType : String)
    (field : Option String) : Prop :=
  conv.stored liteType (copied env spec field) = conv.stored liteType (replicated env spec liteType field)

namespace Catalogued

section

variable (h : Catalogued spec liteType) (helem : spec.elemPgTypeClass = none)

include h helem

/-- A type with a decoder is no enum, so its decoder is used. -/
theorem copied_eq (hknown : spec.typeOid ∈ knownBinaryOids) :
    copied env spec (some text) = toSqlValue (decodeScalar env spec.typeOid text) := by
  have hdecoded : ¬ (spec.pgTypeClass = some .enum ∨ !hasBinaryDecoder spec) := by
    rintro (henum | hnone)
    · exact (h.enum helem henum).1 hknown
    · simp [hasBinaryDecoder, hknown] at hnone
  rw [copied, makeTextDecoder, helem, if_neg (by simp), if_neg hdecoded]

omit h in
/-- A type without a decoder is copied as text. -/
theorem copied_text (hknown : spec.typeOid ∉ knownBinaryOids) : copied env spec (some text) = .text text := by
  have hdecoded : spec.pgTypeClass = some .enum ∨ !hasBinaryDecoder spec := by
    by_cases henum : spec.pgTypeClass = some .enum
    · exact .inl henum
    · exact .inr (by simp [hasBinaryDecoder, helem, hknown, henum])
  rw [copied, makeTextDecoder, helem, if_neg (by simp), if_pos hdecoded, toSqlValue_text]

theorem replicated_eq : replicated env spec liteType (some text) =
      toSqlValue (liteValue env.stringify (scalarToJson env spec.typeOid text) liteType) := by
  rw [replicated, textToJson, h.scalar helem]

/-- The value type of a type that is neither an array nor JSON. -/
theorem plain
    (hjson : ¬ (spec.typeOid = JSON ∨ spec.typeOid = JSONB)) : liteTypeToZqlValueType liteType ≠ some .json := by
  intro htype
  rcases h.json.mp htype with harray | htype
  · simp [helem] at harray
  · exact hjson htype

/-- A big integer is stored alike exactly when it is a double. -/
theorem int8_iff (laws : TextLaws env conv)
    (hoid : spec.typeOid = INT8) {n : ℤ} (hn : env.parseI64 text = some n) :
    StoredAlike env conv spec liteType (some text) ↔ env.asF64 n = n := by
  obtain ⟨hdouble, hrange⟩ := laws.int text n hn
  have hcopy : decodeScalar env INT8 text = .big n := by
    have hdecode : decodeScalar env INT8 text = (match env.parseI64 text with
      | some n => .big n
      | none => .text text) := rfl
    rw [hdecode, hn]
  have hwire : scalarToJson env INT8 text = numberOrString (env.parseF64 text) text := rfl
  have hnumeric := h.affinity (by rw [hoid]; decide)
  have hinteger : conv.stored liteType (toSqlValue (.big n)) = narrowed n := by
    rw [toSqlValue, if_pos hrange, narrowed_intCast hrange, stored_integer hnumeric]
  rw [StoredAlike, h.copied_eq helem (by rw [hoid]; decide), h.replicated_eq helem, hoid, hcopy, hwire,
    liteValue_numberOrString (h.plain helem (by rw [hoid]; decide)), hdouble, hinteger,
    numberOrText, stored_number hnumeric]
  exact ⟨fun heq => (narrowed_injective heq).symm, fun heq => by rw [heq]⟩

/-- An OID is copied as text and replicated as a number; the column stores the number for both. -/
theorem oid (hoid : spec.typeOid = OID)
    (hwf : WellFormedScalar env conv spec.typeOid text) : StoredAlike env conv spec liteType (some text) := by
  obtain ⟨hsome, hnumeric⟩ := hwf.oid hoid
  obtain ⟨x, hx⟩ := isSome_iff_exists.mp hsome
  have hwire : scalarToJson env OID text = numberOrString (env.parseF64 text) text := rfl
  have haffinity := h.affinity (by rw [hoid]; decide)
  rw [StoredAlike, copied_text helem (by rw [hoid]; decide), h.replicated_eq helem, hoid, hwire,
    liteValue_numberOrString (h.plain helem (by rw [hoid]; decide)), stored_text_numeric haffinity,
    hnumeric, hx, numberOrText, stored_number haffinity]
  rfl

/-- JSON is stored alike exactly when it is written as `stringify` writes it or is a number; the JSON null
is replicated as NULL. -/
theorem json_iff (laws : TextLaws env conv)
    (hoid : spec.typeOid = JSON ∨ spec.typeOid = JSONB) {value : JsonValue} (hvalue : env.parseJson text = some value) :
    StoredAlike env conv spec liteType (some text) ↔ value ≠ .null ∧ (env.stringify value = text ∨
      (conv.numeric text).isSome ∧ conv.numeric (env.stringify value) = conv.numeric text) := by
  obtain ⟨hknown, hnumeric, hcopy, hwire⟩ : spec.typeOid ∈ knownBinaryOids ∧ spec.typeOid ∈ numericColumnTypes ∧
      decodeScalar env spec.typeOid text = .text text ∧
      scalarToJson env spec.typeOid text = (env.parseJson text).getD (.string text) := by
    rcases hoid with hoid | hoid <;> rw [hoid] <;> exact ⟨by decide, by decide, rfl, rfl⟩
  have hjson : liteTypeToZqlValueType liteType = some .json := h.json.mpr (.inr hoid)
  have haffinity := h.affinity hnumeric
  have hwritten_ne (hne : conv.numeric (env.stringify value) ≠ conv.numeric text) : env.stringify value ≠ text :=
    fun heq => hne (congrArg _ heq)
  rw [StoredAlike, h.copied_eq helem hknown, h.replicated_eq helem, hcopy, hwire, hvalue, getD_some, liteValue]
  by_cases hnull : value = .null
  · simpa [hnull, toSqlValue, stored_null] using laws.numbers.stored_text_ne_null haffinity text
  · rw [if_neg hnull, if_pos (by simp [hjson]), toSqlValue_text, toSqlValue_text,
      stored_text_numeric haffinity, stored_text_numeric haffinity]
    cases htext : conv.numeric text with
    | none =>
      cases hwritten : conv.numeric (env.stringify value) with
      | none => simp [hnull, eq_comm]
      | some =>
        obtain ⟨y, rfl⟩ := laws.numbers.numeric hwritten
        have hne := hwritten_ne (by simp [hwritten, htext])
        simpa [hnull, hne] using (narrowed_ne_text y text).symm
    | some =>
      obtain ⟨x, rfl⟩ := laws.numbers.numeric htext
      cases hwritten : conv.numeric (env.stringify value) with
      | none =>
        have hne := hwritten_ne (by simp [hwritten, htext])
        simpa [hnull, hne] using narrowed_ne_text x (env.stringify value)
      | some =>
        simp only [isSome_some, true_and, some.injEq, ne_eq, hnull, not_false_eq_true]
        constructor
        · intro heq
          exact .inr heq.symm
        · rintro (heq | heq)
          · rw [heq, htext] at hwritten
            exact some.inj hwritten
          · exact heq.symm

/-- A time that is read as a number or not at all is stored alike exactly when both ways read the same. -/
theorem number_iff (hoid : spec.typeOid ∈ [TIMESTAMP, TIMESTAMPTZ, DATE, TIME, TIMETZ])
    (hwf : WellFormedScalar env conv spec.typeOid text) {a b : Option ℚ}
    (hcopy : decodeScalar env spec.typeOid text = numberOrText a text)
    (hwire : scalarToJson env spec.typeOid text = numberOrString b text) :
    StoredAlike env conv spec liteType (some text) ↔ a = b := by
  have htypes : ∀ oid ∈ [TIMESTAMP, TIMESTAMPTZ, DATE, TIME, TIMETZ], oid ∈ knownBinaryOids ∧
      oid ∈ numericColumnTypes ∧ ¬ (oid = JSON ∨ oid = JSONB) := by decide
  obtain ⟨hknown, hnumeric, hjson⟩ := htypes _ hoid
  rw [StoredAlike, h.copied_eq helem hknown, h.replicated_eq helem, hcopy, hwire,
    liteValue_numberOrString (h.plain helem hjson),
    stored_numberOrText_iff (h.affinity hnumeric) (hwf.other (mem_append_left [BYTEA] hoid))]

/-- A date or timestamp is stored alike unless its offset has seconds. -/
theorem timestamp_iff (laws : TextLaws env conv)
    (hoid : spec.typeOid ∈ [TIMESTAMP, TIMESTAMPTZ, DATE]) (hwf : WellFormedScalar env conv spec.typeOid text) :
    StoredAlike env conv spec liteType (some text) ↔ ¬ OffsetSeconds env text := by
  obtain ⟨htime, hread⟩ := hwf.timestamp hoid
  have hmem := mem_append_left [TIME, TIMETZ] hoid
  simp only [mem_cons, not_mem_nil, or_false] at hoid
  obtain ⟨hcopy, hwire⟩ : decodeScalar env spec.typeOid text = numberOrText (copyTimestampToEpochMillis env text) text ∧
      scalarToJson env spec.typeOid text = numberOrString (pgTimestampToEpochMillis env text) text := by
    rcases hoid with hoid | hoid | hoid <;> rw [hoid] <;> exact ⟨rfl, rfl⟩
  rw [h.number_iff helem hmem hwf hcopy hwire]
  exact timestamp_eq_iff laws.zero laws.colon htime hread

/-- Bytes are copied as a blob and replicated as text. -/
theorem not_bytea (hoid : spec.typeOid = BYTEA) (hwf : WellFormedScalar env conv spec.typeOid text) :
    ¬ StoredAlike env conv spec liteType (some text) := by
  have hcopy : decodeScalar env BYTEA text = .blob (decodeByteaText text) := rfl
  have hwire : scalarToJson env BYTEA text = numberOrString none text := rfl
  rw [StoredAlike, h.copied_eq helem (by rw [hoid]; decide), h.replicated_eq helem, hoid, hcopy, hwire,
    liteValue_numberOrString (h.plain helem (by rw [hoid]; decide)), numberOrText, toSqlValue, toSqlValue,
    stored_blob, stored_text (hwf.other (by rw [hoid]; decide))]
  simp

/-- A time of day is copied as a number and replicated as text. -/
theorem not_time
    (hoid : spec.typeOid = TIME ∨ spec.typeOid = TIMETZ) (hwf : WellFormedScalar env conv spec.typeOid text) :
    ¬ StoredAlike env conv spec liteType (some text) := by
  obtain ⟨x, hcopy⟩ : ∃ x, decodeScalar env spec.typeOid text = numberOrText (some x) text := by
    rcases hoid with hoid | hoid
    · obtain ⟨ms, hms⟩ := isSome_iff_exists.mp (hwf.time hoid)
      have hdecode : decodeScalar env TIME text =
        numberOrText ((parseTimeMillis env text.toList).map (fun ms => (truncF64 ms : ℚ))) text := rfl
      exact ⟨truncF64 ms, by rw [hoid, hdecode, hms, map_some]⟩
    · obtain ⟨ms, hms⟩ := isSome_iff_exists.mp (hwf.timetz hoid)
      have hdecode : decodeScalar env TIMETZ text = numberOrText (parseTimetzMillis env text) text := rfl
      exact ⟨ms, by rw [hoid, hdecode, hms]⟩
  have hwire : scalarToJson env spec.typeOid text = numberOrString none text := by
    rcases hoid with hoid | hoid <;> rw [hoid] <;> rfl
  rw [h.number_iff helem (by simp [hoid]) hwf hcopy hwire]
  simp

/-- Every other type is decoded to the same value. -/
theorem other (hoid : spec.typeOid ∉ [INT8, OID, JSON, JSONB, BYTEA, TIME, TIMETZ, TIMESTAMP, TIMESTAMPTZ, DATE]) :
    StoredAlike env conv spec liteType (some text) := by
  simp only [mem_cons, not_or] at hoid
  obtain ⟨hint8, hoidType, hjson, hjsonb, hbytea, htime, htimetz, htimestamp, htimestamptz, hdate⟩ := hoid
  have hplain := h.plain helem (by simp [hjson, hjsonb])
  rw [StoredAlike, h.replicated_eq helem]
  by_cases hbool : spec.typeOid = BOOL
  · have hcopy : decodeScalar env BOOL text = .number (if text == "t" then 1 else 0) := rfl
    have hwire : scalarToJson env BOOL text = .bool (text == "t") := rfl
    rw [h.copied_eq helem (by rw [hbool]; decide), hbool, hcopy, hwire, liteValue_bool hplain]
  by_cases hnumber : spec.typeOid ∈ [INT2, INT4, FLOAT4, FLOAT8, NUMERIC]
  · obtain ⟨hknown, hcopy, hwire⟩ : spec.typeOid ∈ knownBinaryOids ∧
        decodeScalar env spec.typeOid text = numberOrText (env.parseF64 text) text ∧
        scalarToJson env spec.typeOid text = numberOrString (env.parseF64 text) text := by
      simp only [mem_cons, not_mem_nil, or_false] at hnumber
      rcases hnumber with hoid | hoid | hoid | hoid | hoid <;> rw [hoid] <;> exact ⟨by decide, rfl, rfl⟩
    rw [h.copied_eq helem hknown, hcopy, hwire, liteValue_numberOrString hplain]
  · simp only [mem_cons, not_or] at hnumber
    have hwire : scalarToJson env spec.typeOid text = numberOrString none text := by
      simp [scalarToJson, numberTypes, numberOrString, *]
    have hcopy : copied env spec (some text) = .text text := by
      by_cases hknown : spec.typeOid ∈ knownBinaryOids
      · rw [h.copied_eq helem hknown, ← toSqlValue_text]
        simp [decodeScalar, *]
      · exact copied_text helem hknown
    rw [hcopy, hwire, liteValue_numberOrString hplain]
    rfl

/-- A value that is no array is stored alike exactly when it agrees. -/
theorem scalar_iff (laws : TextLaws env conv) (hwf : WellFormedScalar env conv spec.typeOid text) :
    StoredAlike env conv spec liteType (some text) ↔ ScalarAgrees env conv spec.typeOid text := by
  unfold ScalarAgrees
  split
  · next hoid =>
    obtain ⟨n, hn⟩ := isSome_iff_exists.mp (hwf.int8 hoid)
    simpa [hn] using h.int8_iff helem laws hoid hn
  split
  · next hoid =>
    obtain ⟨value, hvalue⟩ := isSome_iff_exists.mp (hwf.json hoid)
    simpa [hvalue] using h.json_iff helem laws hoid hvalue
  split
  · next hoid =>
    rw [iff_false]
    simp only [mem_cons, not_mem_nil, or_false] at hoid
    rcases hoid with hoid | hoid
    · exact h.not_bytea helem hoid hwf
    · exact h.not_time helem hoid hwf
  split
  · next hoid => exact h.timestamp_iff helem laws hoid hwf
  · next hint8 hjson hnever htimestamp =>
    rw [iff_true]
    by_cases hoid : spec.typeOid = OID
    · exact h.oid helem hoid hwf
    · refine h.other helem ?_
      simp only [mem_cons, not_mem_nil, or_false, not_or] at hjson hnever htimestamp ⊢
      exact ⟨hint8, hoid, hjson.1, hjson.2, hnever.1, hnever.2.1, hnever.2.2, htimestamp.1, htimestamp.2.1, htimestamp.2.2⟩

end

end Catalogued

/-! ## Arrays -/

/-- An element as COPY reads it. -/
def copiedElement (env : TextEnv) (elemOid : Option ℤ) (element : Option String) : JsonValue :=
  match element with
  | none => .null
  | some s =>
    match elemOid with
    | some elemOid => elementTextToJson env elemOid s
    | none => .string s

/-- An element as the stream reads it. -/
def replicatedElement (env : TextEnv) (elemOid : ℤ) (element : Option String) : JsonValue :=
  match element with
  | none => .null
  | some s => scalarToJson env elemOid s

/-- The element types of the recognized arrays. -/
theorem arrayElementType_mem {oid elemOid : ℤ} (h : arrayElementType oid = some elemOid) :
    elemOid ∈ [BOOL, INT2, INT4, TEXT, VARCHAR, INT8, FLOAT4, FLOAT8, NUMERIC, JSON, JSONB, UUID] := by
  have hmem := Assoc.mem_of_get? h
  have hsnd : elemOid ∈ arrayTypes.map (·.2) := mem_map_of_mem hmem
  exact hsnd

/-- An element is written alike exactly when it agrees. -/
theorem element_iff (laws : TextLaws env conv) {oid elemOid : ℤ} (helem : arrayElementType oid = some elemOid)
    (hwf : WellFormedScalar env conv elemOid text) :
    env.stringify (copiedElement env (some elemOid) (some text)) = env.stringify (replicatedElement env elemOid (some text)) ↔
      ElementAgrees env elemOid text := by
  by_cases hint8 : elemOid = INT8
  · subst hint8
    obtain ⟨v, hv⟩ := isSome_iff_exists.mp (hwf.int8 rfl)
    have hcopy : elementTextToJson env INT8 text = (match env.parseI64 text with
      | some v => if -9007199254740991 ≤ v ∧ v ≤ 9007199254740991 then .number (env.asF64 v) else .bigint v
      | none => .string text) := rfl
    have hwire : scalarToJson env INT8 text = numberOrString (env.parseF64 text) text := rfl
    rw [copiedElement, replicatedElement, hcopy, hwire, (laws.int text v hv).1, ElementAgrees, hv]
    dsimp only [numberOrString]
    by_cases hsafe : -9007199254740991 ≤ v ∧ v ≤ 9007199254740991
    · simp [hsafe]
    · simp [hsafe]
  by_cases hjson : elemOid = JSON ∨ elemOid = JSONB
  · obtain ⟨value, hvalue⟩ := isSome_iff_exists.mp (hwf.json hjson)
    have hcopy : elementTextToJson env elemOid text = .string text := by
      rcases hjson with rfl | rfl <;> rfl
    have hwire : scalarToJson env elemOid text = (env.parseJson text).getD (.string text) := by
      rcases hjson with rfl | rfl <;> rfl
    rw [copiedElement, replicatedElement, hcopy, hwire, hvalue, ElementAgrees, if_neg hint8]
    constructor
    · intro heq
      exact absurd heq.symm (laws.json text value hvalue)
    · intro hother
      exact absurd hjson (not_or.mpr hother)
  · have hmem := arrayElementType_mem helem
    simp only [mem_cons, not_mem_nil, or_false] at hmem
    rw [ElementAgrees, if_neg hint8, ← not_or]
    simp only [hjson, not_false_eq_true, iff_true]
    rcases hmem with rfl | rfl | rfl | rfl | rfl | rfl | rfl | rfl | rfl | rfl | rfl | rfl
    · rfl
    · rfl
    · rfl
    · rfl
    · rfl
    · exact absurd rfl hint8
    · rfl
    · rfl
    · rfl
    · exact absurd (.inl rfl) hjson
    · exact absurd (.inr rfl) hjson
    · rfl

/-- The text COPY makes of an array. -/
theorem copied_array (helem : spec.elemPgTypeClass.isSome) :
    copied env spec (some text) = .text (match parsePgArray text with
      | some elements => env.stringify (.array (elements.map (copiedElement env (arrayElementType spec.typeOid))))
      | none => text) := by
  rw [copied, makeTextDecoder, if_pos helem]
  cases parsePgArray text with
  | none | some => rfl

section

variable (h : Catalogued spec liteType) (helem : spec.elemPgTypeClass.isSome)

include h helem

/-- The value the stream makes of an array. -/
theorem textToJson_array :
    textToJson env spec.typeOid text = (match arrayElementType spec.typeOid, parsePgArray text with
      | some elemOid, some elements => .array (elements.map (replicatedElement env elemOid))
      | _, _ => .string text) := by
  obtain ⟨hknown, hoid⟩ := h.array helem
  rw [textToJson]
  cases arrayElementType spec.typeOid with
  | some => cases parsePgArray text <;> rfl
  | none =>
    simp only [knownBinaryOids, mem_cons, not_or] at hknown
    simp [scalarToJson, numberTypes, hknown, hoid]

theorem replicated_array :
    replicated env spec liteType (some text) = .text (env.stringify (textToJson env spec.typeOid text)) := by
  have hnull : textToJson env spec.typeOid text ≠ .null := by
    rw [textToJson_array h helem]
    split <;> simp
  rw [replicated, liteValue, if_neg hnull, if_pos (by simp [h.json.mpr (.inl helem)])]
  rfl

/-- An array is stored alike exactly when its type is recognized, its text is read and its elements agree. -/
theorem array_iff (laws : TextLaws env conv) (hstart : text.toList.head? ∈ [some '[', some '\x7b'])
    (hwf : ∀ elemOid ∈ arrayElementType spec.typeOid, ∀ elements ∈ parsePgArray text, ∀ s, some s ∈ elements →
      WellFormedScalar env conv elemOid s) : StoredAlike env conv spec liteType (some text) ↔
      ∃ elemOid elements, arrayElementType spec.typeOid = some elemOid ∧ parsePgArray text = some elements ∧
        ∀ s, some s ∈ elements → ElementAgrees env elemOid s := by
  have hplain {s : String} (hs : s.toList.head? ∈ [some '"', some '[', some '\x7b']) :
      conv.stored liteType (.text s) = .text s := by
    refine stored_text ?_
    cases hnumeric : conv.numeric s with
    | none => rfl
    | some x => exact absurd hs (laws.numeric s x hnumeric)
  have hstring : (env.stringify (.string text)).toList.head? ∈ [some '"', some '[', some '\x7b'] := by
    rw [laws.string]
    decide
  have hquoted : text ≠ env.stringify (.string text) := by
    intro heq
    rw [heq, laws.string] at hstart
    revert hstart
    decide
  have harray (items : List JsonValue) :
      (env.stringify (.array items)).toList.head? ∈ [some '"', some '[', some '\x7b'] := by
    rw [laws.array]
    decide
  rw [StoredAlike, copied_array helem, replicated_array h helem, textToJson_array h helem]
  cases hparse : parsePgArray text with
  | none =>
    rw [hplain (mem_cons_of_mem _ hstart)]
    cases arrayElementType spec.typeOid <;> simp [hplain hstring, hquoted]
  | some elements =>
    cases htype : arrayElementType spec.typeOid with
    | none =>
      have hne : env.stringify (.array (elements.map (copiedElement env none))) ≠ env.stringify (.string text) := by
        intro heq
        have hheads := laws.array (elements.map (copiedElement env none))
        rw [heq, laws.string] at hheads
        revert hheads
        decide
      simp [hplain hstring, hplain (harray _), hne]
    | some elemOid =>
      rw [hplain (harray _), hplain (harray _), SqlValue.text.injEq, laws.items, List.map_map, List.map_map,
        map_inj_left]
      constructor
      · intro hall
        refine ⟨elemOid, elements, rfl, rfl, fun s hs => ?_⟩
        exact (element_iff laws htype (hwf elemOid htype elements hparse s hs)).mp (hall (some s) hs)
      · rintro ⟨_, _, ⟨⟩, ⟨⟩, hall⟩ element helement
        cases element with
        | none => rfl
        | some s => exact (element_iff laws htype (hwf elemOid htype elements hparse s helement)).mpr (hall s helement)

end

/-! ## Every field -/

end

/-! ### One number -/

mutual
/-- A number for a JSON value that tells arrays by the numbers of their elements, and nothing else. -/
def shapeOf : JsonValue → ℕ
  | .array items => Encodable.encode (shapesOf items) + 2
  | .string _ => 0
  | .null | .bool _ | .number _ | .bigint _ | .object _ => 1

def shapesOf : List JsonValue → List ℕ
  | [] => []
  | item :: rest => shapeOf item :: shapesOf rest
end

/-- A shape as a text that starts as the JSON value does. -/
def shapeText (shape : ℕ) : String :=
  String.ofList ((if shape = 0 then '"' else if shape = 1 then '0' else '[') :: List.replicate shape '|')

theorem shapesOf_eq_map (items : List JsonValue) : shapesOf items = items.map shapeOf := by
  induction items with
  | nil => rfl
  | cons item rest ih => rw [shapesOf, ih, map_cons]

theorem shapeText_injective : Function.Injective shapeText := by
  intro a b h
  simpa [shapeText] using congrArg (fun text : String => text.toList.length) h

/-- An environment that knows the numbers 0 and 42. -/
def smallEnv : TextEnv where
  parseF64 := fun s => if s = "42" then some 42 else if s = "0" then some 0 else none
  parseI64 := fun s => if s = "42" then some 42 else none
  asF64 := fun n => n
  infinity := 0
  negInfinity := 0
  parseJson := fun _ => none
  stringify := fun value => shapeText (shapeOf value)
  trim := fun s => s

theorem smallEnv_laws : TextLaws smallEnv .plain where
  int := by
    intro s n h
    simp only [smallEnv] at h ⊢
    split at h
    · next hs =>
      obtain rfl := some.inj h
      simp [hs]
    · cases h
  zero := by decide
  colon := by
    intro s hs
    have h42 : s ≠ "42" := by
      rintro rfl
      revert hs
      decide
    have h0 : s ≠ "0" := by
      rintro rfl
      revert hs
      decide
    simp [smallEnv, h42, h0]
  numbers := by simp [Conversions.Numbers, plain]
  numeric := by simp [numeric, plain]
  string := by simp [smallEnv, shapeOf, shapeText]
  array := by simp [smallEnv, shapeOf, shapeText]
  items := by
    intro a b
    have hmap (items : List JsonValue) : items.map smallEnv.stringify = (shapesOf items).map shapeText := by
      rw [shapesOf_eq_map, List.map_map]
      rfl
    have hstringify (items : List JsonValue) :
        smallEnv.stringify (.array items) = shapeText (Encodable.encode (shapesOf items) + 2) := by
      simp [smallEnv, shapeOf]
    rw [hmap, hmap, (map_injective_iff.mpr shapeText_injective).eq_iff, hstringify, hstringify,
      shapeText_injective.eq_iff, Nat.add_right_cancel_iff, Encodable.encode_injective.eq_iff]
  json := by simp [smallEnv]

end ZeroCache.Replica
