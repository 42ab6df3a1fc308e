import ZeroCache.Data.PgText

/-!
# Values of the replication stream

The replication stream sends column values as text, and `text_to_json` (`pg_to_change.rs`) reads them
by the OID of their type: truth values, numbers, JSON, dates and timestamps, and arrays of the types
it knows. Everything else stays text.
-/

namespace ZeroCache.ChangeSource

open PgTypes

variable (env : TextEnv)

/-- A time of day; parts after the seconds are not looked at. -/
def timeMillis (chars : List Char) : Option ℚ :=
  match splitOnChar ':' chars with
  | h :: m :: rest => clockMillis env h m (rest.headD ['0'])
  | _ => none

/-- The minutes of an offset, which may be left out. -/
def offsetMinutes : Option (List Char) → Option ℚ
  | none => some 0
  | some minutes => env.parseF64 (String.ofList minutes)

/-- An offset in milliseconds east of UTC: hours, and minutes after the first colon. -/
def offsetMillis (tz : List Char) : Option ℚ := do
  let parts := splitOnce (· == ':') tz.tail
  let hh ← env.parseF64 (String.ofList parts.1)
  let mm ← offsetMinutes env parts.2
  let millis := (|hh| * 60 + mm) * 60000
  return if tz.head? = some '+' then millis else -millis

/-- Epoch milliseconds of a date or timestamp. -/
def pgTimestampToEpochMillis (text : String) : Option ℚ := epochMillis env (timeMillis env) (offsetMillis env) text

/-- The types whose text is read as a double. -/
def numberTypes : List ℤ := [INT2, INT4, INT8, OID, FLOAT4, FLOAT8, NUMERIC]

/-- A value that is no array. -/
def scalarToJson (typeOid : ℤ) (text : String) : JsonValue :=
  if typeOid = BOOL then .bool (text == "t")
  else if typeOid ∈ numberTypes then numberOrString (env.parseF64 text) text
  else if typeOid = JSON ∨ typeOid = JSONB then (env.parseJson text).getD (.string text)
  else if typeOid ∈ [TIMESTAMP, TIMESTAMPTZ, DATE] then numberOrString (pgTimestampToEpochMillis env text) text
  else .string text

/-- A column value as a wire value. The elements of an array are never arrays. -/
def textToJson (typeOid : ℤ) (text : String) : JsonValue :=
  match arrayElementType typeOid with
  | some elementOid =>
    match parsePgArray text with
    | some elements => .array (elements.map (fun element =>
        match element with
        | none => .null
        | some s => scalarToJson env elementOid s))
    | none => .string text
  | none => scalarToJson env typeOid text

end ZeroCache.ChangeSource
