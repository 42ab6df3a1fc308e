import ZeroCache.Data.Value
import Mathlib.Algebra.Order.Ring.Rat

/-!
# Postgres values as text

Type OIDs, and what the two decoders of Postgres text share: initial sync reads COPY text
(`pg_copy_text.rs`), the replication stream reads text tuples (`pg_to_change.rs`). Each has a copy of
the array and timestamp parsers; where the copies agree there is one definition here. Doubles are
rationals and arithmetic on them is exact. The infinities and NaN are whatever values `parseF64` gives
them: nothing computes with them.
-/

namespace ZeroCache

open List

/-! ## Type OIDs -/

namespace PgTypes

def BOOL : ℤ := 16
def BYTEA : ℤ := 17
def CHAR : ℤ := 18
def INT8 : ℤ := 20
def INT2 : ℤ := 21
def INT4 : ℤ := 23
def TEXT : ℤ := 25
def OID : ℤ := 26
def JSON : ℤ := 114
def FLOAT4 : ℤ := 700
def FLOAT8 : ℤ := 701
def BPCHAR : ℤ := 1042
def VARCHAR : ℤ := 1043
def DATE : ℤ := 1082
def TIME : ℤ := 1083
def TIMESTAMP : ℤ := 1114
def TIMESTAMPTZ : ℤ := 1184
def TIMETZ : ℤ := 1266
def NUMERIC : ℤ := 1700
def UUID : ℤ := 2950
def JSONB : ℤ := 3802

/-- The array types that are recognized, with their element types. -/
def arrayTypes : Assoc ℤ ℤ :=
  [(1000, BOOL), (1005, INT2), (1007, INT4), (1009, TEXT), (1015, VARCHAR), (1016, INT8), (1021, FLOAT4),
    (1022, FLOAT8), (1231, NUMERIC), (199, JSON), (3807, JSONB), (2951, UUID)]

/-- The element type of a recognized array type (`array_element_type`). -/
def arrayElementType (oid : ℤ) : Option ℤ := arrayTypes.get? oid

end PgTypes

/-- What the decoders leave to libraries: the number parsers, the nearest double of an integer, the
parser and the writer of JSON, and trimming. -/
structure TextEnv where
  parseF64 : String → Option ℚ
  parseI64 : String → Option ℤ
  asF64 : ℤ → ℚ
  infinity : ℚ
  negInfinity : ℚ
  parseJson : String → Option JsonValue
  stringify : JsonValue → String
  trim : String → String

/-- A JSON number or, if the text is none, a string. -/
def numberOrString (number : Option ℚ) (text : String) : JsonValue :=
  match number with
  | some n => .number n
  | none => .string text

/-! ## Splitting -/

/-- The parts between the occurrences of a character. -/
def splitOnChar (sep : Char) : List Char → List (List Char)
  | [] => [[]]
  | c :: rest =>
    if c = sep then [] :: splitOnChar sep rest
    else
      match splitOnChar sep rest with
      | [] => [[c]]
      | first :: more => (c :: first) :: more

/-- The parts before and after the first character of a kind. -/
def splitOnce (isSep : Char → Bool) (chars : List Char) : List Char × Option (List Char) :=
  match chars.dropWhile (fun c => !isSep c) with
  | [] => (chars, none)
  | _ :: rest => (chars.takeWhile (fun c => !isSep c), some rest)

/-- A time and its offset: the part from the last sign on, unless that is the first character. -/
def splitTzOffset (chars : List Char) : List Char × Option (List Char) :=
  let after := (chars.reverse.takeWhile (fun c => c ≠ '+' && c ≠ '-')).reverse
  let front := chars.take (chars.length - after.length)
  match front.getLast? with
  | some sign => if 2 ≤ front.length then (front.dropLast, some (sign :: after)) else (chars, none)
  | none => (chars, none)

/-- A text without one trailing `Z`. -/
def stripZ (chars : List Char) : List Char := if chars.getLast? = some 'Z' then chars.dropLast else chars

theorem splitOnChar_ne_nil (sep : Char) (chars : List Char) : splitOnChar sep chars ≠ [] := by
  cases chars with
  | nil => simp [splitOnChar]
  | cons =>
    rw [splitOnChar]
    split
    · simp
    · split <;> simp

variable {sep : Char} {chars : List Char} {clock : List Char × Option (List Char)}

/-- Without the separator there is one part. -/
theorem splitOnChar_eq_singleton {part : List Char} (h : splitOnChar sep chars = [part]) :
    part = chars ∧ sep ∉ chars := by
  induction chars generalizing part with
  | nil =>
    obtain rfl : [] = part := by simpa [splitOnChar] using h
    simp
  | cons c rest ih =>
    rw [splitOnChar] at h
    split at h
    · exact absurd (cons.inj h).2 (splitOnChar_ne_nil sep rest)
    · next hc =>
      cases hsplit : splitOnChar sep rest with
      | nil => exact absurd hsplit (splitOnChar_ne_nil sep rest)
      | cons =>
        rw [hsplit] at h
        obtain ⟨rfl, rfl⟩ := cons.inj h
        obtain ⟨rfl, hrest⟩ := ih hsplit
        exact ⟨rfl, by simp [Ne.symm hc, hrest]⟩

theorem splitOnChar_of_not_mem (h : sep ∉ chars) : splitOnChar sep chars = [chars] := by
  induction chars with
  | nil => rfl
  | cons c rest ih =>
    obtain ⟨hne, hrest⟩ : sep ≠ c ∧ sep ∉ rest := by simpa using h
    rw [splitOnChar, if_neg (Ne.symm hne), ih hrest]

/-- The first separator ends the first part. -/
theorem splitOnce_of_splitOnChar {first second : List Char} {more : List (List Char)}
    (h : splitOnChar sep chars = first :: second :: more) :
    ∃ rest, splitOnce (· == sep) chars = (first, some rest) ∧ splitOnChar sep rest = second :: more := by
  induction chars generalizing first with
  | nil => simp [splitOnChar] at h
  | cons c rest ih =>
    rw [splitOnChar] at h
    split at h
    · next hc =>
      obtain ⟨rfl, hrest⟩ := cons.inj h
      exact ⟨rest, by simp [splitOnce, hc], hrest⟩
    · next hc =>
      cases hsplit : splitOnChar sep rest with
      | nil => exact absurd hsplit (splitOnChar_ne_nil sep rest)
      | cons =>
        rw [hsplit] at h
        obtain ⟨rfl, rfl⟩ := cons.inj h
        obtain ⟨tail, hsplit, htail⟩ := ih hsplit
        refine ⟨tail, ?_, htail⟩
        rw [splitOnce] at hsplit ⊢
        rw [dropWhile_cons_of_pos (by simpa using hc), takeWhile_cons_of_pos (by simpa using hc)]
        split at hsplit
        · cases (Prod.mk.inj hsplit).2
        · obtain ⟨hstart, hrest⟩ := Prod.mk.inj hsplit
          rw [hstart, hrest]

theorem splitOnce_of_not_mem (h : sep ∉ chars) : splitOnce (· == sep) chars = (chars, none) := by
  have hdrop : chars.dropWhile (fun c => !(c == sep)) = [] := by
    induction chars with
    | nil => rfl
    | cons c rest ih =>
      obtain ⟨hne, hrest⟩ : sep ≠ c ∧ sep ∉ rest := by simpa using h
      rw [dropWhile_cons_of_pos (by simpa using Ne.symm hne), ih hrest]
  rw [splitOnce, hdrop]

/-! ## Dates -/

/-- Days since the epoch of a date, with the truncating division of `i64`. -/
def daysFromCivil (y m d : ℤ) : ℤ :=
  let y := if m ≤ 2 then y - 1 else y
  let era := (if y ≥ 0 then y else y - 399).tdiv 400
  let yoe := y - era * 400
  let mp := if m > 2 then m - 3 else m + 9
  let doy := (153 * mp + 2).tdiv 5 + d - 1
  let doe := yoe * 365 + yoe.tdiv 4 - yoe.tdiv 100 + doy
  era * 146097 + doe - 719468

variable (env : TextEnv)

/-- The milliseconds of an hour, a minute and a second. -/
def clockMillis (h m s : List Char) : Option ℚ := do
  let h ← env.parseF64 (String.ofList h)
  let m ← env.parseF64 (String.ofList m)
  let s ← env.parseF64 (String.ofList s)
  return (h * 3600 + m * 60 + s) * 1000

/-- Epoch milliseconds of a date or timestamp, given how the time and the offset of it are read
(`pg_timestamp_to_epoch_millis`). -/
def epochMillis (time offset : List Char → Option ℚ) (text : String) : Option ℚ :=
  let t := env.trim text
  if t = "infinity" then some env.infinity
  else if t = "-infinity" then some env.negInfinity
  else
    let parts := splitOnce (fun c => c == ' ' || c == 'T') t.toList
    match splitOnChar '-' parts.1 with
    | [year, month, day] => do
      let year ← env.parseI64 (String.ofList year)
      let month ← env.parseI64 (String.ofList month)
      let day ← env.parseI64 (String.ofList day)
      let millis : ℚ := daysFromCivil year month day * 86400000
      match parts.2 with
      | none => return millis
      | some timePart =>
        let clock := splitTzOffset timePart
        let millis := millis + (← time (stripZ clock.1))
        match clock.2 with
        | none => return millis
        | some tz => return millis - (← offset tz)
    | _ => none

/-- The time of a timestamp and its offset, when it has a time. -/
def timestampClock (text : String) : Option (List Char × Option (List Char)) :=
  (splitOnce (fun c => c == ' ' || c == 'T') (env.trim text).toList).2.map splitTzOffset

variable {env} {time time' offset offset' : List Char → Option ℚ} {text : String}

theorem ne_infinity_of_timestampClock (h : clock ∈ timestampClock env text) :
    env.trim text ≠ "infinity" ∧ env.trim text ≠ "-infinity" := by
  constructor
  · intro ht
    simp [timestampClock, ht, splitOnce] at h
  · intro ht
    simp [timestampClock, ht, splitOnce] at h

/-- A timestamp is read alike where its time and its offset are. -/
theorem epochMillis_congr (h : ∀ clock ∈ timestampClock env text, time (stripZ clock.1) = time' (stripZ clock.1) ∧
    ∀ tz ∈ clock.2, offset tz = offset' tz) : epochMillis env time offset text = epochMillis env time' offset' text := by
  unfold epochMillis
  unfold timestampClock at h
  dsimp only
  cases hpart : (splitOnce (fun c => c == ' ' || c == 'T') (env.trim text).toList).2 with
  | none => rfl
  | some timePart =>
    obtain ⟨htime, hoffset⟩ := h (splitTzOffset timePart) (by rw [hpart]; rfl)
    simp only [htime]
    cases htz : (splitTzOffset timePart).2 with
    | none => rfl
    | some tz => simp only [hoffset tz htz]

/-- A timestamp is not read when its offset is not. -/
theorem epochMillis_none {tz : List Char} (hclock : clock ∈ timestampClock env text)
    (htz : tz ∈ clock.2) (hoffset : offset tz = none) : epochMillis env time offset text = none := by
  obtain ⟨hinfinity, hnegInfinity⟩ := ne_infinity_of_timestampClock hclock
  obtain ⟨timePart, hpart, rfl⟩ := Option.map_eq_some_iff.mp hclock
  unfold epochMillis
  dsimp only
  rw [if_neg hinfinity, if_neg hnegInfinity, hpart]
  simp only [show (splitTzOffset timePart).2 = some tz from htz, hoffset]
  split
  · cases env.parseI64 _ <;> cases env.parseI64 _ <;> cases env.parseI64 _ <;>
      cases time (stripZ (splitTzOffset timePart).1) <;> rfl
  · rfl

/-! ## Arrays -/

/-- Where the reader of an array literal stands. -/
inductive ArrayState where
  | start
  | bare (element : List Char)
  | quoted (element : List Char)
  | escaped (element : List Char)
  | closed (element : List Char)

/-- An element without quotes; the keyword is the null element. -/
def bareElement (element : List Char) : Option String :=
  if String.ofList element = "NULL" then none else some (String.ofList element)

/-- The elements of an array literal, without its braces. -/
def arrayElements : ArrayState → List Char → Option (List (Option String))
  | .start, [] => some []
  | .start, '"' :: rest => arrayElements (.quoted []) rest
  | .start, ',' :: rest => (arrayElements .start rest).map (bareElement [] :: ·)
  | .start, c :: rest => arrayElements (.bare [c]) rest
  | .bare element, [] => some [bareElement element]
  | .bare element, ',' :: rest => (arrayElements .start rest).map (bareElement element :: ·)
  | .bare element, c :: rest => arrayElements (.bare (element ++ [c])) rest
  | .quoted _, [] => none
  | .quoted element, '"' :: rest => arrayElements (.closed element) rest
  | .quoted element, '\\' :: rest => arrayElements (.escaped element) rest
  | .quoted element, c :: rest => arrayElements (.quoted (element ++ [c])) rest
  | .escaped _, [] => none
  | .escaped element, c :: rest => arrayElements (.quoted (element ++ [c])) rest
  | .closed element, [] => some [some (String.ofList element)]
  | .closed element, ',' :: rest => (arrayElements .start rest).map (some (String.ofList element) :: ·)
  | .closed _, _ :: _ => none

/-- The elements of a one-dimensional array literal (`parse_pg_array`). -/
def parsePgArray (text : String) : Option (List (Option String)) :=
  match text.toList with
  | '\x7b' :: rest => if rest.getLast? = some '\x7d' then arrayElements .start rest.dropLast else none
  | _ => none

example : parsePgArray "\x7b1,\"a,\\\"b\",NULL,\x7d" = some [some "1", some "a,\"b", none] := by decide

/-! ### Arrays as Postgres writes them -/

/-- The characters that Postgres writes in quotes. -/
def isSpecial (c : Char) : Bool := c ∈ ['"', '\\', '\x7b', '\x7d', ',', ' ', '\t', '\n', '\r', '\x0b', '\x0c']

/-- An element as Postgres writes it: in quotes, with quotes and backslashes escaped, if it is empty,
reads as the keyword or has a special character. -/
def elementOut : Option String → List Char
  | none => "NULL".toList
  | some s =>
    if s = "" ∨ s.toList.map Char.toLower = "null".toList ∨ s.toList.any isSpecial then
      '"' :: s.toList.flatMap (fun c => if c = '"' ∨ c = '\\' then ['\\', c] else [c]) ++ ['"']
    else s.toList

/-- An array of one dimension as Postgres writes it (`array_out`). -/
def arrayOut (elements : List (Option String)) : String :=
  String.ofList ('\x7b' :: [','].intercalate (elements.map elementOut) ++ ['\x7d'])

variable {element word rest : List Char}

theorem parsePgArray_braces (body : List Char) :
    parsePgArray (String.ofList ('\x7b' :: body ++ ['\x7d'])) = arrayElements .start body := by
  simp [parsePgArray]

theorem arrayElements_bare (h : ',' ∉ word) :
    arrayElements (.bare element) (word ++ rest) = arrayElements (.bare (element ++ word)) rest := by
  induction word generalizing element with
  | nil => simp
  | cons c word ih =>
    simp only [mem_cons, not_or] at h
    rw [cons_append, arrayElements, ih h.2, append_assoc, singleton_append]
    exact fun heq => h.1 heq.symm

theorem arrayElements_quoted : arrayElements (.quoted element)
    (word.flatMap (fun c => if c = '"' ∨ c = '\\' then ['\\', c] else [c]) ++ '"' :: rest) =
      arrayElements (.closed (element ++ word)) rest := by
  induction word generalizing element with
  | nil => simp [arrayElements]
  | cons c word ih =>
    have hstep : ∀ tail, arrayElements (.quoted element) ((if c = '"' ∨ c = '\\' then ['\\', c] else [c]) ++ tail) =
        arrayElements (.quoted (element ++ [c])) tail := by
      split
      · simp [arrayElements]
      · simp_all [arrayElements]
    rw [flatMap_cons, append_assoc, hstep, ih, append_assoc, singleton_append]

/-- After an element as Postgres writes it, the reader is at the end of that element. -/
theorem arrayElements_elementOut (e : Option String) : ∃ state,
    (∀ rest, arrayElements .start (elementOut e ++ rest) = arrayElements state rest) ∧
      arrayElements state [] = some [e] ∧
      ∀ rest, arrayElements state (',' :: rest) = (arrayElements .start rest).map (e :: ·) := by
  cases e with
  | none => exact ⟨.bare "NULL".toList, fun _ => rfl, rfl, fun _ => rfl⟩
  | some s =>
    rw [elementOut]
    split
    · refine ⟨.closed s.toList, fun rest => ?_, ?_, fun rest => ?_⟩
      · rw [append_assoc]
        exact arrayElements_quoted
      · simp [arrayElements]
      · simp [arrayElements]
    · next hplain =>
      simp only [not_or] at hplain
      have hbare : bareElement s.toList = some s := by
        rw [bareElement, String.ofList_toList, if_neg]
        rintro rfl
        exact hplain.2.1 (by decide)
      refine ⟨.bare s.toList, fun rest => ?_, by rw [arrayElements, hbare], fun rest => by rw [arrayElements, hbare]⟩
      cases hs : s.toList with
      | nil => exact absurd (String.toList_eq_nil_iff.mp hs) hplain.1
      | cons c word =>
        have hnone : ∀ d ∈ c :: word, isSpecial d = false := by simpa [hs] using hplain.2.2
        have hcomma : ∀ d ∈ c :: word, d ≠ ',' ∧ d ≠ '"' := by
          intro d hd
          constructor
          · rintro rfl
            exact absurd (hnone _ hd) (by decide)
          · rintro rfl
            exact absurd (hnone _ hd) (by decide)
        rw [cons_append, arrayElements, arrayElements_bare (fun hmem => (hcomma _ (mem_cons_of_mem c hmem)).1 rfl)]
        · rfl
        · exact (hcomma c mem_cons_self).2
        · exact (hcomma c mem_cons_self).1

/-- Without quotes every text is read. -/
theorem arrayElements_isSome {body : List Char} (h : '"' ∉ body) :
    (arrayElements .start body).isSome ∧ ∀ element, (arrayElements (.bare element) body).isSome := by
  induction body with
  | nil => exact ⟨rfl, fun _ => rfl⟩
  | cons c rest ih =>
    simp only [mem_cons, not_or] at h
    obtain ⟨hstart, hbare⟩ := ih h.2
    by_cases hcomma : c = ','
    · subst hcomma
      simp [arrayElements, hstart]
    · rw [arrayElements]
      · refine ⟨hbare _, fun element => ?_⟩
        rw [arrayElements]
        · exact hbare _
        · exact hcomma
      · exact fun heq => h.1 heq.symm
      · exact hcomma

end ZeroCache
