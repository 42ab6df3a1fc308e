import ZeroCache.Lib.Radix
import Mathlib.Data.String.Basic

/-!
# Versions as texts

Versions are stored and compared as texts (`lexi_version.rs`, `state_version.rs`). A number is
written in base 36 after one digit that tells its length; a state version is one such number, or two
of them with a dot between. Decoding reads numbers as the big-integer library does, with its signs
and underscores.
-/

namespace ZeroCache

open List Except

/-! ## Base 36 -/

/-- A digit of base 36. -/
def digitChar (d : ℕ) : Char := if d < 10 then Char.ofNat (48 + d) else Char.ofNat (87 + d)

/-- The value of a digit of base 36 in either case (`char::to_digit`). -/
def toDigit (c : Char) : Option ℕ :=
  if '0' ≤ c ∧ c ≤ '9' then some (c.toNat - 48)
  else if 'a' ≤ c ∧ c ≤ 'z' then some (c.toNat - 87)
  else if 'A' ≤ c ∧ c ≤ 'Z' then some (c.toNat - 55)
  else none

/-- The values of digits, underscores left out. -/
def parseDigits : List Char → Option (List ℕ)
  | [] => some []
  | c :: rest =>
    if c = '_' then parseDigits rest
    else do
      let d ← toDigit c
      let ds ← parseDigits rest
      return d :: ds

/-- Read a number without its minus sign (`BigUint::from_str_radix`). -/
def parseUnsigned (text : List Char) : Option ℕ :=
  let digits := match text with
    | '+' :: tail => if tail.head? = some '+' then text else tail
    | _ => text
  if digits = [] then none
  else if digits.head? = some '_' then none
  else (parseDigits digits).map (radixValue 36)

/-- Read a number (`BigInt::parse_bytes`). -/
def parseBytes (text : List Char) : Option ℤ :=
  match text with
  | '-' :: tail => (parseUnsigned (if tail.head? = some '+' then text else tail)).map fun n => -(n : ℤ)
  | _ => (parseUnsigned text).map fun n => (n : ℤ)

theorem digitChar_spec : ∀ d < 36, toDigit (digitChar d) = some d ∧ (digitChar d).utf8Size = 1 ∧
    digitChar d ≠ '_' ∧ digitChar d ≠ '+' ∧ digitChar d ≠ '-' ∧ digitChar d ≠ '.' ∧ digitChar d ≠ ':' := by
  decide

theorem strictMonoOn_digitChar : StrictMonoOn digitChar (Set.Iio 36) := by
  have hall : ∀ d < 36, ∀ e < 36, d < e → digitChar d < digitChar e := by decide
  exact fun d hd e he hlt => hall d hd e he hlt

variable {digits : List ℕ}

theorem parseDigits_map_digitChar (h : ∀ d ∈ digits, d < 36) : parseDigits (digits.map digitChar) = some digits := by
  induction digits with
  | nil => rfl
  | cons d digits ih =>
    obtain ⟨hdigit, -, hunderscore, -⟩ := digitChar_spec d (h d (by simp))
    simp [parseDigits, hunderscore, hdigit, ih fun e he => h e (by simp [he])]

/-- A number is read back from its notation. -/
theorem parseBytes_radix (n : ℕ) : parseBytes ((radix 36 n).map digitChar) = some (n : ℤ) := by
  have hdigits := fun d hd => lt_of_mem_radix (b := 36) (by omega) (n := n) (d := d) hd
  have hparse := parseDigits_map_digitChar hdigits
  have hvalue := radixValue_radix 36 n
  cases hradix : radix 36 n with
  | nil => simpa [hradix] using length_radix_pos 36 n
  | cons d digits =>
    rw [hradix] at hdigits hparse hvalue
    obtain ⟨-, -, hunderscore, hplus, hminus, -⟩ := digitChar_spec d (hdigits d (by simp))
    rw [map_cons] at hparse ⊢
    have hunsigned : parseUnsigned (digitChar d :: digits.map digitChar) = some n := by
      unfold parseUnsigned
      split
      · next heq => exact absurd (cons.inj heq).1 hplus
      · simp [hunderscore, hparse, hvalue]
    unfold parseBytes
    split
    · next heq => exact absurd (cons.inj heq).1 hminus
    · simp [hunsigned]

/-! ## Numbers -/

/-- The largest number up to which floats hold every whole number (`MAX_SAFE_INTEGER`). -/
def maxSafeInteger : ℤ := 9007199254740991

/-- What is wrong with a version; `panic` stands for an unwinding thread. -/
inductive LexiError where
  | negative
  | unsafeNumber (number : String)
  | tooLarge (number : String)
  | tooShort (length : ℕ)
  | invalid (text : String)
  | panic
  deriving DecidableEq, Repr

/-- The text of an error. -/
def LexiError.message : LexiError → String
  | .negative => "Negative versions are not supported"
  | .unsafeNumber number => "Invalid or unsafe version " ++ number
  | .tooLarge number => "Value is too large to be encoded as a LexiVersion: " ++ number
  | .tooShort length => "LexiVersion must have at least 2 characters, got " ++ toString length
  | .invalid text => "Invalid LexiVersion: " ++ text
  | .panic => ""

/-- A number to encode: a float, here one that holds a whole number, or a big integer. -/
inductive Version where
  | num (n : ℤ)
  | big (n : ℤ)

/-- The float nearest to a 64-bit integer, ties to the even one. -/
def i64AsF64 (v : ℤ) : ℤ :=
  let unit := 2 ^ (v.natAbs.log2 - 52)
  let quotient := v.natAbs / unit
  let remainder := v.natAbs % unit
  let roundsUp : Bool := unit < 2 * remainder || (2 * remainder = unit && quotient % 2 = 1)
  v.sign * ((if roundsUp then quotient + 1 else quotient) * unit : ℕ)

/-- A 64-bit integer as a number to encode. -/
def Version.ofI64 (v : ℤ) : Version := .num (i64AsF64 v)

/-- A natural number after the digit of its length. -/
def encodeLexi (n : ℕ) : Except LexiError String :=
  let base36 := (radix 36 n).map digitChar
  let length := (radix 36 (base36.length - 1)).map digitChar
  if length.length ≠ 1 then .error (.tooLarge (toString n))
  else .ok (String.ofList (length ++ base36))

/-- Encode a number (`version_to_lexi`). -/
def versionToLexi : Version → Except LexiError String
  | .num n =>
    if n < 0 then .error .negative
    else if ¬ n ≤ maxSafeInteger then .error (.unsafeNumber (toString n))
    else encodeLexi n.toNat
  | .big n => if n < 0 then .error .negative else encodeLexi n.toNat

/-- The number of bytes of a text. -/
def byteLength (text : List Char) : ℕ := (text.map Char.utf8Size).sum

/-- Decode a number (`version_from_lexi`); cutting a first character of several bytes panics. -/
def versionFromLexi (text : List Char) : Except LexiError ℤ :=
  if byteLength text < 2 then .error (.tooShort (byteLength text))
  else match text with
    | [] => .error (.tooShort 0)
    | length :: base36 =>
      if length.utf8Size ≠ 1 then .error .panic
      else match toDigit length with
        | none => .error (.invalid (String.ofList text))
        | some expected =>
          if byteLength base36 ≠ expected + 1 then .error (.invalid (String.ofList text))
          else match parseBytes base36 with
            | none => .error (.invalid (String.ofList text))
            | some n => .ok n

/-- The text of a number: its notation after the digit of its length. -/
abbrev lexiText (n : ℕ) : List Char := prefixed digitChar 36 n

variable {v : ℤ}

theorem i64AsF64_of_le (hnonneg : 0 ≤ v) (hle : v ≤ maxSafeInteger) : i64AsF64 v = v := by
  have hsmall : v.natAbs < 2 ^ 53 := by
    unfold maxSafeInteger at hle
    omega
  have hlog : v.natAbs.log2 - 52 = 0 := by
    by_cases hzero : v.natAbs = 0
    · simp [hzero]
    · have := (Nat.log2_lt hzero).mpr hsmall
      omega
  simp [i64AsF64, hlog, Nat.mod_one, Int.sign_mul_abs]

theorem radix_of_lt {d : ℕ} (hd : d < 36) : radix 36 d = [d] := by
  unfold radix
  split
  · next hzero => rw [hzero]
  · next hzero => simp [Nat.digits_of_lt 36 d hzero hd]

variable {n : ℕ}

theorem encodeLexi_eq (hn : n < 36 ^ 36) : encodeLexi n = .ok (String.ofList (lexiText n)) := by
  have hlength := (length_radix_le (b := 36) (by omega) (k := 36) (by omega)).mpr hn
  have hdigit : radix 36 ((radix 36 n).length - 1) = [(radix 36 n).length - 1] := radix_of_lt (by omega)
  simp [encodeLexi, hdigit, prefixed]

variable {text : String}

/-- A number that is encoded has at most 36 digits. -/
theorem encodeLexi_ok (h : encodeLexi n = .ok text) : n < 36 ^ 36 ∧ text = String.ofList (lexiText n) := by
  have hn : n < 36 ^ 36 := by
    by_contra hlarge
    have hlength : 36 < (radix 36 n).length := by
      have := mt (length_radix_le (b := 36) (n := n) (by omega) (k := 36) (by omega)).mp hlarge
      omega
    have htwo : 1 < (radix 36 ((radix 36 n).length - 1)).length := by
      have := mt (length_radix_le (b := 36) (n := (radix 36 n).length - 1) (by omega) (k := 1)
        (by omega)).mp (by omega)
      omega
    simp only [encodeLexi, length_map, ite_not] at h
    rw [if_neg (by omega)] at h
    cases h
  rw [encodeLexi_eq hn] at h
  exact ⟨hn, (ok.inj h).symm⟩

theorem versionToLexi_ofI64 (hnonneg : 0 ≤ v) (hle : v ≤ maxSafeInteger) :
    versionToLexi (.ofI64 v) = .ok (String.ofList (lexiText v.toNat)) := by
  have hn : v.toNat < 36 ^ 36 := by
    unfold maxSafeInteger at hle
    omega
  simp [versionToLexi, Version.ofI64, i64AsF64_of_le hnonneg hle, hle, not_lt.mpr hnonneg, encodeLexi_eq hn]

theorem versionToLexi_big_ok (h : versionToLexi (.big v) = .ok text) :
    ∃ n : ℕ, v = n ∧ n < 36 ^ 36 ∧ text = String.ofList (lexiText n) := by
  simp only [versionToLexi] at h
  split at h
  · cases h
  · obtain ⟨hn, htext⟩ := encodeLexi_ok h
    exact ⟨v.toNat, by omega, hn, htext⟩

/-- The characters of an encoded number are digits. -/
theorem mem_lexiText (hn : n < 36 ^ 36) {c : Char} (hc : c ∈ lexiText n) : ∃ d < 36, c = digitChar d := by
  have hlength := (length_radix_le (b := 36) (by omega) (k := 36) (by omega)).mpr hn
  simp only [prefixed, mem_cons, mem_map] at hc
  rcases hc with rfl | ⟨d, hd, rfl⟩
  · exact ⟨_, by omega, rfl⟩
  · exact ⟨d, lt_of_mem_radix (by omega) hd, rfl⟩

theorem byteLength_map_digitChar (h : ∀ d ∈ digits, d < 36) : byteLength (digits.map digitChar) = digits.length := by
  induction digits with
  | nil => rfl
  | cons d digits ih =>
    have hsize := (digitChar_spec d (h d (by simp))).2.1
    have hrest := ih fun e he => h e (by simp [he])
    simp only [byteLength, map_cons, sum_cons, length_cons] at hrest ⊢
    omega

/-- A number is decoded from what it was encoded as. -/
theorem versionFromLexi_lexiText (hn : n < 36 ^ 36) : versionFromLexi (lexiText n) = .ok (n : ℤ) := by
  have hlength := (length_radix_le (b := 36) (by omega) (k := 36) (by omega)).mpr hn
  have hpos := length_radix_pos 36 n
  have hbytes := byteLength_map_digitChar fun d hd => lt_of_mem_radix (b := 36) (by omega) (n := n)
    (d := d) hd
  obtain ⟨hdigit, hsize, -⟩ := digitChar_spec ((radix 36 n).length - 1) (by omega)
  have hall : byteLength (lexiText n) = 1 + (radix 36 n).length := by
    rw [← hbytes]
    simp [byteLength, prefixed, hsize]
  unfold versionFromLexi
  rw [if_neg (by omega)]
  simp only [prefixed, hsize, hdigit, parseBytes_radix]
  rw [if_neg (by simp), if_neg (by omega)]

/-! ## Texts that are decoded -/

/-- The digits of the encoding, without a zero in front of others. -/
def Canonical (text : List Char) : Prop :=
  (∀ c ∈ text, ∃ d < 36, c = digitChar d) ∧ (text[1]? = some '0' → text.length = 2)

theorem versionFromLexi_cons (first : Char) (base36 : List Char) (hsize : first.utf8Size = 1) :
    (versionFromLexi (first :: base36) = .error .panic ↔ False) ∧ ∀ v, versionFromLexi (first :: base36) = .ok v ↔
        ∃ d, toDigit first = some d ∧ byteLength base36 = d + 1 ∧ parseBytes base36 = some v := by
  have hbytes : byteLength (first :: base36) = 1 + byteLength base36 := by simp [byteLength, hsize]
  unfold versionFromLexi
  split
  · next hshort =>
    have hzero : byteLength base36 = 0 := by omega
    simp [hzero]
  · grind

/-- Decoding panics if the first character takes several bytes. -/
theorem versionFromLexi_panic_iff (text : List Char) :
    versionFromLexi text = .error .panic ↔ ∃ c ∈ text.head?, c.utf8Size ≠ 1 := by
  cases text with
  | nil => simp [versionFromLexi, byteLength]
  | cons first base36 =>
    by_cases hsize : first.utf8Size = 1
    · simp [(versionFromLexi_cons first base36 hsize).1, hsize]
    · have hpos := first.utf8Size_pos
      have hbytes : ¬ byteLength (first :: base36) < 2 := by
        simp only [byteLength, map_cons, sum_cons]
        omega
      simp [versionFromLexi, hbytes, hsize]

theorem canonical_lexiText (hn : n < 36 ^ 36) : Canonical (lexiText n) := by
  refine ⟨fun c hc => mem_lexiText hn hc, fun hzero => ?_⟩
  cases hradix : radix 36 n with
  | nil => simpa [hradix] using length_radix_pos 36 n
  | cons d =>
    have hd : d < 36 := lt_of_mem_radix (by omega) (hradix ▸ mem_cons_self)
    simp only [prefixed, hradix, map_cons, getElem?_cons_succ, getElem?_cons_zero, Option.some.injEq] at hzero
    obtain rfl : d = 0 := strictMonoOn_digitChar.injOn hd (by simp) hzero
    simp [prefixed, hradix, eq_nil_of_radix_cons (by omega) hradix]

theorem exists_digits {word : List Char} (h : ∀ c ∈ word, ∃ d < 36, c = digitChar d) :
    ∃ digits : List ℕ, (∀ d ∈ digits, d < 36) ∧ word = digits.map digitChar := by
  induction word with
  | nil => exact ⟨[], by simp, rfl⟩
  | cons c word ih =>
    obtain ⟨d, hd, rfl⟩ := h c mem_cons_self
    obtain ⟨digits, hdigits, rfl⟩ := ih (fun c hc => h c (mem_cons_of_mem _ hc))
    exact ⟨d :: digits, by simpa [hd] using hdigits, rfl⟩

/-- A canonical text that is decoded is the text of a number. -/
theorem eq_lexiText_of_canonical {word : List Char} (h : Canonical word) (hok : versionFromLexi word = .ok v) :
    ∃ n < 36 ^ 36, word = lexiText n := by
  obtain ⟨hchars, hzero⟩ := h
  cases word with
  | nil => cases hok
  | cons first =>
    obtain ⟨e, he, rfl⟩ := hchars first mem_cons_self
    obtain ⟨hdigit, hsize, -⟩ := digitChar_spec e he
    obtain ⟨digits, hdigits, rfl⟩ := exists_digits (fun c hc => hchars c (mem_cons_of_mem _ hc))
    obtain ⟨d, hd, hlength, -⟩ := ((versionFromLexi_cons _ _ hsize).2 v).mp hok
    obtain rfl : e = d := Option.some.inj (hdigit.symm.trans hd)
    rw [byteLength_map_digitChar hdigits] at hlength
    have hradix : radix 36 (radixValue 36 digits) = digits := by
      refine radix_radixValue (by omega) hdigits (by rintro rfl; simp at hlength) (fun hhead => ?_)
      cases digits with
      | nil => cases hhead
      | cons d rest =>
        obtain rfl : d = 0 := Option.some.inj hhead
        have hrest : rest = [] := by simpa using hzero rfl
        rw [hrest]
    refine ⟨radixValue 36 digits, ?_, ?_⟩
    · rw [← length_radix_le (b := 36) (by omega) (by omega), hradix]
      omega
    · simp only [prefixed, hradix, hlength, Nat.add_sub_cancel]

/-- A state version: the position of the replication stream, and a counter of auxiliary changes. -/
structure StateVersion where
  major : ℤ
  minor : Option ℤ
  deriving DecidableEq, Repr

/-- Read a state version (`state_version_from_string`). -/
def stateVersionFromString (text : List Char) : Except LexiError StateVersion :=
  if '.' ∉ text then do
    let major ← versionFromLexi text
    return ⟨major, none⟩
  else match text.splitOn '.' with
    | [major, minor] => do
      let major ← versionFromLexi major
      let minor ← versionFromLexi minor
      return ⟨major, some minor⟩
    | _ => .error (.invalid ("Invalid stateVersion " ++ String.ofList text))

/-- Write a state version (`state_version_to_string`). -/
def stateVersionToString (version : StateVersion) : Except LexiError String :=
  match version.minor with
  | none => versionToLexi (.big version.major)
  | some minor => do
    let majorText ← versionToLexi (.big version.major)
    let minorText ← versionToLexi (.big minor)
    return majorText ++ "." ++ minorText

/-- The text of a state version. -/
def stateText (major : ℕ) (minor : Option ℕ) : List Char :=
  lexiText major ++ minor.elim [] fun m => '.' :: lexiText m

/-- The state versions that have a text, and their texts. -/
theorem stateVersionToString_ok {version : StateVersion} (h : stateVersionToString version = .ok text) :
    ∃ (major : ℕ) (minor : Option ℕ), version = ⟨major, minor.map Int.ofNat⟩ ∧
      major < 36 ^ 36 ∧ (∀ m ∈ minor, m < 36 ^ 36) ∧ text = String.ofList (stateText major minor) := by
  obtain ⟨major, minor⟩ := version
  cases minor with
  | none =>
    obtain ⟨n, rfl, hn, htext⟩ := versionToLexi_big_ok h
    exact ⟨n, none, rfl, hn, by simp, by simpa [stateText] using htext⟩
  | some =>
    simp only [stateVersionToString, bind, Except.bind] at h
    split at h
    · cases h
    · next majorText hmajor =>
      split at h
      · cases h
      · next minorText hminor =>
        obtain ⟨n, rfl, hn, rfl⟩ := versionToLexi_big_ok hmajor
        obtain ⟨m, rfl, hm, rfl⟩ := versionToLexi_big_ok hminor
        refine ⟨n, some m, rfl, hn, by simpa using hm, ?_⟩
        rw [← ok.inj h, String.ext_iff]
        simp [stateText]

section Texts

variable {major : ℕ} {minor : Option ℕ} (hmajor : major < 36 ^ 36) (hminor : ∀ m ∈ minor, m < 36 ^ 36)
include hmajor

theorem notMem_lexiText {c : Char} (hc : ∀ d < 36, digitChar d ≠ c) : c ∉ lexiText major := by
  intro hmem
  obtain ⟨d, hd, rfl⟩ := mem_lexiText hmajor hmem
  exact hc d hd rfl

include hminor

/-- No colon stands in a state version. -/
theorem notMem_stateText : ':' ∉ stateText major minor := by
  have hcolon : ∀ d < 36, digitChar d ≠ ':' := fun d hd => (digitChar_spec d hd).2.2.2.2.2.2
  cases minor with
  | none => simpa [stateText] using notMem_lexiText hmajor hcolon
  | some m =>
    have hmajor' := notMem_lexiText hmajor hcolon
    have hminor' := notMem_lexiText (hminor m rfl) hcolon
    simp only [stateText, Option.elim, mem_append, mem_cons, not_or]
    exact ⟨hmajor', by decide, hminor'⟩

/-- A state version is read from its text. -/
theorem stateVersionFromString_stateText : stateVersionFromString (stateText major minor) =
    .ok ⟨major, minor.map Int.ofNat⟩ := by
  have hdot : ∀ d < 36, digitChar d ≠ '.' := fun d hd => (digitChar_spec d hd).2.2.2.2.2.1
  cases minor with
  | none =>
    have hnot := notMem_lexiText hmajor hdot
    simp [stateText, stateVersionFromString, hnot, versionFromLexi_lexiText hmajor, bind, Except.bind,
      pure, Except.pure]
  | some m =>
    have hparts : (lexiText major ++ '.' :: lexiText m).splitOn '.' = [lexiText major, lexiText m] := by
      have hnot : ∀ part ∈ [lexiText major, lexiText m], '.' ∉ part := by
        simpa using ⟨notMem_lexiText hmajor hdot, notMem_lexiText (hminor m rfl) hdot⟩
      simpa [intercalate] using splitOn_intercalate '.' hnot (by simp)
    simp [stateText, stateVersionFromString, hparts, versionFromLexi_lexiText hmajor,
      versionFromLexi_lexiText (hminor m rfl), bind, Except.bind, pure, Except.pure]

end Texts

/-- A state version that has a text is read back from it. -/
theorem stateVersionFromString_toString (version : StateVersion) :
    (stateVersionToString version >>= fun text => stateVersionFromString text.toList) =
      (stateVersionToString version).map fun _ => version := by
  cases h : stateVersionToString version with
  | error e => rfl
  | ok text =>
    obtain ⟨major, minor, rfl, hmajor, hminor, rfl⟩ := stateVersionToString_ok h
    exact (congrArg _ String.toList_ofList).trans (stateVersionFromString_stateText hmajor hminor)

end ZeroCache
