import ZeroCache.Data.LexiVersion
import ZeroCache.ViewSyncer.Cvr

/-!
# Cookies and pokes

A version of a client view record is sent to clients as a cookie: its state version, then a colon
and the counter if there is one above zero (`cvr_version.rs`). A poke carries a batch of patches and
ends with the cookie of the version that the batch leads to, the one of its patches with the largest
cookie (`poke_builder.rs`).

Cookies compare as texts, versions by their state version and then their counter. The two agree as
long as no two versions share a major version where one has a counter and no minor version and the
other a minor version: the colon sorts after the dot.
-/

namespace ZeroCache.ViewSyncer

open List Option Except CvrVersion

/-! ## Cookies -/

/-- Compare versions, the absent one below all others (`cmp_versions`). -/
def cmpVersions : Option CvrVersion → Option CvrVersion → ℤ
  | none, none => 0
  | none, some _ => -1
  | some _, none => 1
  | some a, some b =>
    if a.stateVersion < b.stateVersion then -1
    else if b.stateVersion < a.stateVersion then 1
    else a.counter - b.counter

/-- Why a cookie cannot be written or read; `panic` stands for an unwinding thread. -/
inductive VersionError where
  | invalidCookie (text : String)
  | configVersionOverflow (text : String)
  | panic
  deriving DecidableEq, Repr

/-- Write a version as a cookie (`version_to_cookie`). -/
def versionToCookie (v : CvrVersion) : Except VersionError String :=
  match v.configVersion with
  | none | some 0 => .ok v.stateVersion
  | some cv =>
    match versionToLexi (.ofI64 cv) with
    | .error e => .error (.invalidCookie e.message)
    | .ok lexi => .ok (v.stateVersion ++ ":" ++ lexi)

/-- Write a version that may be absent (`version_to_nullable_cookie`). -/
def versionToNullableCookie : Option CvrVersion → Except VersionError (Option String)
  | none => .ok none
  | some v => (versionToCookie v).map some

/-- Read a cookie (`version_from_string`); a counter below the 64-bit integers panics. -/
def versionFromString (cookie : String) : Except VersionError CvrVersion :=
  match cookie.toList.splitOn ':' with
  | [state] =>
    match stateVersionFromString state with
    | .error .panic => .error .panic
    | .error _ => .error (.invalidCookie cookie)
    | .ok _ => .ok ⟨String.ofList state, none⟩
  | [state, config] =>
    match versionFromLexi config with
    | .error .panic => .error .panic
    | .error _ => .error (.invalidCookie cookie)
    | .ok cv =>
      if maxSafeInteger < cv then .error (.configVersionOverflow (String.ofList config))
      else if cv < -2 ^ 63 then .error .panic
      else .ok ⟨String.ofList state, some cv⟩
  | _ => .error (.invalidCookie cookie)

/-! ## Pokes -/

/-- A query put or deleted, as sent to a client; no time to live is ever sent. -/
inductive QueriesPatchOp where
  | put (hash : String)
  | del (hash : String)

/-- A row put or deleted, as sent to a client. -/
inductive RowPatchOp where
  | put (tableName : String) (value : Row)
  | del (tableName : String) (id : Fields JsonValue)

/-- The patches of a poke by their kind. -/
structure PokePatches where
  queries : Fields (List QueriesPatchOp)
  got : List QueriesPatchOp
  rows : List RowPatchOp

/-- File a patch (`accumulate_patch`); the version column of a row stays on the server. -/
def PokePatches.accumulatePatch (acc : PokePatches) : Patch → PokePatches
  | .config patch =>
    let op := match patch.op with
      | .put => QueriesPatchOp.put patch.id
      | .del => QueriesPatchOp.del patch.id
    match patch.clientId with
    | some client =>
      { acc with queries := acc.queries.set client ((acc.queries.get? client).getD [] ++ [op]) }
    | none => { acc with got := acc.got ++ [op] }
  | .putRow id contents =>
    let value := contents.filter fun entry => entry.1 ≠ "_0_version"
    { acc with rows := acc.rows ++ [.put id.table value] }
  | .deleteRow id => { acc with rows := acc.rows ++ [.del id.table id.rowKey] }

/-- The first message of a poke. -/
structure PokeStart where
  pokeId : String
  baseCookie : Option String
  timestamp : Option ℚ

/-- The message with the patches of a poke; an absent list is not sent. -/
structure PokePart where
  pokeId : String
  desiredQueriesPatches : Option (Fields (List QueriesPatchOp))
  gotQueriesPatch : Option (List QueriesPatchOp)
  rowsPatch : Option (List RowPatchOp)

/-- The last message of a poke. -/
structure PokeEnd where
  pokeId : String
  cookie : String

/-- The messages of a poke. -/
structure PokeMessages where
  start : PokeStart
  part : PokePart
  finish : PokeEnd

/-- The messages of a poke that leads to a version (`build_poke_impl`). -/
def buildPokeImpl (pokeId : String) (baseVersion : Option CvrVersion) (targetVersion : CvrVersion)
    (patches : List PatchToVersion) (timestamp : Option ℚ) (force : Bool) :
    Except VersionError (Option PokeMessages) :=
  if patches.isEmpty && !force then .ok none
  else do
    let filed := (patches.map PatchToVersion.patch).foldl PokePatches.accumulatePatch ⟨[], [], []⟩
    let baseCookie ← versionToNullableCookie baseVersion
    let finalCookie ← versionToCookie targetVersion
    let part : PokePart :=
      { pokeId
        desiredQueriesPatches := if filed.queries.isEmpty then none else some filed.queries
        gotQueriesPatch := if filed.got.isEmpty then none else some filed.got
        rowsPatch := if filed.rows.isEmpty then none else some filed.rows }
    return some ⟨⟨pokeId, baseCookie, timestamp⟩, part, ⟨pokeId, finalCookie⟩⟩

/-- The last of the elements with the largest key (`Iterator::max_by_key`). -/
def maxByKey {α κ : Type} [LT κ] [DecidableLT κ] (key : α → κ) : List α → Option α
  | [] => none
  | x :: xs => some (xs.foldl (fun best y => if key y < key best then best else y) x)

/-- The cookie that a version is ranked by; one without a cookie ranks last. -/
def cookieOrEmpty (v : CvrVersion) : String :=
  match versionToCookie v with
  | .ok cookie => cookie
  | .error _ => ""

/-- The poke of a batch of patches (`build_poke`). -/
def buildPoke (pokeId : String) (baseVersion : Option CvrVersion) (patches : List PatchToVersion)
    (timestamp : Option ℚ) : Except VersionError (Option PokeMessages) :=
  match maxByKey cookieOrEmpty (patches.map PatchToVersion.toVersion) with
  | none => .ok none
  | some finalVersion => buildPokeImpl pokeId baseVersion finalVersion patches timestamp false

/-! ## Valid versions -/

/-- The state version is the text of one, and the counter is a number that a cookie can hold. -/
structure CvrVersion.Valid (v : CvrVersion) : Prop where
  state : ∃ version, stateVersionToString version = .ok v.stateVersion
  config : ∀ cv ∈ v.configVersion, 0 ≤ cv ∧ cv ≤ maxSafeInteger

/-- A version that counts changes at a major version, beside one with a minor version of it. -/
def CvrVersion.Overtakes (a b : CvrVersion) : Prop :=
  0 < a.counter ∧ ∃ major minor, stateVersionToString ⟨major, none⟩ = .ok a.stateVersion ∧
    stateVersionToString ⟨major, some minor⟩ = .ok b.stateVersion

/-- What follows the state version in a cookie. -/
def counterText (counter : ℤ) : List Char :=
  if counter = 0 then [] else ':' :: lexiText counter.toNat

theorem cmpVersions_some (a b : CvrVersion) : cmpVersions (some a) (some b) =
    if a.stateVersion < b.stateVersion then -1 else if b.stateVersion < a.stateVersion then 1
    else a.counter - b.counter := rfl

variable {a b v : CvrVersion}

theorem cmpVersions_neg_iff : cmpVersions (some a) (some b) < 0 ↔ a.lt b = true := by
  rw [lt_iff, cmpVersions_some]
  rcases lt_trichotomy a.stateVersion b.stateVersion with hlt | heq | hgt
  · rw [if_pos hlt]
    exact ⟨fun _ => .inl hlt, fun _ => by omega⟩
  · rw [heq, if_neg (lt_irrefl _), if_neg (lt_irrefl _)]
    constructor
    · intro h
      exact .inr ⟨rfl, by omega⟩
    · rintro (h | ⟨-, h⟩)
      · exact absurd h (lt_irrefl _)
      · omega
  · rw [if_neg (lt_asymm hgt), if_pos hgt]
    constructor
    · omega
    · rintro (h | ⟨h, -⟩)
      · exact absurd h (lt_asymm hgt)
      · exact absurd h hgt.ne'

theorem cmpVersions_eq_zero_iff : cmpVersions (some a) (some b) = 0 ↔ a.same b = true := by
  rw [same_iff, cmpVersions_some]
  rcases lt_trichotomy a.stateVersion b.stateVersion with hlt | heq | hgt
  · rw [if_pos hlt]
    exact ⟨fun h => by omega, fun h => absurd h.1 hlt.ne⟩
  · rw [heq, if_neg (lt_irrefl _), if_neg (lt_irrefl _)]
    exact ⟨fun h => ⟨rfl, by omega⟩, fun h => by omega⟩
  · rw [if_pos hgt]
    exact ⟨fun h => by omega, fun h => absurd h.1 hgt.ne'⟩

/-! ## The parts of a cookie -/

/-- A valid version taken apart: its numbers, the text of its state and its cookie. -/
structure CvrVersion.Parts (v : CvrVersion) (major : ℕ) (minor : Option ℕ) : Prop where
  major_lt : major < 36 ^ 36
  minor_lt : ∀ m ∈ minor, m < 36 ^ 36
  stateVersion : v.stateVersion = String.ofList (stateText major minor)
  counter_nonneg : 0 ≤ v.counter
  counter_le : v.counter ≤ maxSafeInteger

theorem CvrVersion.Valid.parts (hv : v.Valid) : ∃ major minor, v.Parts major minor := by
  obtain ⟨version, hstate⟩ := hv.state
  obtain ⟨major, minor, -, hmajor, hminor, htext⟩ := stateVersionToString_ok hstate
  have hcounter : 0 ≤ v.counter ∧ v.counter ≤ maxSafeInteger := by
    unfold counter
    cases hconfig : v.configVersion with
    | none => simp [maxSafeInteger]
    | some cv => simpa using hv.config cv hconfig
  exact ⟨major, minor, hmajor, hminor, htext, hcounter.1, hcounter.2⟩

namespace CvrVersion.Parts

variable {a b : CvrVersion} {major major' : ℕ} {minor minor' : Option ℕ}

section

variable (ha : a.Parts major minor)

include ha

theorem counter_lt : a.counter.toNat < 36 ^ 36 := by
  have hle := ha.counter_le
  unfold maxSafeInteger at hle
  omega

open String

/-- The cookie of a valid version. -/
theorem versionToCookie_eq :
    versionToCookie a = .ok (ofList (stateText major minor ++ counterText a.counter)) := by
  unfold versionToCookie
  split
  · next hconfig => simp [counter, hconfig, counterText, ha.stateVersion]
  · next hconfig => simp [counter, hconfig, counterText, ha.stateVersion]
  · next cv hzero hconfig =>
    have hcounter : a.counter = cv := by simp [counter, hconfig]
    have hne : cv ≠ 0 := hzero
    have hlexi := versionToLexi_ofI64 (hcounter ▸ ha.counter_nonneg) (hcounter ▸ ha.counter_le)
    simp only [hlexi, hcounter, counterText, hne]
    rw [ok.injEq, String.ext_iff]
    simp [ha.stateVersion]

theorem cookieOrEmpty_eq : cookieOrEmpty a = ofList (stateText major minor ++ counterText a.counter) := by
  simp [cookieOrEmpty, ha.versionToCookie_eq]

/-- The numbers of a version are those that its state version is read as. -/
theorem unique {major' : ℤ} {minor' : Option ℤ} (h : stateVersionToString ⟨major', minor'⟩ = .ok a.stateVersion) :
    (major : ℤ) = major' ∧ minor.map Int.ofNat = minor' := by
  obtain ⟨n, m, hversion, hn, hm, htext⟩ := stateVersionToString_ok h
  have hread := stateVersionFromString_stateText ha.major_lt ha.minor_lt
  have hread' := stateVersionFromString_stateText hn hm
  rw [← toList_ofList (l := stateText n m), ← htext, ha.stateVersion, toList_ofList, hread,
    ← hversion, ok.injEq, StateVersion.mk.injEq] at hread'
  exact hread'

theorem stateVersionToString_eq : stateVersionToString ⟨major, minor.map Int.ofNat⟩ = .ok a.stateVersion := by
  have hbig : ∀ n < 36 ^ 36, versionToLexi (.big (n : ℕ)) = .ok (ofList (lexiText n)) := by
    intro n hn
    simp [versionToLexi, encodeLexi_eq hn]
  rw [ha.stateVersion]
  cases minor with
  | none => simp [stateVersionToString, hbig major ha.major_lt, stateText]
  | some m =>
    simp only [stateVersionToString, map_some, Int.ofNat_eq_natCast, hbig major ha.major_lt, hbig m (ha.minor_lt m rfl),
      bind, Except.bind, pure, Except.pure, ok.injEq]
    rw [String.ext_iff]
    simp [stateText]

theorem overtakes_iff (hb : b.Parts major' minor') :
    a.Overtakes b ↔ 0 < a.counter ∧ major = major' ∧ minor = none ∧ minor'.isSome := by
  constructor
  · rintro ⟨hcounter, n, m, hstate, hstate'⟩
    obtain ⟨rfl, hminor⟩ := ha.unique hstate
    obtain ⟨hmajor, hminor'⟩ := hb.unique hstate'
    refine ⟨hcounter, by omega, by simpa using hminor, ?_⟩
    cases minor' with
    | none => simp at hminor'
    | some => rfl
  · rintro ⟨hcounter, rfl, rfl, hsome⟩
    obtain ⟨m, rfl⟩ := isSome_iff_exists.mp hsome
    exact ⟨hcounter, major, m, ha.stateVersionToString_eq, hb.stateVersionToString_eq⟩

end

end CvrVersion.Parts

/-! ## The order of cookies -/

section Order

variable {major major' : ℕ}

/-- What follows the major version in a state version. -/
def minorText (minor : Option ℕ) : List Char := minor.elim [] fun m => '.' :: lexiText m

theorem stateText_append_lt_iff (minor minor' : Option ℕ) (hmajor : major < 36 ^ 36)
    (hmajor' : major' < 36 ^ 36) (rest rest' : List Char) :
    stateText major minor ++ rest < stateText major' minor' ++ rest' ↔
      major < major' ∨ major = major' ∧ minorText minor ++ rest < minorText minor' ++ rest' := by
  unfold stateText
  rw [append_assoc, append_assoc]
  exact prefixed_append_lt_iff (by omega) strictMonoOn_digitChar hmajor hmajor' _ _

theorem dot_append_lt_iff {m m' : ℕ} (hm : m < 36 ^ 36) (hm' : m' < 36 ^ 36) (rest rest' : List Char) :
    minorText (some m) ++ rest < minorText (some m') ++ rest' ↔ m < m' ∨ m = m' ∧ rest < rest' := by
  simp only [minorText, Option.elim, cons_append, cons_lt_cons_iff, lt_irrefl, false_or, true_and]
  exact prefixed_append_lt_iff (by omega) strictMonoOn_digitChar hm hm' _ _

theorem counterText_lt_iff {c c' : ℤ} (hc : 0 ≤ c) (hc' : 0 ≤ c') (hle : c.toNat < 36 ^ 36)
    (hle' : c'.toNat < 36 ^ 36) : counterText c < counterText c' ↔ c < c' := by
  unfold counterText
  split <;> split
  · simp_all
  · simp only [nil_lt_cons, true_iff]
    omega
  · simp only [not_lt_nil, false_iff]
    omega
  · have hlexi := prefixed_append_lt_iff (b := 36) (by omega) strictMonoOn_digitChar hle hle' [] []
    simp only [append_nil, not_lt_nil, and_false, or_false] at hlexi
    simp only [cons_lt_cons_iff, lt_irrefl, true_and, false_or, hlexi]
    omega

/-- A counter sorts after a minor version, no counter before it. -/
theorem counterText_lt_dot {c : ℤ} (rest : List Char) : counterText c < '.' :: rest ↔ c = 0 := by
  unfold counterText
  split
  · next h => simp [h]
  · next h =>
    simp [cons_lt_cons_iff, h]

theorem dot_lt_counterText {c : ℤ} (rest : List Char) : '.' :: rest < counterText c ↔ c ≠ 0 := by
  unfold counterText
  split
  · next h => simp [h]
  · next h =>
    simp [cons_lt_cons_iff, h]

end Order

namespace CvrVersion.Parts

variable {a b : CvrVersion} {major major' : ℕ} {minor minor' : Option ℕ}

section

variable (ha : a.Parts major minor)

include ha

section

variable (hb : b.Parts major' minor')

include hb

theorem stateVersion_lt_iff : a.stateVersion < b.stateVersion ↔
      major < major' ∨ major = major' ∧ minorText minor < minorText minor' := by
  have h := stateText_append_lt_iff minor minor' ha.major_lt hb.major_lt [] []
  simp only [append_nil] at h
  rw [ha.stateVersion, hb.stateVersion, String.lt_iff_toList_lt, String.toList_ofList, String.toList_ofList, h]

theorem stateVersion_eq_iff : a.stateVersion = b.stateVersion ↔ major = major' ∧ minor = minor' := by
  constructor
  · intro h
    obtain ⟨hmajor, hminor⟩ := ha.unique (h ▸ hb.stateVersionToString_eq)
    exact ⟨by omega, map_injective (fun _ _ => Int.ofNat.inj) hminor⟩
  · rintro ⟨rfl, rfl⟩
    rw [ha.stateVersion, hb.stateVersion]

theorem cookie_lt_iff : cookieOrEmpty a < cookieOrEmpty b ↔ major < major' ∨ major = major' ∧
      minorText minor ++ counterText a.counter < minorText minor' ++ counterText b.counter := by
  rw [ha.cookieOrEmpty_eq, hb.cookieOrEmpty_eq, String.lt_iff_toList_lt, String.toList_ofList,
    String.toList_ofList, stateText_append_lt_iff _ _ ha.major_lt hb.major_lt]

/-- Cookies are ordered as versions unless a counter stands against a minor version. -/
theorem cookie_lt_iff_lt_iff :
    (cookieOrEmpty a < cookieOrEmpty b ↔ a.lt b = true) ↔ ¬ a.Overtakes b ∧ ¬ b.Overtakes a := by
  have hcounter := counterText_lt_iff ha.counter_nonneg hb.counter_nonneg ha.counter_lt hb.counter_lt
  have hnonneg := ha.counter_nonneg
  have hnonneg' := hb.counter_nonneg
  rw [ha.cookie_lt_iff hb, lt_iff, ha.stateVersion_lt_iff hb, ha.stateVersion_eq_iff hb,
    ha.overtakes_iff hb, hb.overtakes_iff ha]
  cases minor with
  | none =>
    cases minor' with
    | none =>
      simp only [minorText, Option.elim, nil_append, hcounter]
      simp
    | some =>
      simp only [minorText, Option.elim, nil_append, cons_append, counterText_lt_dot, nil_lt_cons]
      simp only [reduceCtorEq, and_false, false_and, or_false, and_true, isSome_some, not_false_eq_true]
      omega
  | some m =>
    cases minor' with
    | none =>
      simp only [minorText, Option.elim, nil_append, cons_append, dot_lt_counterText, not_lt_nil]
      simp only [reduceCtorEq, and_false, false_and, or_false, and_true, isSome_some, not_false_eq_true, true_and]
      omega
    | some m' =>
      have hm := ha.minor_lt m rfl
      have hm' := hb.minor_lt m' rfl
      have hstate := dot_append_lt_iff hm hm' [] []
      simp only [append_nil] at hstate
      rw [dot_append_lt_iff hm hm', hstate, hcounter]
      simp only [not_lt_nil, and_false, or_false, some.injEq, reduceCtorEq, false_and,
        not_false_eq_true, and_self, iff_true]
      omega

end

end

end CvrVersion.Parts

/-- The texts of two versions are ordered as `cmp_versions` orders the versions. -/
def SameOrder (a b : CvrVersion) (cookie cookie' : String) : Prop :=
  (cookie < cookie' ↔ cmpVersions (some a) (some b) < 0) ∧
    (cookie = cookie' ↔ cmpVersions (some a) (some b) = 0)

theorem sameOrder_iff (ha : a.Valid) (hb : b.Valid) :
    SameOrder a b (cookieOrEmpty a) (cookieOrEmpty b) ↔ ¬ a.Overtakes b ∧ ¬ b.Overtakes a := by
  obtain ⟨major, minor, ha⟩ := ha.parts
  obtain ⟨major', minor', hb⟩ := hb.parts
  have hlt := ha.cookie_lt_iff_lt_iff hb
  have hgt := hb.cookie_lt_iff_lt_iff ha
  unfold SameOrder
  rw [cmpVersions_neg_iff, cmpVersions_eq_zero_iff, hlt]
  refine ⟨And.left, fun h => ⟨h, ?_⟩⟩
  have hlt' := hlt.mpr h
  have hgt' := hgt.mpr h.symm
  constructor
  · intro heq
    rw [heq, iff_false_left (lt_irrefl _)] at hlt' hgt'
    rcases lt_or_same_or_lt a b with h | h | h
    · exact absurd h hlt'
    · exact h
    · exact absurd h hgt'
  · intro hsame
    rw [same_iff] at hsame
    rcases lt_trichotomy (cookieOrEmpty a) (cookieOrEmpty b) with h | h | h
    · have := lt_iff.mp (hlt'.mp h)
      rcases this with h' | ⟨-, h'⟩
      · exact absurd hsame.1 h'.ne
      · omega
    · exact h
    · have := lt_iff.mp (hgt'.mp h)
      rcases this with h' | ⟨-, h'⟩
      · exact absurd hsame.1 h'.ne'
      · omega

/-! ## Reading a cookie back -/

theorem splitOn_of_notMem {c : Char} {text : List Char} (h : c ∉ text) : text.splitOn c = [text] := by
  have hall : ∀ part ∈ [text], c ∉ part := by simpa using h
  simpa [intercalate] using splitOn_intercalate c hall (by simp)

theorem splitOn_append_cons {c : Char} {front back : List Char} (hfront : c ∉ front) (hback : c ∉ back) :
    (front ++ c :: back).splitOn c = [front, back] := by
  have hall : ∀ part ∈ [front, back], c ∉ part := by simpa using ⟨hfront, hback⟩
  simpa [intercalate] using splitOn_intercalate c hall (by simp)

/-- A cookie is read as the version it was made from, with no counter in place of a zero one. -/
theorem versionFromString_cookie (hv : v.Valid) : versionFromString (cookieOrEmpty v) =
      .ok ⟨v.stateVersion, if v.counter = 0 then none else some v.counter⟩ := by
  obtain ⟨major, minor, hparts⟩ := hv.parts
  have hcolon := notMem_stateText hparts.major_lt hparts.minor_lt
  have hread := stateVersionFromString_stateText hparts.major_lt hparts.minor_lt
  rw [hparts.cookieOrEmpty_eq, hparts.stateVersion]
  unfold versionFromString counterText
  rw [String.toList_ofList]
  by_cases hzero : v.counter = 0
  · simp only [hzero, if_true, append_nil, splitOn_of_notMem hcolon, hread]
  · have hnot : ':' ∉ lexiText v.counter.toNat :=
      notMem_lexiText hparts.counter_lt fun d hd => (digitChar_spec d hd).2.2.2.2.2.2
    have hback : ((v.counter.toNat : ℕ) : ℤ) = v.counter := Int.toNat_of_nonneg hparts.counter_nonneg
    have hle := hparts.counter_le
    simp only [hzero, if_false, splitOn_append_cons hcolon hnot, versionFromLexi_lexiText hparts.counter_lt, hback]
    rw [if_neg (by omega), if_neg (by omega)]

theorem versionFromString_cookie_iff (hv : v.Valid) :
    versionFromString (cookieOrEmpty v) = .ok v ↔ v.configVersion ≠ some 0 := by
  obtain ⟨state, config⟩ := v
  rw [versionFromString_cookie hv]
  cases config with
  | none => simp [counter]
  | some cv =>
    by_cases hzero : cv = 0
    · simp [hzero]
    · simp [counter, hzero]

/-! ## The version of a poke -/

section Largest

variable {α κ : Type} [LinearOrder κ] (key : α → κ)

theorem foldl_max_spec (xs : List α) (x : α) :
    let best := xs.foldl (fun best y => if key y < key best then best else y) x
    best ∈ x :: xs ∧ ∀ y ∈ x :: xs, key y ≤ key best := by
  induction xs generalizing x with
  | nil => simp
  | cons z xs ih =>
    obtain ⟨hmem, hmax⟩ := ih (if key z < key x then x else z)
    have hstep : key x ≤ key (if key z < key x then x else z) ∧ key z ≤ key (if key z < key x then x else z) := by
      split
      · next h => exact ⟨le_rfl, h.le⟩
      · next h => exact ⟨not_lt.mp h, le_rfl⟩
    have hbest := hmax _ mem_cons_self
    refine ⟨?_, ?_⟩
    · rcases mem_cons.mp hmem with h | h
      · rw [foldl_cons, h]
        split <;> simp
      · exact mem_cons_of_mem _ (mem_cons_of_mem _ h)
    · intro y hy
      rcases mem_cons.mp hy with rfl | hy
      · exact hstep.1.trans hbest
      · rcases mem_cons.mp hy with rfl | hy
        · exact hstep.2.trans hbest
        · exact hmax y (mem_cons_of_mem _ hy)

/-- Of some elements one is chosen, and none has a larger key. -/
theorem maxByKey_spec {xs : List α} (hne : xs ≠ []) :
    ∃ best, maxByKey key xs = some best ∧ best ∈ xs ∧ ∀ y ∈ xs, key y ≤ key best := by
  cases xs with
  | nil => exact absurd rfl hne
  | cons x xs => exact ⟨_, rfl, foldl_max_spec key xs x⟩

end Largest

theorem CvrVersion.Valid.versionToCookie_eq (hv : v.Valid) : versionToCookie v = .ok (cookieOrEmpty v) := by
  obtain ⟨major, minor, hparts⟩ := hv.parts
  rw [hparts.cookieOrEmpty_eq, hparts.versionToCookie_eq]

section

variable (pokeId : String) {baseVersion : Option CvrVersion} {patches : List PatchToVersion}
  (timestamp : Option ℚ) (hbase : ∀ v ∈ baseVersion, v.Valid) (hvalid : ∀ p ∈ patches, p.toVersion.Valid)

include hbase hvalid

/-- A poke of valid versions is built, and ends with the largest cookie. -/
theorem buildPoke_spec
    (hne : patches ≠ []) : ∃ poke, buildPoke pokeId baseVersion patches timestamp = .ok (some poke) ∧
      ∃ p ∈ patches, poke.finish.cookie = cookieOrEmpty p.toVersion ∧
        ∀ q ∈ patches, cookieOrEmpty q.toVersion ≤ poke.finish.cookie := by
  have hversions : patches.map PatchToVersion.toVersion ≠ [] := by simpa using hne
  obtain ⟨best, hbest, hmem, hmax⟩ := maxByKey_spec cookieOrEmpty hversions
  obtain ⟨p, hp, rfl⟩ := mem_map.mp hmem
  have hcookie := (hvalid p hp).versionToCookie_eq
  obtain ⟨base, hbaseCookie⟩ : ∃ base, versionToNullableCookie baseVersion = .ok base := by
    cases baseVersion with
    | none => exact ⟨none, rfl⟩
    | some v => exact ⟨_, by rw [versionToNullableCookie, (hbase v rfl).versionToCookie_eq]; rfl⟩
  have hempty : patches.isEmpty = false := by simpa using hne
  obtain ⟨poke, hpoke, hfinish⟩ : ∃ poke,
      buildPokeImpl pokeId baseVersion p.toVersion patches timestamp false = .ok (some poke) ∧
        poke.finish.cookie = cookieOrEmpty p.toVersion := by
    simp only [buildPokeImpl, hempty, hbaseCookie, hcookie]
    exact ⟨_, rfl, rfl⟩
  refine ⟨poke, by simp only [buildPoke, hbest, hpoke], p, hp, hfinish, fun q hq => ?_⟩
  rw [hfinish]
  exact hmax _ (mem_map_of_mem hq)

/-- The poke ends with the cookie of a largest version unless a patch overtakes that version. -/
theorem buildPoke_cookie_iff {m : PatchToVersion} (hm : m ∈ patches)
    (hlargest : ∀ p ∈ patches, ¬ cmpVersions (some m.toVersion) (some p.toVersion) < 0) :
    ∃ poke, buildPoke pokeId baseVersion patches timestamp = .ok (some poke) ∧
      (poke.finish.cookie = cookieOrEmpty m.toVersion ↔ ∀ p ∈ patches, ¬ p.toVersion.Overtakes m.toVersion) := by
  obtain ⟨poke, hpoke, best, hbest, hcookie, hmax⟩ := buildPoke_spec pokeId timestamp hbase hvalid (ne_nil_of_mem hm)
  obtain ⟨major, minor, hparts⟩ := (hvalid m hm).parts
  refine ⟨poke, hpoke, ?_, ?_⟩
  · intro heq p hp hovertakes
    -- the overtaking version has a larger cookie than the one chosen
    obtain ⟨major', minor', hparts'⟩ := (hvalid p hp).parts
    obtain ⟨hcounter, rfl, rfl, hsome⟩ := (hparts'.overtakes_iff hparts).mp hovertakes
    obtain ⟨n, rfl⟩ := isSome_iff_exists.mp hsome
    have hlt : cookieOrEmpty m.toVersion < cookieOrEmpty p.toVersion := by
      rw [hparts.cookie_lt_iff hparts']
      refine .inr ⟨rfl, (dot_lt_counterText _).mpr (by omega)⟩
    exact absurd (heq ▸ hmax p hp) (not_le.mpr hlt)
  · intro hnone
    refine le_antisymm ?_ (hmax m hm)
    rw [hcookie]
    by_contra hgt
    obtain ⟨major', minor', hparts'⟩ := (hvalid best hbest).parts
    have hnot : ¬ m.toVersion.lt best.toVersion = true := fun h => hlargest best hbest (cmpVersions_neg_iff.mpr h)
    -- a larger cookie of a version that is not larger means that one of the two overtakes
    have hbroken : ¬ (¬ m.toVersion.Overtakes best.toVersion ∧ ¬ best.toVersion.Overtakes m.toVersion) :=
      fun h => hnot (((hparts.cookie_lt_iff_lt_iff hparts').mpr h).mp (not_le.mp hgt))
    have hover : m.toVersion.Overtakes best.toVersion := by
      by_contra h
      exact hbroken ⟨h, hnone best hbest⟩
    obtain ⟨-, rfl, rfl, hsome⟩ := (hparts.overtakes_iff hparts').mp hover
    obtain ⟨n, rfl⟩ := isSome_iff_exists.mp hsome
    refine hnot (lt_iff.mpr (.inl ?_))
    rw [hparts.stateVersion_lt_iff hparts']
    exact .inr ⟨rfl, nil_lt_cons _ _⟩

end

/-- Cookies of valid versions are ordered as the versions exactly when no version counts changes at a
major version of which the other has a minor one; they are read back exactly when they do not count
zero changes; and a poke ends with the largest version exactly when none of its patches overtakes it. -/
theorem cookies_exact_iff (a b : CvrVersion) (ha : a.Valid) (hb : b.Valid) (pokeId : String)
    (baseVersion : Option CvrVersion) (hbase : ∀ v ∈ baseVersion, v.Valid) (patches : List PatchToVersion)
    (hvalid : ∀ p ∈ patches, p.toVersion.Valid) (timestamp : Option ℚ) (m : PatchToVersion) (hm : m ∈ patches)
    (hlargest : ∀ p ∈ patches, ¬ cmpVersions (some m.toVersion) (some p.toVersion) < 0) :
    (∃ cookie cookie', versionToCookie a = .ok cookie ∧ versionToCookie b = .ok cookie' ∧
      (SameOrder a b cookie cookie' ↔ ¬ a.Overtakes b ∧ ¬ b.Overtakes a) ∧
      (versionFromString cookie = .ok a ↔ a.configVersion ≠ some 0)) ∧
    ∃ poke cookie, buildPoke pokeId baseVersion patches timestamp = .ok (some poke) ∧
      versionToCookie m.toVersion = .ok cookie ∧
      (poke.finish.cookie = cookie ↔ ∀ p ∈ patches, ¬ p.toVersion.Overtakes m.toVersion) := by
  refine ⟨⟨_, _, ha.versionToCookie_eq, hb.versionToCookie_eq, sameOrder_iff ha hb, versionFromString_cookie_iff ha⟩, ?_⟩
  obtain ⟨poke, hpoke, hiff⟩ := buildPoke_cookie_iff pokeId timestamp hbase hvalid hm hlargest
  exact ⟨poke, _, hpoke, (hvalid m hm).versionToCookie_eq, hiff⟩

/-- The first change counted at a major version. -/
def counted : CvrVersion := ⟨"01", some 1⟩

/-- A minor version of the same major version. -/
def minored : CvrVersion := ⟨"01.01", none⟩

theorem valid_counted : counted.Valid := ⟨⟨⟨1, none⟩, by decide +kernel⟩, by simp [counted, maxSafeInteger]⟩

theorem valid_minored : minored.Valid := ⟨⟨⟨1, some 1⟩, by decide +kernel⟩, by simp [minored]⟩

/-- Two state versions without counters keep their order. -/
theorem cookies_exact_plain : ∃ cookie cookie', versionToCookie ⟨"01", none⟩ = .ok cookie ∧
    versionToCookie minored = .ok cookie' ∧ SameOrder ⟨"01", none⟩ minored cookie cookie' := by
  have hvalid : CvrVersion.Valid ⟨"01", none⟩ := ⟨⟨⟨1, none⟩, by decide +kernel⟩, by simp⟩
  obtain ⟨⟨cookie, cookie', h, h', hiff, -⟩, -⟩ := cookies_exact_iff _ _ hvalid valid_minored "p" none (by simp)
    [⟨.config ⟨.put, "q", none⟩, minored⟩] (by simpa using valid_minored) none _ (mem_singleton.mpr rfl)
    (by simp only [mem_singleton, forall_eq]; decide +kernel)
  refine ⟨cookie, cookie', h, h', hiff.mpr ⟨?_, ?_⟩⟩
  · rintro ⟨hcounter, -⟩
    simp [counter] at hcounter
  · rintro ⟨hcounter, -⟩
    simp [counter, minored] at hcounter

/-- The counted version is the smaller one, has the larger cookie and ends the poke of both. -/
theorem not_sameOrder_counted : counted.Valid ∧ minored.Valid ∧
    versionToCookie counted = .ok "01:01" ∧ versionToCookie minored = .ok "01.01" ∧
    cmpVersions (some counted) (some minored) < 0 ∧ ("01.01" : String) < "01:01" ∧
    ∃ poke, buildPoke "p" none [⟨.config ⟨.put, "q", none⟩, counted⟩,
      ⟨.config ⟨.put, "q", none⟩, minored⟩] none = .ok (some poke) ∧ poke.finish.cookie = "01:01" := by
  refine ⟨valid_counted, valid_minored, by decide +kernel, by decide +kernel, by decide +kernel,
    by decide +kernel, _, rfl, by decide +kernel⟩

end ZeroCache.ViewSyncer
