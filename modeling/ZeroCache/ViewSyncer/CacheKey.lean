import ZeroCache.Data.Value

/-!
# Keys of transformed custom queries

The key of a transformed custom query is the JSON text of its request (`transform_query_cache_key.rs`), with the
headers as a JSON text of their own. The text of a string ends where the string does, so that requests with one key
are one request.
-/

namespace ZeroCache.ViewSyncer

open List
open String (ofList ofList_injective)

/-- A character in a JSON string; the string is ended by a quote (`write_json_string`). -/
def escape : Option Char → List Char
  | none => ['"']
  | some '"' => ['\\', '"']
  | some '\\' => ['\\', '\\']
  | some '\x08' => ['\\', 'b']
  | some '\x0c' => ['\\', 'f']
  | some '\n' => ['\\', 'n']
  | some '\r' => ['\\', 'r']
  | some '\t' => ['\\', 't']
  | some c => if c.toNat < 32 then ['\\', 'u', '0', '0', (c.toNat / 16).digitChar, (c.toNat % 16).digitChar] else [c]

def writeJsonString (s : String) : List Char := '"' :: (s.toList.flatMap (escape ∘ some) ++ escape none)

variable (formatNumber : ℚ → String)

mutual
/-- The compact JSON text of a value, given how doubles are written. -/
def write : JsonValue → List Char
  | .null => "null".toList
  | .bool b => (toString b).toList
  | .number n => (formatNumber n).toList
  | .bigint n => (toString n).toList
  | .string s => writeJsonString s
  | .array items => '[' :: writeItems [] items
  | .object entries => '\x7b' :: writeEntries [] entries

def writeItems (separator : List Char) : List JsonValue → List Char
  | [] => [']']
  | item :: rest => separator ++ write item ++ writeItems [','] rest

def writeEntries (separator : List Char) : List (String × JsonValue) → List Char
  | [] => ['\x7d']
  | (key, value) :: rest => separator ++ writeJsonString key ++ ':' :: write value ++ writeEntries [','] rest
end

/-- Headers in the order of their names, as a `BTreeMap` has them. -/
abbrev Headers := List (String × String)

structure HeaderOptions where
  customHeaders : Option Headers
  requestHeaders : Option Headers
  cookie : Option String
  origin : Option String

structure ConnectionFetchContext where
  url : Option String
  headerOptions : HeaderOptions

structure UserState where
  id : Option String

def normalizedHeaders : Option Headers → Option String
  | none | some [] => none
  | some headers => some (ofList (write formatNumber (.array (headers.map fun (k, v) => .array [.string k, .string v]))))

def optStringJson (v : Option String) : JsonValue := (v.map .string).getD .null

def getCacheKey (queryId : String) (token : Option String) (user : UserState) (context : ConnectionFetchContext) :
    String :=
  let opts := context.headerOptions
  ofList (write formatNumber (.object [("queryID", .string queryId), ("token", optStringJson token),
    ("cookie", optStringJson opts.cookie), ("origin", optStringJson opts.origin),
    ("userID", .object [("id", optStringJson user.id)]), ("url", optStringJson context.url),
    ("customHeaders", optStringJson (normalizedHeaders formatNumber opts.customHeaders)),
    ("requestHeaders", optStringJson (normalizedHeaders formatNumber opts.requestHeaders))]))

/-- The text of a value shows where it ends. -/
abbrev Cuts {α : Type} (f : α → List Char) : Prop := ∀ a b r r', f a ++ r = f b ++ r' ↔ a = b ∧ r = r'

/-- So does a sequence with an end, if its parts and its end do. -/
theorem Cuts.flatMap {α : Type} {f : Option α → List Char} (h : Cuts f) :
    Cuts fun l : List α => l.flatMap (f ∘ some) ++ f none := by
  intro l l' r r'
  dsimp only
  induction l generalizing l' with
  | nil => cases l' <;> simp [h]
  | cons a l ih =>
    cases l' with
    | nil => simp [h]
    | cons b l' =>
      simp only [flatMap_cons, Function.comp_apply, List.append_assoc, h] at ih ⊢
      simp [ih, and_assoc]

theorem escape_cuts : Cuts escape := by
  have hdigits : ∀ n < 32, ∀ m < 32, (n / 16).digitChar = (m / 16).digitChar →
      (n % 16).digitChar = (m % 16).digitChar → n = m := by decide +kernel
  intro a b r r'
  constructor
  · intro h
    unfold escape at h
    split at h <;> split at h <;> grind [Char.toNat_inj]
  · rintro ⟨rfl, rfl⟩
    rfl

theorem writeJsonString_cuts : Cuts writeJsonString := by
  intro s s' r r'
  have hbody := escape_cuts.flatMap s.toList s'.toList r r'
  rwa [String.toList_inj, ← cons_inj_right '"'] at hbody

theorem optStringJson_cuts : Cuts fun v => write formatNumber (optStringJson v) := by
  intro v v' r r'
  cases v <;> cases v' <;> simp [optStringJson, write, writeJsonString_cuts]
  all_goals simp [writeJsonString]

/-- A header after a comma, or the end of the headers. -/
def headerText : Option (String × String) → List Char
  | none => [']']
  | some (k, v) => ',' :: write formatNumber (.array [.string k, .string v])

theorem headerText_cuts : Cuts (headerText formatNumber) := by
  rintro (_ | ⟨k, v⟩) (_ | ⟨k', v'⟩) r r'
  all_goals simp [headerText, write, writeItems, writeJsonString_cuts, and_assoc]

theorem writeItems_headers (headers : Headers) :
    writeItems formatNumber [','] (headers.map fun (k, v) => .array [.string k, .string v]) =
      headers.flatMap (headerText formatNumber ∘ some) ++ headerText formatNumber none := by
  induction headers with
  | nil => rfl
  | cons header headers ih => simp [writeItems, ih, headerText]

theorem normalizedHeaders_inj {headers headers' : Option Headers}
    (h : normalizedHeaders formatNumber headers = normalizedHeaders formatNumber headers') :
    headers.getD [] = headers'.getD [] := by
  rcases headers with _ | _ | ⟨header, l⟩ <;> rcases headers' with _ | _ | ⟨header', l'⟩
  case some.cons.some.cons =>
    have htext := ofList_injective (Option.some.inj h)
    refine ((headerText_cuts formatNumber).flatMap _ _ [] [] |>.mp ?_).1
    simp only [map_cons, write, writeItems, writeItems_headers] at htext
    simpa [headerText, write, writeItems] using htext
  all_goals first | rfl | cases h

/-- Requests with one key have one query, credential, user, URL and one set of headers. -/
theorem getCacheKey_inj {q q' : String} {token token' : Option String} {user user' : UserState}
    {c c' : ConnectionFetchContext}
    (h : getCacheKey formatNumber q token user c = getCacheKey formatNumber q' token' user' c') :
    q = q' ∧ token = token' ∧ user.id = user'.id ∧ c.url = c'.url ∧ c.headerOptions.cookie = c'.headerOptions.cookie ∧
      c.headerOptions.origin = c'.headerOptions.origin ∧
      c.headerOptions.customHeaders.getD [] = c'.headerOptions.customHeaders.getD [] ∧
      c.headerOptions.requestHeaders.getD [] = c'.headerOptions.requestHeaders.getD [] := by
  have htext := ofList_injective h
  simp only [write, writeEntries, nil_append, cons_append, append_assoc, cons.injEq, true_and, append_cancel_left_eq,
    writeJsonString_cuts, optStringJson_cuts] at htext
  obtain ⟨hq, htoken, hcookie, horigin, huser, hurl, hcustom, hrequest, -⟩ := htext
  exact ⟨hq, htoken, huser, hurl, hcookie, horigin, normalizedHeaders_inj _ hcustom, normalizedHeaders_inj _ hrequest⟩

/-- The key of a request without headers is the key of the request with no header in them. -/
theorem getCacheKey_inj_empty : (none : Option Headers).getD [] = (some []).getD [] :=
  (@getCacheKey_inj toString "q" "q" none none ⟨some "u"⟩ ⟨some "u"⟩ ⟨none, none, none, none, none⟩
    ⟨none, some [], none, none, none⟩ rfl).2.2.2.2.2.2.1

end ZeroCache.ViewSyncer
