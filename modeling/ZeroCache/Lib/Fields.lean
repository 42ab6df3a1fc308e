import Mathlib.Data.List.Basic

/-!
# Association lists

An ordered list of keyed entries stands for a row, a key or a small map. A key is looked up from
the front, so of two entries of one key the first one counts. Writing replaces every entry of the
key in place or adds one at the end; two maps are compared by what they look up.
-/

namespace ZeroCache

open List

/-- A list of keyed entries. -/
abbrev Assoc (κ α : Type) := List (κ × α)

/-- A record of named fields in order. -/
abbrev Fields (α : Type) := Assoc String α

namespace Assoc

variable {κ α : Type} [DecidableEq κ]

/-- The value of the first entry of a key. -/
def get? (entries : Assoc κ α) (key : κ) : Option α :=
  (entries.find? (fun entry => entry.1 = key)).map Prod.snd

/-- Write an entry: in place when the key is present, at the end otherwise. -/
def set (entries : Assoc κ α) (key : κ) (value : α) : Assoc κ α :=
  if entries.any (fun entry => entry.1 = key) then
    entries.map (fun entry => if entry.1 = key then (key, value) else entry)
  else
    entries ++ [(key, value)]

/-- Drop every entry of a key. -/
def erase (entries : Assoc κ α) (key : κ) : Assoc κ α :=
  entries.filter (fun entry => entry.1 ≠ key)

@[simp]
theorem get?_nil (key : κ) : get? ([] : Assoc κ α) key = none := rfl

theorem get?_cons (entry : κ × α) (entries : Assoc κ α) (key : κ) :
    get? (entry :: entries) key = if entry.1 = key then some entry.2 else get? entries key := by
  by_cases h : entry.1 = key
  · simp [get?, h]
  · simp [get?, h]

variable {entries : Assoc κ α} {key : κ}

/-- An entry that is found is one of the list. -/
theorem mem_of_get? {value : α} (h : get? entries key = some value) : (key, value) ∈ entries := by
  obtain ⟨entry, hfind, rfl⟩ := Option.map_eq_some_iff.mp h
  have hkey : entry.1 = key := by simpa using find?_some hfind
  exact hkey ▸ mem_of_find?_eq_some hfind

variable {β : Type}

/-- Translating the values of a map translates what is looked up. -/
theorem get?_map (f : α → β) (entries : Assoc κ α) (key : κ) :
    get? (entries.map (fun entry => (entry.1, f entry.2))) key = (get? entries key).map f := by
  simp [get?, find?_map, Function.comp_def]

theorem get?_append (a b : Assoc κ α) (key : κ) : get? (a ++ b) key = (get? a key).or (get? b key) := by
  rw [get?, find?_append, Option.map_or, get?, get?]

theorem get?_eq_none : get? entries key = none ↔ key ∉ entries.map Prod.fst := by
  simp only [get?, Option.map_eq_none_iff, find?_eq_none, decide_eq_true_eq, mem_map, not_exists, not_and]

/-- A key just erased is not found; the others are looked up as before. -/
theorem get?_erase (entries : Assoc κ α) (key other : κ) :
    get? (erase entries key) other = if other = key then none else get? entries other := by
  rw [get?, erase, find?_filter]
  split
  · next heq => simp [heq]
  · next hne =>
    have hsame : ∀ entry : κ × α, (entry.1 ≠ key ∧ entry.1 = other) ↔ entry.1 = other :=
      fun entry => and_iff_right_of_imp fun heq => heq ▸ hne
    simp [hsame, get?]

/-- A key just written is found; the others are looked up as before. -/
theorem get?_set (entries : Assoc κ α) (key other : κ) (value : α) :
    get? (set entries key value) other = if other = key then some value else get? entries other := by
  unfold set
  split
  · next hany =>
    have hkeeps : ∀ entry : κ × α, (if entry.1 = key then (key, value) else entry).1 = entry.1 := by
      intro entry
      split
      · next heq => exact heq.symm
      · rfl
    rw [get?, get?, find?_map, Option.map_map]
    simp only [Function.comp_def, hkeeps]
    cases hfind : entries.find? (fun entry => entry.1 = other) with
    | none =>
      have hne : other ≠ key := by
        rintro rfl
        rw [any_eq_true, ← find?_isSome, hfind] at hany
        cases hany
      simp [hne]
    | some entry =>
      have hother : entry.1 = other := by simpa using find?_some hfind
      by_cases heq : other = key <;> simp [hother, heq]
  · next hany =>
    rw [get?_append, get?_cons]
    by_cases ho : other = key
    · subst ho
      have hnone : get? entries other = none := by
        rw [get?_eq_none]
        intro hmem
        obtain ⟨entry, hentry, heq⟩ := mem_map.mp hmem
        exact hany (any_eq_true.mpr ⟨entry, hentry, by simp [heq]⟩)
      simp [hnone]
    · simp [ho, Ne.symm ho]

/-- Writing entries whose values depend on their keys only: the key of one of them is found with its
value, the others are looked up as before. -/
theorem get?_foldl_set (key : β → κ) (value : β → α) {items : List β} (entries : Assoc κ α)
    (h : ∀ a ∈ items, ∀ b ∈ items, key a = key b → value a = value b) (k : κ) :
    get? (items.foldl (fun entries item => set entries (key item) (value item)) entries) k =
      ((items.find? (fun item => key item = k)).map value).or (get? entries k) := by
  induction items generalizing entries with
  | nil => simp
  | cons item rest ih =>
    have hrest : ∀ a ∈ rest, ∀ b ∈ rest, key a = key b → value a = value b :=
      fun a ha b hb => h a (mem_cons_of_mem _ ha) b (mem_cons_of_mem _ hb)
    rw [foldl_cons, ih _ hrest, get?_set]
    by_cases hkey : key item = k
    · rw [find?_cons_of_pos (by simpa using hkey), if_pos hkey.symm]
      cases hfind : rest.find? (fun item => key item = k) with
      | none => simp
      | some other =>
        have hother : key other = k := by simpa using find?_some hfind
        have hsame := h item mem_cons_self other (mem_cons_of_mem _ (mem_of_find?_eq_some hfind))
          (hkey.trans hother.symm)
        simp [hsame]
    · rw [find?_cons_of_neg (by simpa using hkey), if_neg (Ne.symm hkey)]

end Assoc

end ZeroCache
