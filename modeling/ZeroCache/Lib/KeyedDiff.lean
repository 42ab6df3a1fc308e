import ZeroCache.Lib.Fields

/-!
# Advancing a keyed map by a list of changes

A change removes the rows of some keys and then writes at most one key, keeping the row there or
not. The changes are applied one after another to a map, with a record of the first row removed
from each key and of the keys touched. `Tracks` says how the changes relate the map to a target;
under it the run reaches the target exactly when no change removes a key that an earlier one kept
a row at, and then the record gives the difference of the two maps.
-/

namespace ZeroCache.Lib

open List Option Assoc

variable {κ α : Type} [DecidableEq κ]

/-- A change: keys removed, then a key written with the row to keep there, if any. -/
structure KeyedChange (κ α : Type) where
  removed : List κ
  written : Option (κ × Option α)

/-- The row a change keeps at a key. -/
def KeyedChange.keptAt (change : KeyedChange κ α) (key : κ) : Option α :=
  match change.written with
  | some (k, row) => if k = key then row else none
  | none => none

/-- The map under way, the first row removed from each key, and the keys touched. -/
structure DiffState (κ α : Type) where
  rows : Assoc κ α
  previous : Assoc κ α
  affected : List κ

namespace DiffState

/-- Remove a key, recording its row unless one is recorded already. -/
def remove (s : DiffState κ α) (key : κ) : DiffState κ α :=
  { rows := s.rows.erase key
    previous := match s.rows.get? key with
      | some old => if (s.previous.get? key).isSome then s.previous else s.previous.set key old
      | none => s.previous
    affected := key :: s.affected }

/-- Write a key. -/
def write (s : DiffState κ α) (key : κ) (row : Option α) : DiffState κ α :=
  { s with
    rows := match row with
      | some row => s.rows.set key row
      | none => s.rows
    affected := key :: s.affected }

/-- Apply a change. -/
def apply (s : DiffState κ α) (change : KeyedChange κ α) : DiffState κ α :=
  match change.written with
  | some (key, row) => (change.removed.foldl remove s).write key row
  | none => change.removed.foldl remove s

/-- Apply a list of changes. -/
def run (s : DiffState κ α) (changes : List (KeyedChange κ α)) : DiffState κ α :=
  changes.foldl apply s

/-! ## Lookups after a step -/

variable (keys : List κ)

theorem rows_removeAll (s : DiffState κ α) (key : κ) :
    (keys.foldl remove s).rows.get? key = if key ∈ keys then none else s.rows.get? key := by
  induction keys generalizing s with
  | nil => simp
  | cons k rest ih =>
    rw [foldl_cons, ih]
    simp only [remove, get?_erase]
    by_cases hk : key = k
    · simp [hk]
    · simp [hk]

theorem previous_remove (s : DiffState κ α) (k key : κ) : (s.remove k).previous.get? key =
      (s.previous.get? key).or (if key = k then s.rows.get? key else none) := by
  unfold remove
  by_cases hk : key = k
  · subst hk
    cases hrow : s.rows.get? key with
    | none => simp
    | some =>
      cases hprev : s.previous.get? key with
      | none => simp [get?_set]
      | some => simp [hprev]
  · cases s.rows.get? k with
    | none => simp [hk]
    | some =>
      cases s.previous.get? k with
      | none => simp [hk, get?_set]
      | some => simp [hk]

theorem previous_removeAll (s : DiffState κ α) (key : κ) : (keys.foldl remove s).previous.get? key =
      (s.previous.get? key).or (if key ∈ keys then s.rows.get? key else none) := by
  induction keys generalizing s with
  | nil => simp
  | cons k rest ih =>
    have hrows : (s.remove k).rows.get? key = if key = k then none else s.rows.get? key := by
      simp only [remove, get?_erase]
    rw [foldl_cons, ih, previous_remove, hrows]
    by_cases hk : key = k
    · simp [hk]
    · simp [hk]

theorem affected_removeAll (s : DiffState κ α) (key : κ) :
    key ∈ (keys.foldl remove s).affected ↔ key ∈ keys ∨ key ∈ s.affected := by
  induction keys generalizing s with
  | nil => simp
  | cons k rest ih =>
    rw [foldl_cons, ih]
    simp only [remove, mem_cons]
    tauto

section

variable (s : DiffState κ α) (change : KeyedChange κ α) (key : κ)

theorem rows_apply : (s.apply change).rows.get? key =
      (change.keptAt key).or (if key ∈ change.removed then none else s.rows.get? key) := by
  unfold apply KeyedChange.keptAt
  cases change.written with
  | none => simp [rows_removeAll]
  | some pair =>
    obtain ⟨k, row⟩ := pair
    cases row with
    | none => simp [write, rows_removeAll]
    | some =>
      simp only [write, get?_set, rows_removeAll]
      by_cases hk : key = k
      · simp [hk]
      · simp [hk, Ne.symm hk]

theorem previous_apply : (s.apply change).previous.get? key =
      (s.previous.get? key).or (if key ∈ change.removed then s.rows.get? key else none) := by
  unfold apply
  cases change.written with
  | none | some => exact previous_removeAll _ _ _

theorem affected_apply : key ∈ (s.apply change).affected ↔
      key ∈ change.removed ∨ (∃ row, change.written = some (key, row)) ∨ key ∈ s.affected := by
  unfold apply
  cases change.written with
  | none => simp [affected_removeAll]
  | some pair =>
    obtain ⟨k, row⟩ := pair
    simp only [write, mem_cons, affected_removeAll, some.injEq, Prod.mk.injEq]
    constructor
    · rintro (rfl | hremoved | haffected)
      · exact .inr (.inl ⟨row, rfl, rfl⟩)
      · exact .inl hremoved
      · exact .inr (.inr haffected)
    · rintro (hremoved | ⟨_, rfl, _⟩ | haffected)
      · exact .inr (.inl hremoved)
      · exact .inl rfl
      · exact .inr (.inr haffected)

end

/-! ## Lookups after a run -/

theorem run_append (s : DiffState κ α) (before after : List (KeyedChange κ α)) :
    s.run (before ++ after) = (s.run before).run after := foldl_append

variable {changes : List (KeyedChange κ α)} {key : κ}

/-- A key no change keeps a row at is there as before, unless some change removes it. -/
theorem rows_run_of_not_kept (h : ∀ change ∈ changes, change.keptAt key = none) (s : DiffState κ α) :
    (s.run changes).rows.get? key = if ∃ change ∈ changes, key ∈ change.removed then none else s.rows.get? key := by
  induction changes generalizing s with
  | nil => simp [run]
  | cons change rest ih =>
    have hstep : (s.run (change :: rest)) = (s.apply change).run rest := rfl
    rw [hstep, ih (fun c hc => h c (mem_cons_of_mem _ hc)), rows_apply, h change mem_cons_self]
    by_cases hremoved : key ∈ change.removed
    · simp [hremoved]
    · simp [hremoved]

/-- Each key touched in a run is removed or written by one of its changes. -/
theorem affected_run (changes : List (KeyedChange κ α)) (s : DiffState κ α) (key : κ) :
    key ∈ (s.run changes).affected ↔
      (∃ change ∈ changes, key ∈ change.removed ∨ ∃ row, change.written = some (key, row)) ∨ key ∈ s.affected := by
  induction changes generalizing s with
  | nil => simp [run]
  | cons change rest ih =>
    have hstep : (s.run (change :: rest)) = (s.apply change).run rest := rfl
    rw [hstep, ih, affected_apply]
    simp only [mem_cons, exists_eq_or_imp]
    constructor
    · rintro (hrest | hremoved | hwritten | hs)
      · exact .inl (.inr hrest)
      · exact .inl (.inl (.inl hremoved))
      · exact .inl (.inl (.inr hwritten))
      · exact .inr hs
    · rintro (((hremoved | hwritten) | hrest) | hs)
      · exact .inr (.inl hremoved)
      · exact .inr (.inr (.inl hwritten))
      · exact .inl hrest
      · exact .inr (.inr (.inr hs))

/-- When no row kept at a key is removed again, the run records the row the key had at first. -/
theorem previous_run (h : changes.Pairwise (fun c d => (c.keptAt key).isSome → key ∉ d.removed)) (s : DiffState κ α) :
    (s.run changes).previous.get? key = (s.previous.get? key).or
        (if ∃ change ∈ changes, key ∈ change.removed then s.rows.get? key else none) := by
  induction changes generalizing s with
  | nil => simp [run]
  | cons change rest ih =>
    obtain ⟨hhead, hrest⟩ := pairwise_cons.mp h
    have hstep : (s.run (change :: rest)) = (s.apply change).run rest := rfl
    rw [hstep, ih hrest, previous_apply, rows_apply]
    cases hkept : change.keptAt key with
    | some =>
      -- The key is kept here, so nothing after removes it and the record is complete.
      have hnone : ¬ ∃ d ∈ rest, key ∈ d.removed := by
        rintro ⟨d, hd, hremoved⟩
        exact hhead d hd (by simp [hkept]) hremoved
      simp [hnone]
    | none =>
      by_cases hremoved : key ∈ change.removed
      · simp [hremoved]
      · simp [hremoved]

variable {s : DiffState κ α}

/-- A row stays at a key that no change removes. -/
theorem rows_run_isSome (h : ∀ change ∈ changes, key ∉ change.removed)
    (hrow : (s.rows.get? key).isSome) : ((s.run changes).rows.get? key).isSome := by
  induction changes generalizing s with
  | nil => exact hrow
  | cons change rest ih =>
    refine ih (s := s.apply change) (fun d hd => h d (mem_cons_of_mem _ hd)) ?_
    rw [rows_apply, if_neg (h change mem_cons_self)]
    cases change.keptAt key with
    | none => exact hrow
    | some => rfl

/-- What holds of the rows of a map and of the rows a run writes holds of all it holds and records. -/
theorem run_forall {P : κ → α → Prop} (hwritten : ∀ change ∈ changes, ∀ key row, change.keptAt key = some row → P key row) (hrows : ∀ key row, s.rows.get? key = some row → P key row)
    (hprevious : ∀ key row, s.previous.get? key = some row → P key row) :
    (∀ key row, (s.run changes).rows.get? key = some row → P key row) ∧
      ∀ key row, (s.run changes).previous.get? key = some row → P key row := by
  induction changes generalizing s with
  | nil => exact ⟨hrows, hprevious⟩
  | cons change rest ih =>
    refine ih (s := s.apply change) (fun d hd => hwritten d (mem_cons_of_mem _ hd)) (fun key row h => ?_)
      (fun key row h => ?_)
    · rw [rows_apply] at h
      cases hkept : change.keptAt key with
      | some =>
        rw [hkept] at h
        cases h
        exact hwritten change mem_cons_self key row hkept
      | none =>
        rw [hkept] at h
        split at h
        · cases h
        · exact hrows key row h
    · rw [previous_apply] at h
      cases hrecord : s.previous.get? key with
      | some =>
        rw [hrecord] at h
        cases h
        exact hprevious key row hrecord
      | none =>
        rw [hrecord] at h
        split at h
        · exact hrows key row h
        · cases h

end DiffState

/-! ## Reaching a target -/

/-- How a list of changes relates the rows of a map to a target. -/
structure Tracks (rows target : κ → Option α) (changes : List (KeyedChange κ α)) : Prop where
  /-- A change writes what the target has. -/
  written_target : ∀ change ∈ changes, ∀ key row, change.written = some (key, row) → target key = row
  /-- A key is written once. -/
  written_once : changes.Pairwise
    (fun c d => ∀ key row row', c.written = some (key, row) → d.written ≠ some (key, row'))
  /-- A change removes the row at the key it writes. -/
  written_removed : ∀ change ∈ changes, ∀ key row, change.written = some (key, row) →
    (rows key).isSome → key ∈ change.removed
  /-- A row of the target that is not written was there already and is not removed. -/
  unwritten : ∀ key, (target key).isSome → (∀ change ∈ changes, ∀ row, change.written ≠ some (key, row)) →
    rows key = target key ∧ ∀ change ∈ changes, key ∉ change.removed
  /-- A row whose key the target lacks is removed. -/
  dropped : ∀ key, target key = none → (rows key).isSome → ∃ change ∈ changes, key ∈ change.removed

/-- No change removes a key at which an earlier one kept a row. -/
def KeepsWritten (changes : List (KeyedChange κ α)) : Prop :=
  changes.Pairwise (fun c d => ∀ key row, c.written = some (key, some row) → key ∉ d.removed)

theorem pairwise_split {β : Type} {R : β → β → Prop} {l : List β} :
    l.Pairwise R ↔ ∀ before x after, l = before ++ x :: after → ∀ y ∈ after, R x y := by
  constructor
  · rintro h before x after rfl
    exact (pairwise_cons.mp (pairwise_append.mp h).2.1).1
  · intro h
    induction l with
    | nil => exact .nil
    | cons a rest ih =>
      refine pairwise_cons.mpr ⟨h [] a rest rfl, ih fun before x after hcut => ?_⟩
      exact h (a :: before) x after (by rw [hcut, cons_append])

theorem keptAt_eq_some {change : KeyedChange κ α} {key : κ} {row : α} :
    change.keptAt key = some row ↔ change.written = some (key, some row) := by
  unfold KeyedChange.keptAt
  cases change.written with
  | none => simp
  | some pair =>
    obtain ⟨k, r⟩ := pair
    by_cases hk : k = key
    · simp [hk]
    · simp [hk]

theorem keptAt_eq_none {change : KeyedChange κ α} {key : κ} :
    change.keptAt key = none ↔ ∀ row, change.written ≠ some (key, some row) := by
  simp only [eq_none_iff_forall_ne_some, ne_eq, keptAt_eq_some]

theorem KeepsWritten.pairwise {changes : List (KeyedChange κ α)} (h : KeepsWritten changes) (key : κ) :
    changes.Pairwise (fun c d => (c.keptAt key).isSome → key ∉ d.removed) := by
  refine h.imp (fun {c d} hcd hsome => ?_)
  obtain ⟨row, hrow⟩ := isSome_iff_exists.mp hsome
  exact hcd key row (keptAt_eq_some.mp hrow)

open DiffState

/-- When kept rows stay, the record of a touched key is the row it had, unless it is missing and
cannot be mistaken for one; a key that is not touched is as before. -/
theorem KeepsWritten.record {changes : List (KeyedChange κ α)} (hkeeps : KeepsWritten changes) (rows : Assoc κ α)
    (key : κ) : (key ∈ (run ⟨rows, [], []⟩ changes).affected ∧
        ((run ⟨rows, [], []⟩ changes).previous.get? key = rows.get? key ∨
          ((run ⟨rows, [], []⟩ changes).previous.get? key = none ∧
            ((run ⟨rows, [], []⟩ changes).rows.get? key).isSome))) ∨
      (key ∉ (run ⟨rows, [], []⟩ changes).affected ∧ (run ⟨rows, [], []⟩ changes).previous.get? key = none ∧
        (run ⟨rows, [], []⟩ changes).rows.get? key = rows.get? key) := by
  have hrecord := previous_run (hkeeps.pairwise key) ⟨rows, [], []⟩
  have haffected := affected_run changes ⟨rows, [], []⟩ key
  by_cases hremoved : ∃ change ∈ changes, key ∈ change.removed
  · rw [if_pos hremoved] at hrecord
    obtain ⟨change, hchange, hmem⟩ := hremoved
    exact .inl ⟨haffected.mpr (.inl ⟨change, hchange, .inl hmem⟩), .inl hrecord⟩
  · rw [if_neg hremoved] at hrecord
    have hnone : (run ⟨rows, [], []⟩ changes).previous.get? key = none := hrecord
    have hnotremoved : ∀ change ∈ changes, key ∉ change.removed := fun change hchange h => hremoved ⟨change, hchange, h⟩
    by_cases htouched : key ∈ (run ⟨rows, [], []⟩ changes).affected
    · refine .inl ⟨htouched, ?_⟩
      cases hrow : rows.get? key with
      | none => exact .inl hnone
      | some => exact .inr ⟨hnone, rows_run_isSome hnotremoved (by simp [hrow])⟩
    · refine .inr ⟨htouched, hnone, ?_⟩
      have hnotkept : ∀ change ∈ changes, change.keptAt key = none := fun change hchange =>
        keptAt_eq_none.mpr (fun row hrow => htouched (haffected.mpr (.inl ⟨change, hchange, .inr ⟨some row, hrow⟩⟩)))
      rw [rows_run_of_not_kept hnotkept, if_neg hremoved]

section Target

variable {rows target : κ → Option α} {changes : List (KeyedChange κ α)} {s : DiffState κ α}

section

variable (h : Tracks rows target changes)

include h

variable {key : κ}

/-- Outside the change that writes a key, no change of the run keeps a row there. -/
theorem Tracks.keptAt_after {before after : List (KeyedChange κ α)}
    {change : KeyedChange κ α} (hcut : changes = before ++ change :: after) {row : Option α}
    (hwritten : change.written = some (key, row)) : ∀ d ∈ after, d.keptAt key = none := by
  intro d hd
  exact keptAt_eq_none.mpr (fun row' => pairwise_split.mp h.written_once before change after hcut d hd key row _ hwritten)

/-- A key the target lacks is never kept. -/
theorem Tracks.keptAt_none (hkey : target key = none) : ∀ change ∈ changes, change.keptAt key = none := by
  refine fun change hchange => keptAt_eq_none.mpr (fun row hrow => ?_)
  have htarget := h.written_target change hchange key (some row) hrow
  rw [hkey] at htarget
  cases htarget

/-- When kept rows stay, the run reaches the target. -/
theorem Tracks.rows_run (hrows : ∀ key, s.rows.get? key = rows key)
    (hkeeps : KeepsWritten changes) (key : κ) : (s.run changes).rows.get? key = target key := by
  cases htarget : target key with
  | none =>
    rw [rows_run_of_not_kept (h.keptAt_none htarget), hrows]
    split
    · rfl
    · next hnone =>
      by_contra hsome
      exact hnone (h.dropped key htarget (isSome_iff_ne_none.mpr hsome))
  | some row =>
    by_cases hw : ∃ change ∈ changes, ∃ r, change.written = some (key, r)
    · obtain ⟨change, hchange, r, hr⟩ := hw
      obtain rfl : r = some row := (h.written_target change hchange key r hr).symm.trans htarget
      obtain ⟨before, after, hcut⟩ := append_of_mem hchange
      have hafter : ¬ ∃ d ∈ after, key ∈ d.removed := by
        rintro ⟨d, hd, hremoved⟩
        exact pairwise_split.mp hkeeps before change after hcut d hd key row hr hremoved
      have hstep : (s.run (before ++ change :: after)) = ((s.run before).apply change).run after := by
        rw [run_append]
        rfl
      rw [hcut, hstep, rows_run_of_not_kept (h.keptAt_after hcut hr), if_neg hafter,
        rows_apply, keptAt_eq_some.mpr hr]
      rfl
    · have hunwritten : ∀ change ∈ changes, ∀ r, change.written ≠ some (key, r) :=
        fun change hchange r hr => hw ⟨change, hchange, r, hr⟩
      obtain ⟨hsame, hkept⟩ := h.unwritten key (by simp [htarget]) hunwritten
      have hnotkept : ∀ change ∈ changes, change.keptAt key = none :=
        fun change hchange => keptAt_eq_none.mpr (fun r => hunwritten change hchange (some r))
      rw [rows_run_of_not_kept hnotkept, if_neg (fun ⟨d, hd, hr⟩ => hkept d hd hr), hrows, hsame, htarget]

/-- Only then: a kept row that is removed again is missing in the end. -/
theorem Tracks.keepsWritten_of_rows_run
    (hreach : ∀ key, (s.run changes).rows.get? key = target key) : KeepsWritten changes := by
  refine pairwise_split.mpr (fun before change after hcut d hd key row hwritten hremoved => ?_)
  obtain ⟨mid, rest, hafter⟩ := append_of_mem hd
  have hchange : change ∈ changes := by simp [hcut]
  have hnone := h.keptAt_after hcut hwritten
  have hstep : s.run changes = ((s.run (before ++ change :: mid)).apply d).run rest := by
    have hcut' : changes = (before ++ change :: mid) ++ d :: rest := by simp [hcut, hafter]
    rw [hcut', run_append]
    rfl
  have hlost : (s.run changes).rows.get? key = none := by
    rw [hstep, rows_run_of_not_kept (fun e he => hnone e (by simp [hafter, he])), rows_apply, hnone d hd]
    simp [hremoved]
  rw [hreach key, h.written_target change hchange key (some row) hwritten] at hlost
  cases hlost

/-- The run reaches the target exactly when no change removes a row an earlier one kept. -/
theorem Tracks.rows_run_iff (hrows : ∀ key, s.rows.get? key = rows key) :
    (∀ key, (s.run changes).rows.get? key = target key) ↔ KeepsWritten changes :=
  ⟨h.keepsWritten_of_rows_run, h.rows_run hrows⟩

/-- When kept rows stay, the recorded and the reached rows of a touched key are those of the map
and of the target; a key that is not touched is the same in both. -/
theorem Tracks.difference (hrows : ∀ key, s.rows.get? key = rows key)
    (hprevious : s.previous = []) (haffected : s.affected = []) (hkeeps : KeepsWritten changes) (key : κ) :
    (key ∈ (s.run changes).affected ∧ (s.run changes).previous.get? key = rows key) ∨
      (key ∉ (s.run changes).affected ∧ (s.run changes).previous.get? key = none ∧ rows key = target key) := by
  have hrecord := previous_run (hkeeps.pairwise key) s
  rw [hprevious] at hrecord
  by_cases hremoved : ∃ change ∈ changes, key ∈ change.removed
  · refine .inl ⟨(affected_run changes s key).mpr ?_, ?_⟩
    · obtain ⟨change, hchange, hr⟩ := hremoved
      exact .inl ⟨change, hchange, .inl hr⟩
    · simpa [hremoved, hrows] using hrecord
  · have hnone : (s.run changes).previous.get? key = none := by simpa [hremoved] using hrecord
    by_cases hw : ∃ change ∈ changes, ∃ row, change.written = some (key, row)
    · obtain ⟨change, hchange, row, hwritten⟩ := hw
      refine .inl ⟨(affected_run changes s key).mpr (.inl ⟨change, hchange, .inr ⟨row, hwritten⟩⟩), ?_⟩
      rw [hnone]
      by_contra hsome
      exact hremoved ⟨change, hchange, h.written_removed change hchange key row hwritten
        (isSome_iff_ne_none.mpr (Ne.symm hsome))⟩
    · refine .inr ⟨fun hmem => ?_, hnone, ?_⟩
      · rcases (affected_run changes s key).mp hmem with ⟨change, hchange, hr | hwr⟩ | hold
        · exact hremoved ⟨change, hchange, hr⟩
        · exact hw ⟨change, hchange, hwr⟩
        · simp [haffected] at hold
      · have hreach := h.rows_run hrows hkeeps key
        have hnotkept : ∀ change ∈ changes, change.keptAt key = none := fun change hchange =>
          keptAt_eq_none.mpr (fun row hrow => hw ⟨change, hchange, some row, hrow⟩)
        rw [rows_run_of_not_kept hnotkept, if_neg hremoved, hrows] at hreach
        exact hreach

end

end Target

end ZeroCache.Lib
