import ZeroCache.Lib.Fields
import Mathlib.Algebra.Order.Group.Nat

/-!
# The log of a client group's advances

Every advance of a shared driver that changed something is appended to a log, and each connection
reads it from a cursor of its own (`AdvanceLog` of `group_shared_pipeline.rs`). Entries every cursor
has passed are dropped: `Follows` relates the log to all that was ever appended, and says that what
a connection has not read is exactly what was appended after its cursor.
-/

namespace ZeroCache.ViewSyncer

open List Option Assoc Nat

/-- The advances of a group with a cursor for each connection; an entry is what one advance changed. -/
structure AdvanceLog (α : Type) where
  entries : List (ℕ × α)
  nextSeq : ℕ
  cursors : Fields ℕ

namespace AdvanceLog

variable {α : Type}

/-- An empty log. -/
def empty : AdvanceLog α := ⟨[], 0, []⟩

/-- The cursor of a connection; one that has none joins at head. -/
def cursor (log : AdvanceLog α) (clientId : String) : ℕ := (log.cursors.get? clientId).getD log.nextSeq

/-- A connection joins at head, unless it has joined already. -/
def register (log : AdvanceLog α) (clientId : String) : AdvanceLog α :=
  { log with cursors := log.cursors.set clientId (log.cursor clientId) }

/-- Append an advance. -/
def append (log : AdvanceLog α) (changes : α) : AdvanceLog α :=
  { log with entries := log.entries ++ [(log.nextSeq, changes)], nextSeq := log.nextSeq + 1 }

/-- The slowest cursor. -/
def minCursor (log : AdvanceLog α) : ℕ := ((log.cursors.map Prod.snd).min?).getD log.nextSeq

/-- Drop the entries every cursor has passed. -/
def trim (log : AdvanceLog α) : AdvanceLog α :=
  { log with entries := log.entries.dropWhile (fun entry => decide (entry.1 < log.minCursor)) }

/-- The entries a connection has not read. -/
def unread (log : AdvanceLog α) (clientId : String) : List α :=
  (log.entries.filter (fun entry => decide (log.cursor clientId ≤ entry.1))).map Prod.snd

/-- Move the cursor of a connection to head; what it had not read is returned (`drain_for`). -/
def drainFor (log : AdvanceLog α) (clientId : String) : AdvanceLog α × List α :=
  (trim { log with cursors := log.cursors.set clientId log.nextSeq }, log.unread clientId)

/-- A connection leaves. -/
def forget (log : AdvanceLog α) (clientId : String) : AdvanceLog α :=
  trim { log with cursors := log.cursors.erase clientId }

/-! ## Lookups -/

section

variable (log : AdvanceLog α) (clientId other : String)

@[simp]
theorem cursors_register : (log.register clientId).cursors.get? other =
      if other = clientId then some (log.cursor clientId) else log.cursors.get? other :=
  get?_set _ _ _ _

@[simp]
theorem cursors_drainFor : (log.drainFor clientId).1.cursors.get? other =
      if other = clientId then some log.nextSeq else log.cursors.get? other :=
  get?_set _ _ _ _

@[simp]
theorem cursors_forget :
    (log.forget clientId).cursors.get? other = if other = clientId then none else log.cursors.get? other :=
  get?_erase _ _ _

end

section

variable {log : AdvanceLog α} {clientId : String} {seq : ℕ} (h : log.cursors.get? clientId = some seq)

include h

theorem cursor_of_get? : log.cursor clientId = seq := by
  rw [cursor, h, getD_some]

/-- The slowest cursor is at most every cursor. -/
theorem minCursor_le : log.minCursor ≤ seq := by
  have hmem : seq ∈ log.cursors.map Prod.snd := mem_map.mpr ⟨_, mem_of_get? h, rfl⟩
  rw [minCursor]
  cases hmin : (log.cursors.map Prod.snd).min? with
  | none => simp [min?_eq_none_iff.mp hmin] at hmem
  | some => exact (min?_eq_some_iff.mp hmin).2 seq hmem

end

/-! ## What is left of the appended entries -/

/-- The entries at and after a position are those from there on. -/
theorem filter_zipIdx (l : List α) (start seq : ℕ) :
    ((l.zipIdx start).filter (fun entry => decide (seq ≤ entry.2))).map Prod.fst = l.drop (seq - start) := by
  induction l generalizing start with
  | nil => simp
  | cons a rest ih =>
    rw [zipIdx_cons, filter_cons]
    by_cases h : seq ≤ start
    · rw [if_pos (by simpa using h), map_cons, ih, Nat.sub_eq_zero_of_le h,
        Nat.sub_eq_zero_of_le (le_succ_of_le h), drop_zero, drop_zero]
    · rw [if_neg (by simpa using h), ih]
      have hpos : seq - start = (seq - (start + 1)) + 1 := by omega
      rw [hpos, drop_succ_cons]

/-- Dropping the entries before a position from a list numbered from an earlier one. -/
theorem dropWhile_zipIdx (l : List α) (start seq : ℕ) :
    (l.zipIdx start).dropWhile (fun entry => decide (entry.2 < seq)) = (l.drop (seq - start)).zipIdx (max start seq) := by
  induction l generalizing start with
  | nil => simp
  | cons a rest ih =>
    rw [zipIdx_cons, dropWhile_cons]
    by_cases h : start < seq
    · rw [if_pos (by simpa using h), ih]
      have hpos : seq - start = (seq - (start + 1)) + 1 := by omega
      have hmax : max (start + 1) seq = max start seq := by omega
      rw [hpos, drop_succ_cons, hmax]
    · rw [if_neg (by simpa using h), Nat.sub_eq_zero_of_le (by omega), drop_zero,
        max_eq_left (Nat.le_of_not_lt h), zipIdx_cons]

theorem entries_trim_suffix (log : AdvanceLog α) : log.trim.entries <:+ log.entries := dropWhile_suffix _

/-- What the log holds of all entries that were appended: those from some position on, which no
cursor has passed. -/
structure Follows (log : AdvanceLog α) (appended : List α) : Prop where
  nextSeq_eq : log.nextSeq = appended.length
  cursor_le : ∀ entry ∈ log.cursors, entry.2 ≤ appended.length
  kept : ∃ start, (∀ clientId seq, log.cursors.get? clientId = some seq → start ≤ seq) ∧
    start ≤ appended.length ∧ log.entries.map Prod.swap = (appended.drop start).zipIdx start

namespace Follows

variable {log : AdvanceLog α} {appended : List α}

theorem empty : Follows (AdvanceLog.empty : AdvanceLog α) [] where
  nextSeq_eq := rfl
  cursor_le entry h := by cases h
  kept := by
    refine ⟨0, fun clientId seq h => ?_, le_rfl, rfl⟩
    cases h

variable {clientId : String} (h : log.Follows appended)

include h

/-- A connection has not read what was appended after its cursor. -/
theorem unread_cursor : log.unread clientId = appended.drop (log.cursor clientId) := by
  obtain ⟨start, hpassed, hstart, hentries⟩ := h.kept
  have hswap : log.entries = ((appended.drop start).zipIdx start).map Prod.swap := by
    rw [← hentries]
    simp
  have hle : start ≤ log.cursor clientId := by
    rw [cursor]
    cases hcursor : log.cursors.get? clientId with
    | none => exact hstart.trans h.nextSeq_eq.ge
    | some seq => exact hpassed clientId seq hcursor
  rw [unread, hswap, List.filter_map, List.map_map]
  have hread := filter_zipIdx (appended.drop start) start (log.cursor clientId)
  rw [drop_drop, Nat.add_sub_cancel' hle] at hread
  exact hread

theorem unread_eq {seq : ℕ}
    (hcursor : log.cursors.get? clientId = some seq) : log.unread clientId = appended.drop seq := by
  rw [h.unread_cursor, cursor_of_get? hcursor]

/-- A connection without a cursor has nothing to read. -/
theorem unread_new (hnone : log.cursors.get? clientId = none) : log.unread clientId = [] := by
  rw [h.unread_cursor, cursor, hnone, Option.getD_none, h.nextSeq_eq, drop_length]

theorem append (changes : α) : (log.append changes).Follows (appended ++ [changes]) := by
  obtain ⟨start, hpassed, hstart, hentries⟩ := h.kept
  refine ⟨?_, fun entry hentry => ?_, start, hpassed, ?_, ?_⟩
  · simp [AdvanceLog.append, h.nextSeq_eq]
  · rw [length_append]
    exact le_add_right_of_le (h.cursor_le entry hentry)
  · rw [length_append]
    exact le_add_right_of_le hstart
  · rw [AdvanceLog.append, map_append, hentries, drop_append_of_le_length hstart, zipIdx_append,
      length_drop, Nat.add_sub_cancel' hstart, h.nextSeq_eq]
    rfl

/-- Cursors may move as long as they stay behind the head and none moves back before what is kept. -/
theorem moveCursors {cursors : Fields ℕ} (hle : ∀ entry ∈ cursors, entry.2 ≤ appended.length)
    (hforward : ∀ clientId seq, cursors.get? clientId = some seq →
      seq = appended.length ∨ log.cursors.get? clientId = some seq) :
    Follows { log with cursors := cursors } appended := by
  obtain ⟨start, hpassed, hstart, hentries⟩ := h.kept
  refine ⟨h.nextSeq_eq, hle, start, fun clientId seq hcursor => ?_, hstart, hentries⟩
  rcases hforward clientId seq hcursor with rfl | hold
  · exact hstart
  · exact hpassed clientId seq hold

/-- Dropping what every cursor has passed loses nothing. -/
theorem trim : log.trim.Follows appended := by
  obtain ⟨start, hpassed, hstart, hentries⟩ := h.kept
  have hleast : log.minCursor ≤ appended.length := by
    rw [minCursor]
    cases hmin : (log.cursors.map Prod.snd).min? with
    | none => exact h.nextSeq_eq.le
    | some =>
      obtain ⟨entry, hentry, rfl⟩ := mem_map.mp (min?_eq_some_iff.mp hmin).1
      exact h.cursor_le entry hentry
  refine ⟨h.nextSeq_eq, h.cursor_le, max start log.minCursor, fun clientId seq hcursor => ?_,
    max_le hstart hleast, ?_⟩
  · exact max_le (hpassed clientId seq hcursor) (minCursor_le hcursor)
  · have hdropped := dropWhile_zipIdx (appended.drop start) start log.minCursor
    rw [drop_drop, ← hentries, dropWhile_map] at hdropped
    have hmax : start + (log.minCursor - start) = max start log.minCursor := by omega
    rw [hmax] at hdropped
    exact hdropped

omit h in
theorem mem_set {κ β : Type} [DecidableEq κ] {entries : Assoc κ β} {key : κ} {value : β} {entry : κ × β}
    (h : entry ∈ entries.set key value) : entry = (key, value) ∨ entry ∈ entries := by
  unfold Assoc.set at h
  split at h
  · obtain ⟨old, hold, rfl⟩ := mem_map.mp h
    by_cases hkey : old.1 = key
    · exact .inl (if_pos hkey)
    · rw [if_neg hkey]
      exact .inr hold
  · rcases mem_append.mp h with hold | hnew
    · exact .inr hold
    · exact .inl (mem_singleton.mp hnew)

theorem register (clientId : String) : (log.register clientId).Follows appended := by
  have hcursor : log.cursor clientId ≤ appended.length := by
    rw [cursor]
    cases hget : log.cursors.get? clientId with
    | none => exact h.nextSeq_eq.le
    | some => exact h.cursor_le _ (mem_of_get? hget)
  refine h.moveCursors (fun entry hentry => ?_) (fun other seq hseq => ?_)
  · rcases mem_set hentry with rfl | hold
    · exact hcursor
    · exact h.cursor_le entry hold
  · rw [get?_set] at hseq
    split at hseq
    · next heq =>
      cases hseq
      rw [cursor, heq]
      cases hget : log.cursors.get? clientId with
      | none => exact .inl h.nextSeq_eq
      | some => exact .inr rfl
    · exact .inr hseq

theorem drainFor (clientId : String) : (log.drainFor clientId).1.Follows appended := by
  refine trim (h.moveCursors (fun entry hentry => ?_) (fun other seq hseq => ?_))
  · rcases mem_set hentry with rfl | hold
    · exact h.nextSeq_eq.le
    · exact h.cursor_le entry hold
  · rw [get?_set] at hseq
    split at hseq
    · cases hseq
      exact .inl h.nextSeq_eq
    · exact .inr hseq

theorem forget (clientId : String) : (log.forget clientId).Follows appended := by
  refine trim (h.moveCursors (fun entry hentry => ?_) (fun other seq hseq => ?_))
  · exact h.cursor_le entry (mem_of_mem_filter hentry)
  · rw [get?_erase] at hseq
    split at hseq
    · cases hseq
    · exact .inr hseq

/-! ## Reading after a step -/

/-- What a connection has not read ends the log. -/
theorem unread_suffix (hcursor : (log.cursors.get? clientId).isSome) :
    log.unread clientId <:+ log.entries.map Prod.snd := by
  obtain ⟨start, hpassed, -, hentries⟩ := h.kept
  obtain ⟨seq, hseq⟩ := isSome_iff_exists.mp hcursor
  have hkept : log.entries.map Prod.snd = appended.drop start := by
    have hfirst := congrArg (map Prod.fst) hentries
    rw [List.map_map, zipIdx_map_fst] at hfirst
    exact hfirst
  rw [h.unread_eq hseq, hkept, ← Nat.add_sub_cancel' (hpassed clientId seq hseq), ← drop_drop]
  exact drop_suffix _ _

variable {other : String}

theorem unread_register (clientId : String) : (log.register clientId).unread other = log.unread other := by
  rw [(h.register clientId).unread_cursor, h.unread_cursor, cursor, cursors_register]
  split
  · next hother => rw [hother, getD_some]
  · rfl

theorem unread_drainFor_ne (hother : other ≠ clientId) : (log.drainFor clientId).1.unread other = log.unread other := by
  rw [(h.drainFor clientId).unread_cursor, h.unread_cursor, cursor, cursors_drainFor, if_neg hother]
  rfl

theorem unread_drainFor_self (clientId : String) : (log.drainFor clientId).1.unread clientId = [] := by
  rw [(h.drainFor clientId).unread_eq (by rw [cursors_drainFor, if_pos rfl]), h.nextSeq_eq, drop_length]

theorem unread_forget (hother : other ≠ clientId) : (log.forget clientId).unread other = log.unread other := by
  rw [(h.forget clientId).unread_cursor, h.unread_cursor, cursor, cursors_forget, if_neg hother]
  rfl

theorem unread_append (changes : α) (hcursor : (log.cursors.get? clientId).isSome) :
    (log.append changes).unread clientId = log.unread clientId ++ [changes] := by
  obtain ⟨seq, hseq⟩ := isSome_iff_exists.mp hcursor
  have hafter : (log.append changes).cursors.get? clientId = some seq := hseq
  rw [(h.append changes).unread_eq hafter, h.unread_eq hseq,
    drop_append_of_le_length (h.cursor_le _ (mem_of_get? hseq))]

end Follows

end AdvanceLog

end ZeroCache.ViewSyncer
