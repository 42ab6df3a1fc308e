import ZeroCache.Zql.SqliteSource
import Mathlib.Data.Finset.Card

/-!
# Replaying changes

What a consumer of an operator does with the changes pushed to it: it keeps a set of rows, and every
change must fit. A row that is added must be absent, a row that is removed or edited must be present.
-/

namespace ZeroCache.Zql

open List Finset

namespace SourceChange

/-- The rows after a change, if it fits. -/
def replay (rows : Finset Row) : SourceChange → Option (Finset Row)
  | add row => if row ∈ rows then none else some (insert row rows)
  | remove row => if row ∈ rows then some (rows.erase row) else none
  | edit row oldRow =>
    if oldRow ∈ rows ∧ row ∉ rows.erase oldRow then some (insert row (rows.erase oldRow)) else none

/-- The rows after changes, if each of them fits. -/
def replayAll (rows : Finset Row) (changes : List SourceChange) : Option (Finset Row) :=
  changes.foldlM replay rows

/-- Changes lead from one set of rows to another, each fits and no prefix of them exceeds a limit. -/
def Leads (limit : ℕ) (rows : Finset Row) (changes : List SourceChange) (rows' : Finset Row) : Prop :=
  replayAll rows changes = some rows' ∧
    ∀ shorter, shorter <+: changes → ∃ reached, replayAll rows shorter = some reached ∧ reached.card ≤ limit

theorem replayAll_cons (rows : Finset Row) (change : SourceChange) (changes : List SourceChange) :
    replayAll rows (change :: changes) = (replay rows change).bind (fun rows => replayAll rows changes) := rfl

theorem replayAll_append (rows : Finset Row) (changes more : List SourceChange) :
    replayAll rows (changes ++ more) = (replayAll rows changes).bind (fun rows => replayAll rows more) :=
  foldlM_append

theorem leads_nil {limit : ℕ} {rows : Finset Row} (h : rows.card ≤ limit) : Leads limit rows [] rows := by
  refine ⟨rfl, fun shorter hshorter => ⟨rows, ?_, h⟩⟩
  rw [prefix_nil.mp hshorter]
  rfl

/-- A change in front of changes. -/
theorem Leads.cons {limit : ℕ} {rows mid rows' : Finset Row} {change : SourceChange} {changes : List SourceChange}
    (hcard : rows.card ≤ limit) (hchange : replay rows change = some mid) (h : Leads limit mid changes rows') :
    Leads limit rows (change :: changes) rows' := by
  refine ⟨by rw [replayAll_cons, hchange]; exact h.1, fun shorter hshorter => ?_⟩
  rcases prefix_cons_iff.mp hshorter with rfl | ⟨rest, rfl, hrest⟩
  · exact ⟨rows, rfl, hcard⟩
  · rw [replayAll_cons, hchange]
    exact h.2 rest hrest

/-- Changes after changes. -/
theorem Leads.append {limit : ℕ} {rows mid rows' : Finset Row} {changes more : List SourceChange}
    (h : Leads limit rows changes mid) (h' : Leads limit mid more rows') : Leads limit rows (changes ++ more) rows' := by
  refine ⟨by rw [replayAll_append, h.1]; exact h'.1, fun shorter hshorter => ?_⟩
  rcases prefix_or_prefix_of_prefix hshorter (prefix_append changes more) with hle | ⟨rest, rfl⟩
  · exact h.2 shorter hle
  · rw [replayAll_append, h.1]
    exact h'.2 rest ((prefix_append_right_inj changes).mp hshorter)

/-! ## Rows given as lists -/

variable {rows rest : List Row} {row oldRow : Row}

theorem replay_add (hrow : row ∉ rows) : replay rows.toFinset (add row) = some (row :: rows).toFinset := by
  rw [replay, if_neg (by simpa using hrow), toFinset_cons]

theorem replay_remove (hperm : rows.Perm (oldRow :: rest)) (hrow : oldRow ∉ rest) :
    replay rows.toFinset (remove oldRow) = some rest.toFinset := by
  rw [replay, toFinset_eq_of_perm _ _ hperm, toFinset_cons, if_pos (mem_insert_self _ _),
    erase_insert (by simpa using hrow)]

theorem replay_edit (hperm : rows.Perm (oldRow :: rest)) (hold : oldRow ∉ rest) (hrow : row ∉ rest) :
    replay rows.toFinset (edit row oldRow) = some (row :: rest).toFinset := by
  rw [replay, toFinset_eq_of_perm _ _ hperm, toFinset_cons, erase_insert (by simpa using hold),
    if_pos ⟨mem_insert_self _ _, by simpa using hrow⟩, toFinset_cons]

/-! ## Single changes and replacements -/

variable {limit : ℕ} {rows' : List Row}

theorem card_toFinset_le (hlength : rows.length ≤ limit) : rows.toFinset.card ≤ limit :=
  (toFinset_card_le rows).trans hlength

theorem not_mem_of_perm (hnodup : rows.Nodup) (hperm : rows.Perm (row :: rest)) : row ∉ rest :=
  (nodup_cons.mp (hperm.nodup_iff.mp hnodup)).1

theorem leads_add (hnodup : rows'.Nodup) (hperm : rows'.Perm (row :: rows)) (hlength : rows'.length ≤ limit) :
    Leads limit rows.toFinset [add row] rows'.toFinset := by
  have hlength' : rows.length ≤ limit := by
    have := hperm.length_eq
    rw [length_cons] at this
    omega
  refine .cons (card_toFinset_le hlength') (replay_add (not_mem_of_perm hnodup hperm)) ?_
  rw [toFinset_eq_of_perm _ _ hperm.symm]
  exact leads_nil (card_toFinset_le hlength)

theorem leads_remove (hnodup : rows.Nodup) (hperm : rows.Perm (oldRow :: rows')) (hlength : rows.length ≤ limit) :
    Leads limit rows.toFinset [remove oldRow] rows'.toFinset := by
  have hlength' : rows'.length ≤ limit := by
    have := hperm.length_eq
    rw [length_cons] at this
    omega
  exact .cons (card_toFinset_le hlength) (replay_remove hperm (not_mem_of_perm hnodup hperm))
    (leads_nil (card_toFinset_le hlength'))

section

variable (hnodup : rows.Nodup) (hnodup' : rows'.Nodup) (hold : rows.Perm (oldRow :: rest))
  (hnew : rows'.Perm (row :: rest)) (hlength : rows.length ≤ limit)

include hnodup hnodup' hold hnew hlength

theorem leads_edit : Leads limit rows.toFinset [edit row oldRow] rows'.toFinset := by
  have hlength' : rows'.length ≤ limit := by
    rw [hnew.length_eq, length_cons, ← @length_cons _ oldRow, ← hold.length_eq]
    exact hlength
  refine .cons (card_toFinset_le hlength)
    (replay_edit hold (not_mem_of_perm hnodup hold) (not_mem_of_perm hnodup' hnew)) ?_
  rw [toFinset_eq_of_perm _ _ hnew.symm]
  exact leads_nil (card_toFinset_le hlength')

/-- A row is removed before another takes its place. -/
theorem leads_replace : Leads limit rows.toFinset [remove oldRow, add row] rows'.toFinset := by
  have hlength' : rows'.length ≤ limit := by
    rw [hnew.length_eq, length_cons, ← @length_cons _ oldRow, ← hold.length_eq]
    exact hlength
  exact .cons (card_toFinset_le hlength) (replay_remove hold (not_mem_of_perm hnodup hold))
    (leads_add hnodup' hnew hlength')

end

end SourceChange

end ZeroCache.Zql
