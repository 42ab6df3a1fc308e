import ZeroCache.Lib.Result
import ZeroCache.Lib.Sorting
import ZeroCache.Replica.Store
import Mathlib.Data.List.Induction
import Mathlib.Data.List.Pairwise
import Mathlib.Data.String.Basic

/-!
# What the change log keeps

The change log has two uniqueness constraints: one entry for each version and position, and one for
each table and row key. A logged entry takes the place of every entry it clashes with. Row operations
come at positions of their own, so one of them is lost only to a later one of the same row; all
table-wide operations of a version are logged at the same position, and only the last one is left.
-/

namespace ZeroCache.Replica

open List ChangeLogEntry

/-- An operation on the log. -/
inductive LogOp where
  | set (version : String) (pos : ℤ) (table : String) (key : Fields JsonValue) (backfilled : Option (List String))
  | delete (version : String) (pos : ℤ) (table : String) (key : Fields JsonValue)
  | truncate (version table : String)
  | reset (version table : String)

/-- An entry as it is read. -/
structure ChangeLogRow where
  stateVersion : String
  pos : ℤ
  table : String
  rowKey : RowKeyText
  op : Op
  deriving DecidableEq

/-- The columns of an entry that are read. -/
def ChangeLogEntry.row (entry : ChangeLogEntry) : ChangeLogRow :=
  ⟨entry.stateVersion, entry.pos, entry.table, entry.rowKey, entry.op⟩

/-- The key as it is printed. -/
def printedKey (key : Fields JsonValue) : RowKeyText := .json (key.insertionSort (fun a b => a.1 ≤ b.1))

namespace LogOp

/-- Carry an operation out. -/
def run : LogOp → List ChangeLogEntry → Except DbError (List ChangeLogEntry)
  | .set version pos table key backfilled, log => logRowOp log version pos table key .set backfilled
  | .delete version pos table key, log => logRowOp log version pos table key .del none
  | .truncate version table, log => .ok (logTableWideOp log version table .truncate)
  | .reset version table, log => .ok (logTableWideOp log version table .reset)

/-- What an operation is read as. -/
def row : LogOp → ChangeLogRow
  | .set version pos table key _ => ⟨version, pos, table, printedKey key, .set⟩
  | .delete version pos table key => ⟨version, pos, table, printedKey key, .del⟩
  | .truncate version table => ⟨version, -1, table, .raw version, .truncate⟩
  | .reset version table => ⟨version, -1, table, .raw version, .reset⟩

/-- Whether an operation is on a whole table. -/
def tableWide : LogOp → Bool
  | .set .. => false
  | .delete .. => false
  | .truncate .. => true
  | .reset .. => true

/-- A row operation has a position and a key. -/
def Placed : LogOp → Prop
  | .set _ pos _ key _ => 0 ≤ pos ∧ key ≠ []
  | .delete _ pos _ key => 0 ≤ pos ∧ key ≠ []
  | .truncate .. => True
  | .reset .. => True

theorem pos_of_tableWide {op : LogOp} (h : op.tableWide = true) : op.row.pos = -1 := by
  cases op <;> first | rfl | cases h

theorem Placed.pos_nonneg {op : LogOp} (h : op.Placed) (hrow : op.tableWide = false) : 0 ≤ op.row.pos := by
  cases op with
  | set | delete => exact h.1
  | truncate | reset => cases hrow

end LogOp

/-- The log after operations, from an empty one. -/
def logAll (ops : List LogOp) : Except DbError (List ChangeLogEntry) := ops.foldlM (fun log op => op.run log) []

/-- Operations in the order they are logged: versions do not decrease, and the positions of row operations increase
within a version. -/
structure InOrder (ops : List LogOp) : Prop where
  placed : ∀ op ∈ ops, op.Placed
  increasing : ops.Pairwise (fun a b => a.row.stateVersion < b.row.stateVersion ∨
    a.row.stateVersion = b.row.stateVersion ∧ (a.tableWide = false → b.tableWide = false → a.row.pos < b.row.pos))

/-- The order rows are read in. -/
def ChangeLogRow.le (a b : ChangeLogRow) : Prop :=
  a.stateVersion < b.stateVersion ∨ (a.stateVersion = b.stateVersion ∧ a.pos ≤ b.pos)

instance : DecidableRel ChangeLogRow.le := fun a b => by unfold ChangeLogRow.le; infer_instance

/-- A row operation that a later one of the same row supersedes. -/
def superseded (op : LogOp) (later : List LogOp) : Bool :=
  !op.tableWide && later.any (fun other =>
    !other.tableWide && other.row.table == op.row.table && other.row.rowKey == op.row.rowKey)

/-- The latest operation of each row and every table-wide operation. -/
def latestOps : List LogOp → List ChangeLogRow
  | [] => []
  | op :: rest => if superseded op rest then latestOps rest else op.row :: latestOps rest

/-- What reading the log since a version should return. -/
def expectedSince (ops : List LogOp) (after : String) : List ChangeLogRow :=
  ((latestOps ops).filter (fun row => after < row.stateVersion)).insertionSort ChangeLogRow.le

/-- No two table-wide operations after a version share theirs. -/
def TableWideApart (ops : List LogOp) (after : String) : Prop :=
  (ops.filter (fun op => op.tableWide && after < op.row.stateVersion)).Pairwise
    (fun a b => a.row.stateVersion ≠ b.row.stateVersion)

/-! ## Clashes -/

/-- Two rows break one of the uniqueness constraints. -/
def ChangeLogRow.clashes (a b : ChangeLogRow) : Bool :=
  (a.stateVersion == b.stateVersion && a.pos == b.pos) || (a.table == b.table && a.rowKey == b.rowKey)

/-- The rows that no later one clashes with. -/
def unclashed : List LogOp → List ChangeLogRow
  | [] => []
  | op :: rest => if rest.any (fun later => later.row.clashes op.row) then unclashed rest else op.row :: unclashed rest

theorem ChangeLogRow.clashes_comm (a b : ChangeLogRow) : a.clashes b = b.clashes a := by
  rw [Bool.eq_iff_iff]
  simp only [clashes, Bool.or_eq_true, Bool.and_eq_true, beq_iff_eq]
  exact ⟨fun h => h.imp (fun h => ⟨h.1.symm, h.2.symm⟩) (fun h => ⟨h.1.symm, h.2.symm⟩),
    fun h => h.imp (fun h => ⟨h.1.symm, h.2.symm⟩) (fun h => ⟨h.1.symm, h.2.symm⟩)⟩

variable {ops : List LogOp}

theorem exists_of_mem_unclashed {row : ChangeLogRow} (h : row ∈ unclashed ops) : ∃ op ∈ ops, op.row = row := by
  induction ops with
  | nil => cases h
  | cons op rest ih =>
    rw [unclashed] at h
    split at h
    · obtain ⟨other, hmem, hrow⟩ := ih h
      exact ⟨other, mem_cons_of_mem _ hmem, hrow⟩
    · rcases mem_cons.mp h with rfl | hrest
      · exact ⟨op, mem_cons_self, rfl⟩
      · obtain ⟨other, hmem, hrow⟩ := ih hrest
        exact ⟨other, mem_cons_of_mem _ hmem, hrow⟩

theorem pairwise_unclashed (ops : List LogOp) : (unclashed ops).Pairwise (fun a b => a.clashes b = false) := by
  induction ops with
  | nil => exact List.Pairwise.nil
  | cons op rest ih =>
    rw [unclashed]
    split
    · exact ih
    · next hany =>
      refine pairwise_cons.mpr ⟨fun row hrow => ?_, ih⟩
      obtain ⟨later, hlater, rfl⟩ := exists_of_mem_unclashed hrow
      rw [ChangeLogRow.clashes_comm]
      exact Bool.eq_false_iff.mpr (fun hclash => hany (any_eq_true.mpr ⟨later, hlater, hclash⟩))

/-- A last operation takes the place of those it clashes with. -/
theorem unclashed_append (ops : List LogOp) (op : LogOp) :
    unclashed (ops ++ [op]) = (unclashed ops).filter (fun row => !op.row.clashes row) ++ [op.row] := by
  induction ops with
  | nil => simp [unclashed]
  | cons first rest ih =>
    rw [cons_append, unclashed, unclashed, ih]
    by_cases hany : rest.any (fun later => later.row.clashes first.row) = true
    · simp [hany]
    · by_cases hop : op.row.clashes first.row = true
      · simp [hany, hop]
      · simp [hany, hop]

/-! ## The log after operations -/

theorem replaceEntry_rows (log : List ChangeLogEntry) (entry : ChangeLogEntry) : (replaceEntry log entry).map row =
      (log.map row).filter (fun row => !entry.row.clashes row) ++ [entry.row] := by
  have hclash (other : ChangeLogEntry) : (!entry.sameSlot other && !entry.sameRow other) =
      !entry.row.clashes other.row := by
    rw [ChangeLogRow.clashes, Bool.not_or]
    rfl
  rw [replaceEntry, map_append, filter_map, filter_congr (fun other _ => hclash other)]
  rfl

/-- Replacing the one element that satisfies a test moves it to the end, up to the order. -/
theorem perm_replace {α : Type} {l : List α} {q : α → Bool} (hone : l.Pairwise (fun a b => q a = false ∨ q b = false))
    (hsome : l.any q = true) (a : α) : (l.map (fun x => if q x then a else x)).Perm (l.filter (fun x => !q x) ++ [a]) := by
  induction l with
  | nil => cases hsome
  | cons x rest ih =>
    obtain ⟨hx, hrest⟩ := pairwise_cons.mp hone
    cases hq : q x with
    | false =>
      have hsome' : rest.any q = true := by simpa [hq] using hsome
      simpa [hq] using ih hrest hsome'
    | true =>
      have hnone (y : α) (hy : y ∈ rest) : q y = false := (hx y hy).resolve_left (by simp [hq])
      have hmap : rest.map (fun y => if q y then a else y) = rest :=
        (map_congr_left (fun y hy => by simp [hnone y hy])).trans (map_id _)
      have hfilter : rest.filter (fun y => !q y) = rest := filter_eq_self.mpr (fun y hy => by simp [hnone y hy])
      rw [map_cons, hmap, filter_cons_of_neg (by simp [hq]), hfilter, if_pos hq]
      have hmove : ([a] ++ rest).Perm (rest ++ [a]) := perm_append_comm
      exact hmove

variable {log : List ChangeLogEntry} {op : LogOp}

/-- An upsert whose slot is free leaves the rows that a replacement would. -/
theorem upsertEntry_rows {entry : ChangeLogEntry} (hfree : ∀ other ∈ log, entry.sameSlot other = false)
    (hpairwise : (log.map row).Pairwise (fun a b => a.clashes b = false)) :
    ∃ log', upsertEntry log entry = .ok log' ∧ (log'.map row).Perm
      ((log.map row).filter (fun row => !entry.row.clashes row) ++ [entry.row]) := by
  have hslots : log.any (fun other => entry.sameSlot other && !entry.sameRow other) = false := by
    rw [any_eq_false]
    exact fun other hother => by simp [hfree other hother]
  have hclash (other : ChangeLogEntry) (hother : other ∈ log) : entry.row.clashes other.row = entry.sameRow other := by
    have hslot : (entry.row.stateVersion == other.row.stateVersion && entry.row.pos == other.row.pos) = false :=
      hfree other hother
    rw [ChangeLogRow.clashes, hslot]
    rfl
  have hfilter : (log.map row).filter (fun row => !entry.row.clashes row) =
      (log.filter (fun other => !entry.sameRow other)).map row := by
    rw [filter_map, filter_congr (q := fun other => !entry.sameRow other)]
    exact fun other hother => by simp [hclash other hother]
  rw [upsertEntry, hslots, hfilter]
  cases hany : log.any entry.sameRow with
  | false =>
    refine ⟨_, rfl, ?_⟩
    rw [map_append, filter_eq_self.mpr (fun other hother => ?_)]
    · exact List.Perm.refl _
    · simpa using any_eq_false.mp hany other hother
  | true =>
    refine ⟨_, rfl, ?_⟩
    have hone : log.Pairwise (fun a b => entry.sameRow a = false ∨ entry.sameRow b = false) := by
      refine (pairwise_map.mp hpairwise).imp_of_mem (fun {a b} ha hb hab => ?_)
      by_contra hboth
      have hsame : entry.sameRow a = true ∧ entry.sameRow b = true := by simpa using hboth
      simp only [sameRow, Bool.and_eq_true, beq_iff_eq] at hsame
      have hclashes : a.row.clashes b.row = true := by
        simp [ChangeLogRow.clashes, row, ← hsame.1.1, ← hsame.1.2, ← hsame.2.1, ← hsame.2.2]
      simp [hclashes] at hab
    have hperm := (perm_replace hone hany entry).map row
    have hrows : (log.map (fun other => if entry.sameRow other then entry.carrying other else other)).map
        row = (log.map (fun other => if entry.sameRow other then entry else other)).map
        row := by
      rw [map_map, map_map]
      refine map_congr_left (fun other _ => ?_)
      simp only [Function.comp_apply]
      split <;> rfl
    rw [map_append] at hperm
    exact (List.Perm.of_eq hrows).trans hperm

/-- Two operations in order clash when both are on the same row, or both table-wide at the same version. -/
theorem clashes_eq {a b : LogOp} (ha : a.Placed) (hb : b.Placed)
    (hab : a.row.stateVersion < b.row.stateVersion ∨ a.row.stateVersion = b.row.stateVersion ∧
      (a.tableWide = false → b.tableWide = false → a.row.pos < b.row.pos)) :
    b.row.clashes a.row = ((!a.tableWide && !b.tableWide && b.row.table == a.row.table && b.row.rowKey == a.row.rowKey) ||
      (a.tableWide && b.tableWide && b.row.stateVersion == a.row.stateVersion)) := by
  have hslot (hrows : a.tableWide = false ∧ b.tableWide = false) :
      (b.row.stateVersion == a.row.stateVersion && b.row.pos == a.row.pos) = false := by
    rw [Bool.eq_false_iff]
    intro hsame
    simp only [Bool.and_eq_true, beq_iff_eq] at hsame
    rcases hab with hlt | ⟨-, hpos⟩
    · rw [hsame.1] at hlt
      exact String.lt_irrefl _ hlt
    · have := hpos hrows.1 hrows.2
      omega
  cases a <;> cases b <;> simp_all [ChangeLogRow.clashes, LogOp.row, LogOp.tableWide, LogOp.Placed, printedKey] <;> omega

theorem normalizedKeyOrder_ok {key : Fields JsonValue} (h : key ≠ []) :
    normalizedKeyOrder key = .ok (key.insertionSort (fun a b => a.1 ≤ b.1)) := by
  have hempty : key.isEmpty = false := by simpa using h
  rw [normalizedKeyOrder, hempty]
  rfl

/-- The slot of a next row operation is free. -/
theorem slot_free (horder : InOrder (ops ++ [op]))
    (hrow : op.tableWide = false) (hlog : (log.map row).Perm (unclashed ops)) :
    ∀ other ∈ log, ¬ (op.row.stateVersion = other.row.stateVersion ∧ op.row.pos = other.row.pos) := by
  rintro other hother ⟨hversion, hpos⟩
  obtain ⟨earlier, hmem, heq⟩ := exists_of_mem_unclashed (hlog.mem_iff.mp (mem_map_of_mem hother))
  rw [← heq] at hversion hpos
  have hplaced := horder.placed op (by simp)
  rcases (pairwise_append.mp horder.increasing).2.2 earlier hmem op (by simp) with hlt | ⟨-, hincreasing⟩
  · rw [hversion] at hlt
    exact String.lt_irrefl _ hlt
  · cases hwide : earlier.tableWide with
    | false =>
      have := hincreasing hwide hrow
      omega
    | true =>
      have hnonneg := hplaced.pos_nonneg hrow
      have hminus := LogOp.pos_of_tableWide hwide
      omega

/-- An operation leaves the rows that no later one clashes with. -/
theorem run_rows (horder : InOrder (ops ++ [op])) (hlog : (log.map row).Perm (unclashed ops)) :
    ∃ log', op.run log = .ok log' ∧ (log'.map row).Perm (unclashed (ops ++ [op])) := by
  have hplaced := horder.placed op (by simp)
  have hfiltered : ((log.map row).filter (fun row => !op.row.clashes row) ++ [op.row]).Perm
      (unclashed (ops ++ [op])) := by
    rw [unclashed_append]
    exact (hlog.filter _).append_right _
  have hpairwise : (log.map row).Pairwise (fun a b => a.clashes b = false) :=
    (hlog.pairwise_iff (fun {a b} hab => by rwa [ChangeLogRow.clashes_comm])).mpr (pairwise_unclashed ops)
  cases op with
  | set version pos table key backfilled =>
    rw [LogOp.run, logRowOp, normalizedKeyOrder_ok hplaced.2]
    cases backfilled with
    | none => exact ⟨_, rfl, by rw [replaceEntry_rows]; exact hfiltered⟩
    | some columns =>
      let entry : ChangeLogEntry :=
        { stateVersion := version, pos := pos, table := table,
          rowKey := .json (key.insertionSort (fun a b => a.1 ≤ b.1)), op := .set,
          backfillingColumnVersions := columns.map (fun c => (c, version)) }
      have hfree : ∀ other ∈ log, entry.sameSlot other = false := by
        intro other hother
        rw [Bool.eq_false_iff]
        intro hsame
        simp only [sameSlot, Bool.and_eq_true, beq_iff_eq] at hsame
        exact slot_free horder rfl hlog other hother hsame
      obtain ⟨log', hupsert, hrows⟩ := upsertEntry_rows hfree hpairwise
      exact ⟨log', hupsert, hrows.trans hfiltered⟩
  | delete =>
    rw [LogOp.run, logRowOp, normalizedKeyOrder_ok hplaced.2]
    exact ⟨_, rfl, by rw [replaceEntry_rows]; exact hfiltered⟩
  | truncate => exact ⟨_, rfl, by rw [logTableWideOp, replaceEntry_rows]; exact hfiltered⟩
  | reset => exact ⟨_, rfl, by rw [logTableWideOp, replaceEntry_rows]; exact hfiltered⟩

theorem InOrder.of_append {later : List LogOp} (h : InOrder (ops ++ later)) : InOrder ops :=
  ⟨fun op hop => h.placed op (mem_append_left _ hop), (pairwise_append.mp h.increasing).1⟩

/-- Operations in order are all logged, and leave the rows that no later one clashes with. -/
theorem logAll_rows (ops : List LogOp) (horder : InOrder ops) :
    ∃ log, logAll ops = .ok log ∧ (log.map row).Perm (unclashed ops) := by
  induction ops using reverseRecOn with
  | nil => exact ⟨[], rfl, List.Perm.refl _⟩
  | append_singleton ops op ih =>
    obtain ⟨log, hlog, hrows⟩ := ih horder.of_append
    obtain ⟨log', hrun, hrows'⟩ := run_rows horder hrows
    refine ⟨log', ?_, hrows'⟩
    rw [logAll, foldlM_append]
    change (logAll ops >>= fun log => [op].foldlM (fun log op => op.run log) log) = _
    rw [hlog]
    change (op.run log >>= fun log => .ok log) = _
    rw [hrun]
    rfl

/-! ## Reading -/

theorem ChangeLogRow.le_total {a b : ChangeLogRow} (h : ¬ a.le b) : b.le a := by
  obtain ⟨hlt, hpos⟩ := not_or.mp h
  rcases lt_trichotomy a.stateVersion b.stateVersion with hless | heq | hgreater
  · exact absurd hless hlt
  · refine .inr ⟨heq.symm, ?_⟩
    have : ¬ a.pos ≤ b.pos := fun hle => hpos ⟨heq, hle⟩
    omega
  · exact .inl hgreater

theorem ChangeLogRow.le_trans {a b c : ChangeLogRow} (hab : a.le b) (hbc : b.le c) : a.le c := by
  rcases hab with hlt | ⟨heq, hle⟩
  · rcases hbc with hlt' | ⟨heq', -⟩
    · exact .inl (String.lt_trans hlt hlt')
    · exact .inl (heq' ▸ hlt)
  · rcases hbc with hlt' | ⟨heq', hle'⟩
    · exact .inl (heq ▸ hlt')
    · exact .inr ⟨heq.trans heq', hle.trans hle'⟩

/-- Rows that differ up to order only, and none of which clash, are sorted alike. -/
theorem insertionSort_rows_eq {l l' : List ChangeLogRow} (hperm : l.Perm l')
    (hapart : l.Pairwise (fun a b => a.clashes b = false)) :
    l.insertionSort ChangeLogRow.le = l'.insertionSort ChangeLogRow.le := by
  have hsorted (l : List ChangeLogRow) : (l.insertionSort ChangeLogRow.le).Pairwise ChangeLogRow.le :=
    Lib.pairwise_insertionSort_of (fun a _ b _ h => ChangeLogRow.le_total h)
      (fun a _ b _ c _ hab hbc => ChangeLogRow.le_trans hab hbc)
  have hp := (perm_insertionSort ChangeLogRow.le l).trans
    (hperm.trans (perm_insertionSort ChangeLogRow.le l').symm)
  refine List.Perm.eq_of_pairwise (fun a b ha hb hab hba => ?_) (hsorted l) (hsorted l') hp
  by_contra hne
  have hamem : a ∈ l := (perm_insertionSort _ l).mem_iff.mp ha
  have hbmem : b ∈ l := hperm.mem_iff.mpr ((perm_insertionSort _ l').mem_iff.mp hb)
  have : Std.Symm (fun a b : ChangeLogRow => a.clashes b = false) := ⟨fun a b h => by rwa [ChangeLogRow.clashes_comm]⟩
  have hclash : a.clashes b = false := hapart.forall hamem hbmem hne
  have hslot : a.stateVersion = b.stateVersion ∧ a.pos = b.pos := by
    rcases hab with hlt | ⟨heq, hle⟩
    · rcases hba with hlt' | ⟨heq', -⟩
      · exact absurd (String.lt_trans hlt hlt') (String.lt_irrefl _)
      · rw [heq'] at hlt
        exact absurd hlt (String.lt_irrefl _)
    · rcases hba with hlt' | ⟨-, hle'⟩
      · rw [heq] at hlt'
        exact absurd hlt' (String.lt_irrefl _)
      · exact ⟨heq, by omega⟩
  simp [ChangeLogRow.clashes, hslot.1, hslot.2] at hclash

/-- A later operation clashes with one in order when it supersedes it, or is table-wide at its version as well. -/
theorem any_clashes_iff {rest : List LogOp} (horder : InOrder (op :: rest)) :
    rest.any (fun later => later.row.clashes op.row) = true ↔ superseded op rest = true ∨
        op.tableWide = true ∧ ∃ later ∈ rest, later.tableWide = true ∧ later.row.stateVersion = op.row.stateVersion := by
  have hclash (later : LogOp) (hlater : later ∈ rest) := clashes_eq (horder.placed op mem_cons_self)
    (horder.placed later (mem_cons_of_mem _ hlater)) ((pairwise_cons.mp horder.increasing).1 later hlater)
  rw [Lib.any_congr_mem hclash, any_eq_true]
  cases hwide : op.tableWide with
  | false =>
    simp only [superseded, hwide, Bool.not_false, Bool.true_and, Bool.false_and, Bool.or_false,
      Bool.false_eq_true, false_and, or_false, any_eq_true]
  | true =>
    simp only [superseded, hwide, Bool.not_true, Bool.false_and, Bool.false_or, Bool.and_eq_true, beq_iff_eq,
      Bool.false_eq_true, false_or, true_and]

theorem InOrder.tail {rest : List LogOp} (h : InOrder (op :: rest)) : InOrder rest :=
  ⟨fun later hlater => h.placed later (mem_cons_of_mem _ hlater), (pairwise_cons.mp h.increasing).2⟩

theorem unclashed_sublist (horder : InOrder ops) : (unclashed ops).Sublist (latestOps ops) := by
  induction ops with
  | nil => exact List.Sublist.slnil
  | cons op rest ih =>
    rw [unclashed, latestOps]
    split
    · split
      · exact ih horder.tail
      · exact (ih horder.tail).cons _
    · next hany =>
      have hnot : ¬ superseded op rest = true := fun h => hany ((any_clashes_iff horder).mpr (.inl h))
      rw [if_neg hnot]
      exact (ih horder.tail).cons_cons _

/-- Nothing that should be read is lost exactly when no two table-wide operations share a version. -/
theorem filter_unclashed_eq_iff (horder : InOrder ops) (after : String) :
    (unclashed ops).filter (fun row => after < row.stateVersion) =
      (latestOps ops).filter (fun row => after < row.stateVersion) ↔ TableWideApart ops after := by
  induction ops with
  | nil => simp [unclashed, latestOps, TableWideApart]
  | cons op rest ih =>
    have ih := ih horder.tail
    have hsublist : ((unclashed rest).filter (fun row => after < row.stateVersion)).length ≤
        ((latestOps rest).filter (fun row => after < row.stateVersion)).length :=
      ((unclashed_sublist horder.tail).filter _).length_le
    rw [unclashed, latestOps, TableWideApart, filter_cons]
    unfold TableWideApart at ih
    by_cases hsuperseded : superseded op rest = true
    · have hwide : op.tableWide = false := by
        cases hwide : op.tableWide with
        | false => rfl
        | true => simp [superseded, hwide] at hsuperseded
      rw [if_pos ((any_clashes_iff horder).mpr (.inl hsuperseded)), if_pos hsuperseded, ih]
      simp [hwide]
    · rw [if_neg hsuperseded]
      by_cases hread : after < op.row.stateVersion
      · by_cases hany : rest.any (fun later => later.row.clashes op.row) = true
        · -- The operation is lost to a later one at its position.
          obtain ⟨hwide, later, hlater, hlaterWide, hversion⟩ :=
            ((any_clashes_iff horder).mp hany).resolve_left hsuperseded
          rw [if_pos hany, filter_cons_of_pos (by simpa using hread)]
          simp only [hwide, hread, decide_true, Bool.and_self, if_true, pairwise_cons]
          constructor
          · intro heq
            have hlength := congrArg length heq
            rw [length_cons] at hlength
            omega
          · rintro ⟨hapart, -⟩
            exact absurd hversion.symm (hapart later (mem_filter.mpr ⟨hlater, by simp [hlaterWide, hversion, hread]⟩))
        · rw [if_neg hany, filter_cons_of_pos (by simpa using hread), filter_cons_of_pos (by simpa using hread),
            cons_inj_right, ih]
          cases hwide : op.tableWide with
          | false => simp
          | true =>
            simp only [hread, decide_true, Bool.and_self, if_true, pairwise_cons]
            refine ⟨fun h => ⟨fun later hlater heq => hany ((any_clashes_iff horder).mpr (.inr ⟨hwide, later, ?_⟩)), h⟩,
              fun h => h.2⟩
            obtain ⟨hmem, htest⟩ := mem_filter.mp hlater
            exact ⟨hmem, by simp_all⟩
      · have hskip (rows : List ChangeLogRow) : (op.row :: rows).filter (fun row => decide (after < row.stateVersion)) =
            rows.filter (fun row => decide (after < row.stateVersion)) := filter_cons_of_neg (by simpa using hread)
        rw [hskip, apply_ite (filter _), hskip, ite_self, ih]
        simp [hread]

theorem readSince_rows (log : List ChangeLogEntry) (after : String) : (readSince log after).map row =
      ((log.map row).filter (fun row => after < row.stateVersion)).insertionSort ChangeLogRow.le := by
  rw [filter_map]
  exact map_insertionSort le ChangeLogRow.le row _ (fun a _ b _ => Iff.rfl)

/-- Reading the log returns what it should exactly when no two table-wide operations after the version share theirs. -/
theorem readSince_eq_expected_iff (ops : List LogOp) (horder : InOrder ops) (after : String) :
    (∃ log, logAll ops = .ok log ∧ (readSince log after).map ChangeLogEntry.row = expectedSince ops after) ↔
      TableWideApart ops after := by
  obtain ⟨log, hlog, hrows⟩ := logAll_rows ops horder
  have hfiltered := hrows.filter (fun row => after < row.stateVersion)
  have hread : (readSince log after).map row =
      ((unclashed ops).filter (fun row => after < row.stateVersion)).insertionSort ChangeLogRow.le := by
    rw [readSince_rows]
    refine insertionSort_rows_eq hfiltered ?_
    exact (hfiltered.pairwise_iff (fun {a b} hab => by rwa [ChangeLogRow.clashes_comm])).mpr
      ((pairwise_unclashed ops).filter _)
  rw [← filter_unclashed_eq_iff horder]
  constructor
  · rintro ⟨log', hlog', hexpected⟩
    obtain rfl : log = log' := Except.ok.inj (hlog.symm.trans hlog')
    rw [hread, expectedSince] at hexpected
    have hlength : ((unclashed ops).filter (fun row => after < row.stateVersion)).length =
        ((latestOps ops).filter (fun row => after < row.stateVersion)).length := by
      simpa using congrArg length hexpected
    exact ((unclashed_sublist horder).filter _).eq_of_length hlength
  · intro heq
    exact ⟨log, hlog, by rw [hread, heq, expectedSince]⟩

/-- An issue is set, its table truncated, and the issue deleted. -/
def loggedIssue : List LogOp :=
  [.set "01" 0 "issue" [("id", .string "i1")] none, .truncate "01" "issue", .delete "02" 0 "issue" [("id", .string "i1")]]

theorem readSince_expected_loggedIssue : InOrder loggedIssue ∧ ∃ log, logAll loggedIssue = .ok log ∧
      (readSince log "00").map ChangeLogEntry.row = expectedSince loggedIssue "00" := by
  have horder : InOrder loggedIssue := ⟨by simp [loggedIssue, LogOp.Placed], by unfold loggedIssue; decide⟩
  refine ⟨horder, (readSince_eq_expected_iff loggedIssue horder "00").mpr ?_⟩
  unfold TableWideApart loggedIssue
  decide

/-- Two tables truncated in one transaction. -/
def truncatedPair : List LogOp := [.truncate "01" "issue", .truncate "01" "comment"]

/-- The second truncation takes the place of the first, whose table is never reported. -/
theorem not_expected_truncatedPair : InOrder truncatedPair ∧ ∃ log, logAll truncatedPair = .ok log ∧
      (readSince log "00").map ChangeLogEntry.row = [⟨"01", -1, "comment", .raw "01", .truncate⟩] ∧
      expectedSince truncatedPair "00" =
        [⟨"01", -1, "issue", .raw "01", .truncate⟩, ⟨"01", -1, "comment", .raw "01", .truncate⟩] := by
  refine ⟨⟨by simp [truncatedPair, LogOp.Placed], by unfold truncatedPair; decide⟩, _, rfl, ?_, ?_⟩
  · rfl
  · rfl

end ZeroCache.Replica
