import ZeroCache.Zql.Operator

/-!
# Sources with pending changes

While the changes of a commit are pushed through a pipeline its sources still read the snapshot before
the commit, and lay the changes pushed so far over what they read (`sqlite_source.rs`). A read is one
SELECT (`sqlite_table_source.rs`, `build_select_query`): the rows that match the constraint, each batch
of constraints and the start, in the order of the source or in reverse. The change is filtered by the
request and spliced in: the row it removes is dropped, the row it adds is put at its place in the order.
`none` is a panic.
-/

namespace ZeroCache.Zql

open List Option Zql

/-! ## Requests -/

/-- What is fetched from an input. -/
structure FetchRequest where
  constraint : Option Constraint
  multiConstraints : List (List Constraint)
  start : Option Start
  reverse : Bool

/-- The request for everything in order. -/
def FetchRequest.all : FetchRequest := ⟨none, [], none, false⟩

/-- The other direction. -/
def flip : SortDirection → SortDirection
  | .asc => .desc
  | .desc => .asc

/-- The order rows are read in (`order_by_to_sql`). -/
def readOrder (sort : QueryOrdering) (reverse : Bool) : QueryOrdering :=
  if reverse then sort.map (fun entry => (entry.1, flip entry.2)) else sort

/-- The comparison of rows by the order of a source, in either direction (`make_comparator`). -/
def compareFor (sort : QueryOrdering) (reverse : Bool) (a b : Row) : Option Ordering :=
  (compareRows sort a b).map (fun result => if reverse then result.swap else result)

/-- Comparing in reverse is comparing by the reversed order. -/
theorem compareFor_eq (sort : QueryOrdering) (reverse : Bool) (a b : Row) :
    compareFor sort reverse a b = compareRows (readOrder sort reverse) a b := by
  cases reverse with
  | false => simp [compareFor, readOrder]
  | true =>
    simp only [compareFor, readOrder, if_true]
    induction sort with
    | nil => rfl
    | cons entry rest ih =>
      obtain ⟨field, direction⟩ := entry
      simp only [compareRows, map_cons]
      cases compareValues (a.get field) (b.get field) with
      | none => rfl
      | some result =>
        cases result with
        | eq => exact ih
        | lt | gt => cases direction <;> rfl

/-- A row matches a constraint of every batch; an empty batch asks for nothing. -/
def matchesBatches (batches : List (List Constraint)) (row : Row) : Bool :=
  batches.all (fun batch => batch.isEmpty || batch.any (fun constraint => constraintMatches (some constraint) row))

/-- A row matches the constraints of a request. -/
def FetchRequest.matches (req : FetchRequest) (row : Row) : Bool :=
  constraintMatches req.constraint row && matchesBatches req.multiConstraints row

/-! ## Committed rows -/

/-- A source: its columns, its key and its order. -/
structure SourceSchema where
  columns : List String
  primaryKey : List String
  sort : QueryOrdering

/-- The entries of a batch have the same columns, at least one, and all are known (`multi_constraint_to_sql`). -/
def batchShaped (columns : List String) : List Constraint → Bool
  | [] => true
  | first :: rest =>
    let keys := first.map Prod.fst
    !keys.isEmpty && keys.all (· ∈ columns) &&
      rest.all (fun entry => entry.length = keys.length && keys.all (· ∈ entry.map Prod.fst))

/-- A request can be compiled: it names columns of the source, and a start needs an order. -/
def SourceSchema.accepts (schema : SourceSchema) (req : FetchRequest) : Bool :=
  (match req.constraint with
    | none => true
    | some constraint => constraint.all (·.1 ∈ schema.columns)) &&
  req.multiConstraints.all (batchShaped schema.columns) &&
  (match req.start with
    | none => true
    | some start => !schema.sort.isEmpty && (namedPart schema.sort start.row).all (·.1 ∈ schema.columns))

/-- The committed rows a request selects, in the order asked for (`SqliteTableSource::fetch`). -/
def SourceSchema.read (schema : SourceSchema) (rows : List Row) (req : FetchRequest) : Option (List Row) :=
  if schema.accepts req then
    some (readRows (rows.filter (matchesBatches req.multiConstraints)) (readOrder schema.sort req.reverse) req.constraint
      req.start)
  else none

/-! ## Changes -/

/-- A change to the rows of a source. -/
inductive SourceChange where
  | add (row : Row)
  | remove (row : Row)
  | edit (row oldRow : Row)
  deriving DecidableEq

namespace SourceChange

/-- The row a change adds. -/
def added : SourceChange → Option Row
  | add row => some row
  | remove _ => none
  | edit row _ => some row

/-- The row a change removes. -/
def removed : SourceChange → Option Row
  | add _ => none
  | remove row => some row
  | edit _ oldRow => some oldRow

/-- The rows of a table after a change. -/
def apply (rows : List Row) (change : SourceChange) : List Row :=
  match change with
  | add row => rows ++ [row]
  | remove row => rows.erase row
  | edit row oldRow => rows.erase oldRow ++ [row]

end SourceChange

namespace SourceSchema

variable (schema : SourceSchema)

/-- Rows of the same key, or of the same place in the order if there is no key. -/
def same (reverse : Bool) (a b : Row) : Option Bool :=
  if schema.primaryKey.isEmpty then (compareFor schema.sort reverse a b).map (· = .eq)
  else some (schema.primaryKey.all (fun key => Assoc.get? a key = Assoc.get? b key))

/-- Whether a request keeps the row of a pending change: it is not before the start and matches. -/
def keeps (req : FetchRequest) (row : Row) : Option Bool := do
  let fromStart ← match req.start with
    | none => some true
    | some start => (compareFor schema.sort req.reverse row start.row).map (· ≠ .lt)
  return fromStart && req.matches row

/-- The row of a pending change, if the request keeps it. -/
def kept (req : FetchRequest) : Option Row → Option (Option Row)
  | none => some none
  | some row => (schema.keeps req row).map (fun keeps => if keeps then some row else none)

/-- Drop the first row that is the same as a row. -/
def dropSame (reverse : Bool) (row : Row) : List Row → Option (List Row)
  | [] => some []
  | first :: rest => do
    if ← schema.same reverse first row then return rest
    else return first :: (← dropSame reverse row rest)

/-- Put a row after the rows that are before it. -/
def splice (reverse : Bool) (row : Row) : List Row → Option (List Row)
  | [] => some [row]
  | first :: rest => do
    if (← compareFor schema.sort reverse first row) = .lt then return first :: (← splice reverse row rest)
    else return row :: first :: rest

/-- Suppress the row a change removes. -/
def suppress (reverse : Bool) (work : List Row) : Option Row → Option (List Row)
  | none => some work
  | some row => schema.dropSame reverse row work

/-- Put the row a change adds at its place, in the place of a row that is the same. -/
def inject (reverse : Bool) (work : List Row) : Option Row → Option (List Row)
  | none => some work
  | some row => do schema.splice reverse row (← schema.dropSame reverse row work)

/-- One pending change laid over the rows of a fetch. -/
def overlayChange (req : FetchRequest) (work : List Row) (change : SourceChange) : Option (List Row) := do
  let add ← schema.kept req change.added
  let remove ← schema.kept req change.removed
  schema.inject req.reverse (← schema.suppress req.reverse work remove) add

/-- Pending changes laid over the rows of a fetch, in the order they were pushed (`apply_overlay`). -/
def applyOverlay (req : FetchRequest) (work : List Row) (overlay : List SourceChange) : Option (List Row) :=
  overlay.foldlM (schema.overlayChange req) work

/-- The rows of a fetch (`SqliteSource::fetch`). -/
def fetch (rows : List Row) (overlay : List SourceChange) (req : FetchRequest) : Option (List Row) := do
  schema.applyOverlay req (← schema.read rows req) overlay

end SourceSchema

/-! ## Reversed orders -/

variable {rows : List Row}

theorem SortsApart.readOrder {sort : QueryOrdering} (h : SortsApart sort rows) (reverse : Bool) :
    SortsApart (readOrder sort reverse) rows := by
  intro a ha b hb
  obtain ⟨result, hresult, heq⟩ := h a ha b hb
  rw [← compareFor_eq, compareFor, hresult]
  refine ⟨_, rfl, ?_⟩
  cases reverse with
  | false => exact heq
  | true =>
    cases result <;> simp_all

theorem SortsApart.subset {order : QueryOrdering} {rows' : List Row} (h : SortsApart order rows)
    (hsubset : rows' ⊆ rows) : SortsApart order rows' := fun a ha b hb => h a (hsubset ha) b (hsubset hb)

/-! ## What a fetch selects -/

namespace SourceSchema

variable {schema : SourceSchema} {rows : List Row} {req : FetchRequest} {change : SourceChange}

/-- A row is not before the start of a request. -/
def startKeeps (schema : SourceSchema) (req : FetchRequest) (row : Row) : Bool :=
  match req.start with
  | none => true
  | some start => compareRows (readOrder schema.sort req.reverse) row start.row ≠ some .lt

/-- A request selects a row. -/
def selects (schema : SourceSchema) (req : FetchRequest) (row : Row) : Bool :=
  req.matches row && startMatches (readOrder schema.sort req.reverse) req.start row

theorem read_eq (h : schema.accepts req = true) : ∃ out, schema.read rows req = some out ∧
    (∀ row, row ∈ out ↔ row ∈ rows ∧ schema.selects req row = true) ∧
    (SortsApart schema.sort rows → out.Pairwise (Before (readOrder schema.sort req.reverse))) := by
  refine ⟨_, by rw [read, if_pos h], fun row => ?_, fun hapart => ?_⟩
  · rw [mem_readRows, mem_filter, selects, FetchRequest.matches, Bool.and_eq_true, Bool.and_eq_true]
    tauto
  · exact readRows_sorted ((hapart.subset filter_sublist.subset).readOrder req.reverse)

theorem same_eq (schema : SourceSchema) (reverse : Bool) (a b : Row) : schema.same reverse a b = schema.same false a b := by
  unfold same
  split
  · simp only [compareFor, Option.map_map]
    congr 1
    funext result
    cases reverse <;> cases result <;> rfl
  · rfl

/-- Erasing the only element with a property. -/
theorem mem_eraseP_of_unique {α : Type} {p : α → Bool} {l : List α} (hnodup : l.Nodup)
    (hunique : ∀ a ∈ l, ∀ b ∈ l, p a = true → p b = true → a = b) {x : α} : x ∈ l.eraseP p ↔ x ∈ l ∧ p x = false := by
  induction l with
  | nil => simp
  | cons first rest ih =>
    obtain ⟨hfirst, hrest⟩ := nodup_cons.mp hnodup
    have ih := ih hrest (fun a ha b hb => hunique a (mem_cons_of_mem _ ha) b (mem_cons_of_mem _ hb))
    cases hp : p first with
    | true =>
      rw [eraseP_cons_of_pos hp, mem_cons]
      constructor
      · intro hx
        refine ⟨.inr hx, ?_⟩
        rw [← Bool.not_eq_true]
        intro hpx
        exact hfirst (hunique x (mem_cons_of_mem _ hx) first mem_cons_self hpx hp ▸ hx)
      · rintro ⟨rfl | hx, hpx⟩
        · rw [hp] at hpx
          cases hpx
        · exact hx
    | false =>
      rw [eraseP_cons_of_neg (by simp [hp]), mem_cons, mem_cons, ih]
      constructor
      · rintro (rfl | ⟨hx, hpx⟩)
        · exact ⟨.inl rfl, hp⟩
        · exact ⟨.inr hx, hpx⟩
      · rintro ⟨rfl | hx, hpx⟩
        · exact .inl rfl
        · exact .inr ⟨hx, hpx⟩

variable {reverse : Bool} {row : Row} {work : List Row}

theorem dropSame_eq (h : ∀ other ∈ work, ∃ result, schema.same false other row = some result) :
    schema.dropSame reverse row work = some (work.eraseP (fun other => schema.same false other row = some true)) := by
  induction work with
  | nil => rfl
  | cons first rest ih =>
    obtain ⟨result, hresult⟩ := h first mem_cons_self
    have ih := ih (fun other hother => h other (mem_cons_of_mem _ hother))
    rw [dropSame, same_eq]
    cases result with
    | true => simp [hresult]
    | false => simp [hresult, ih]

/-- A row is put at its place in the order. -/
theorem splice_eq (hsorted : work.Pairwise (Before (readOrder schema.sort reverse)))
    (h : ∀ other ∈ work, Before (readOrder schema.sort reverse) other row ∨
      Before (readOrder schema.sort reverse) row other) :
    ∃ out, schema.splice reverse row work = some out ∧ out.Pairwise (Before (readOrder schema.sort reverse)) ∧
      ∀ other, other ∈ out ↔ other = row ∨ other ∈ work := by
  induction work with
  | nil => exact ⟨[row], rfl, by simp, by simp⟩
  | cons first rest ih =>
    obtain ⟨hfirst, hrest⟩ := pairwise_cons.mp hsorted
    rw [splice, compareFor_eq]
    rcases h first mem_cons_self with hlt | hgt
    · obtain ⟨out, hout, hsortedOut, hmem⟩ := ih hrest (fun other hother => h other (mem_cons_of_mem _ hother))
      refine ⟨first :: out, ?_, ?_, ?_⟩
      · rw [show compareRows _ first row = some .lt from hlt, hout]
        rfl
      · refine pairwise_cons.mpr ⟨fun other hother => ?_, hsortedOut⟩
        rcases (hmem other).mp hother with rfl | hother
        · exact hlt
        · exact hfirst other hother
      · simp only [mem_cons, hmem]
        tauto
    · refine ⟨row :: first :: rest, ?_, ?_, by simp⟩
      · have hcompare : compareRows (readOrder schema.sort reverse) first row = some .gt := by
          rw [compareRows_swap, show compareRows _ row first = some .lt from hgt]
          rfl
        rw [hcompare]
        rfl
      · refine pairwise_cons.mpr ⟨fun other hother => ?_, hsorted⟩
        rcases mem_cons.mp hother with rfl | hother
        · exact hgt
        · exact hgt.trans (hfirst other hother)

/-- A change of a table whose rows are told apart by their key and by the order: it removes a row of the
table and adds one whose key no other row has, and the rows can be compared with the start of the request. -/
structure Pending (schema : SourceSchema) (rows : List Row) (req : FetchRequest) (change : SourceChange) : Prop where
  nodup : rows.Nodup
  apart : SortsApart schema.sort (rows ++ change.added.toList)
  keyed : ∀ a ∈ rows, ∀ b ∈ rows, schema.same false a b = some (decide (a = b))
  removed : ∀ row ∈ change.removed, row ∈ rows
  fresh : ∀ row ∈ change.added, ∀ other ∈ rows, change.removed ≠ some other → schema.same false other row = some false
  edited : ∀ row ∈ change.added, ∀ other ∈ change.removed, (schema.same false other row).isSome
  added_self : ∀ row ∈ change.added, schema.same false row row = some true
  start : ∀ start ∈ req.start, ∀ row, change.added = some row ∨ change.removed = some row →
    (compareRows schema.sort row start.row).isSome

namespace Pending

section

variable (h : Pending schema rows req change)

include h

variable {row : Row}

/-- The rows a pending change is laid over are kept or dropped by the request without a panic. -/
theorem keeps_eq (hrow : change.added = some row ∨ change.removed = some row) :
    schema.keeps req row = some (req.matches row && schema.startKeeps req row) := by
  unfold keeps startKeeps
  cases hstart : req.start with
  | none => simp
  | some start =>
    obtain ⟨result, hresult⟩ := isSome_iff_exists.mp (h.start start hstart row hrow)
    dsimp only
    rw [← compareFor_eq, compareFor, hresult]
    simp [Bool.and_comm]

theorem kept_added : schema.kept req change.added =
    some (change.added.filter (fun row => req.matches row && schema.startKeeps req row)) := by
  cases hadded : change.added with
  | none => rfl
  | some => simp [kept, h.keeps_eq (.inl hadded), Option.filter]

theorem kept_removed : schema.kept req change.removed =
    some (change.removed.filter (fun row => req.matches row && schema.startKeeps req row)) := by
  cases hremoved : change.removed with
  | none => rfl
  | some => simp [kept, h.keeps_eq (.inr hremoved), Option.filter]

/-- A row that is added is not in the table unless it is the one removed. -/
theorem added_not_mem (hadded : change.added = some row) (hremoved : change.removed ≠ some row) : row ∉ rows := by
  intro hmem
  have hfresh := h.fresh row hadded row hmem hremoved
  rw [h.added_self row hadded] at hfresh
  cases hfresh

end

/-- A row is dropped by a pending change: it is the removed row or has the key of the added one. -/
def Drops (schema : SourceSchema) (req : FetchRequest) (change : SourceChange) (row : Row) : Prop :=
  (change.removed = some row ∧ req.matches row = true ∧ schema.startKeeps req row = true) ∨
    ∃ added, change.added = some added ∧ req.matches added = true ∧ schema.startKeeps req added = true ∧
      schema.same false row added = some true

section

variable (h : Pending schema rows req change) {work : List Row} (hwork : work ⊆ rows)
  (hsorted : work.Pairwise (Before (Zql.readOrder schema.sort req.reverse)))

include h hwork hsorted

/-- Suppressing drops the removed row. -/
theorem suppress_eq {remove : Option Row} (hremove : ∀ row ∈ remove, row ∈ rows) :
    ∃ out, schema.suppress req.reverse work remove = some out ∧ out.Sublist work ∧
      ∀ row, row ∈ out ↔ row ∈ work ∧ remove ≠ some row := by
  cases remove with
  | none => exact ⟨work, rfl, .refl work, by simp⟩
  | some row =>
    have hrow := hremove row rfl
    have hsame : ∀ other ∈ work, schema.same false other row = some (decide (other = row)) :=
      fun other hother => h.keyed other (hwork hother) row hrow
    refine ⟨_, dropSame_eq (fun other hother => ⟨_, hsame other hother⟩), eraseP_sublist, fun other => ?_⟩
    have hnodup : work.Nodup := hsorted.imp (fun hab => by
      rintro rfl
      exact not_before_self _ _ hab)
    rw [mem_eraseP_of_unique hnodup]
    · refine and_congr_right (fun hother => ?_)
      simp [hsame other hother, eq_comm]
    · intro a ha b hb hpa hpb
      rw [hsame a ha] at hpa
      rw [hsame b hb] at hpb
      simp only [some.injEq, decide_eq_true_eq] at hpa hpb
      exact hpa.trans hpb.symm

/-- Injecting adds the added row in order, in the place of a row with its key. -/
theorem inject_eq {add : Option Row} (hadd : ∀ row ∈ add, change.added = some row) :
    ∃ out, schema.inject req.reverse work add = some out ∧ out.Pairwise (Before (readOrder schema.sort req.reverse)) ∧
      ∀ row, row ∈ out ↔ add = some row ∨ (row ∈ work ∧ ∀ added ∈ add, schema.same false row added ≠ some true) := by
  cases add with
  | none => exact ⟨work, rfl, hsorted, by simp⟩
  | some row =>
    have hadded := hadd row rfl
    have hsame : ∀ other ∈ work, schema.same false other row = some true → change.removed = some other := by
      intro other hother hsame
      by_contra hremoved
      rw [h.fresh row hadded other (hwork hother) hremoved] at hsame
      cases hsame
    have hnodup : work.Nodup := hsorted.imp (fun hab => by
      rintro rfl
      exact not_before_self _ _ hab)
    have hdrop : schema.dropSame req.reverse row work =
        some (work.eraseP (fun other => schema.same false other row = some true)) := by
      refine dropSame_eq (fun other hother => ?_)
      by_cases hremoved : change.removed = some other
      · exact isSome_iff_exists.mp (h.edited row hadded other hremoved)
      · exact ⟨false, h.fresh row hadded other (hwork hother) hremoved⟩
    have hmem : ∀ other, other ∈ work.eraseP (fun other => schema.same false other row = some true) ↔
        other ∈ work ∧ schema.same false other row ≠ some true := by
      intro other
      rw [mem_eraseP_of_unique hnodup]
      · simp
      · intro a ha b hb hpa hpb
        exact some.inj ((hsame a ha (by simpa using hpa)).symm.trans (hsame b hb (by simpa using hpb)))
    have hplaces : ∀ other ∈ work.eraseP (fun other => schema.same false other row = some true),
        Before (readOrder schema.sort req.reverse) other row ∨ Before (readOrder schema.sort req.reverse) row other := by
      intro other hother
      obtain ⟨hother, hne⟩ := (hmem other).mp hother
      obtain ⟨result, hresult, heq⟩ := (h.apart.readOrder req.reverse) other (mem_append_left _ (hwork hother)) row
        (by simp [hadded])
      cases result with
      | lt => exact .inl hresult
      | gt => exact .inr (before_of_gt hresult)
      | eq =>
        rw [heq rfl] at hne
        exact absurd (h.added_self row hadded) hne
    obtain ⟨out, hout, hsortedOut, hmemOut⟩ := splice_eq (hsorted.sublist eraseP_sublist) hplaces
    refine ⟨out, by rw [inject, hdrop]; exact hout, hsortedOut, fun other => ?_⟩
    rw [hmemOut, hmem]
    simp [eq_comm]

/-- Laying a change over rows of the table drops what it drops and adds what it adds, in order. -/
theorem overlayChange_eq :
    ∃ out, schema.overlayChange req work change = some out ∧
      out.Pairwise (Before (readOrder schema.sort req.reverse)) ∧
      ∀ row, row ∈ out ↔ (change.added = some row ∧ req.matches row = true ∧ schema.startKeeps req row = true) ∨
        (row ∈ work ∧ ¬ Drops schema req change row) := by
  have hkept {o : Option Row} {row : Row} :
      o.filter (fun row => req.matches row && schema.startKeeps req row) = some row ↔
        o = some row ∧ req.matches row = true ∧ schema.startKeeps req row = true := by
    rw [filter_eq_some_iff, Bool.and_eq_true]
  obtain ⟨middle, hmiddle, hsublist, hmemMiddle⟩ := h.suppress_eq hwork hsorted
    (fun row hrow => h.removed row (hkept.mp hrow).1)
  obtain ⟨out, hout, hsortedOut, hmem⟩ := h.inject_eq (fun row hrow => hwork (hsublist.subset hrow))
    (hsorted.sublist hsublist) (fun row hrow => (hkept.mp hrow).1)
  refine ⟨out, ?_, hsortedOut, fun row => ?_⟩
  · rw [overlayChange, h.kept_added, h.kept_removed]
    simp only [bind_eq_bind, bind_some, hmiddle, hout]
  · rw [hmem, hkept, hmemMiddle, ne_eq, hkept, Drops, not_or, and_assoc]
    refine or_congr_right (and_congr_right (fun _ => and_congr_right (fun _ => ?_)))
    constructor
    · rintro hnone ⟨added, hadded, hmatches, hkeeps, hsame⟩
      exact hnone added (hkept.mpr ⟨hadded, hmatches, hkeeps⟩) hsame
    · intro hnone added hadded hsame
      obtain ⟨hadded, hmatches, hkeeps⟩ := hkept.mp hadded
      exact hnone ⟨added, hadded, hmatches, hkeeps, hsame⟩

end

end Pending

/-! ## One change -/

/-- The overlay and the read treat the rows of a change alike: an added row the overlay keeps is selected,
a selected one is kept or was there before, and a removed row that is selected is dropped or comes back. -/
structure Suits (schema : SourceSchema) (req : FetchRequest) (change : SourceChange) : Prop where
  kept : ∀ row, change.added = some row → req.matches row = true → schema.startKeeps req row = true →
    startMatches (Zql.readOrder schema.sort req.reverse) req.start row = true
  selected : ∀ row, change.added = some row → req.matches row = true →
    startMatches (Zql.readOrder schema.sort req.reverse) req.start row = true →
    schema.startKeeps req row = true ∨ change.removed = some row
  removed : ∀ row, change.removed = some row → req.matches row = true →
    startMatches (Zql.readOrder schema.sort req.reverse) req.start row = true →
    change.added = some row ∨ Pending.Drops schema req change row

open SourceChange

theorem mem_apply (hnodup : rows.Nodup) :
    row ∈ change.apply rows ↔ change.added = some row ∨ (row ∈ rows ∧ change.removed ≠ some row) := by
  cases change with
  | add added => simp [apply, SourceChange.added, removed, or_comm, eq_comm]
  | remove removed =>
    simp only [apply, added, SourceChange.removed, hnodup.mem_erase_iff]
    simp [and_comm, eq_comm]
  | edit added removed =>
    simp only [apply, SourceChange.added, SourceChange.removed, mem_append, hnodup.mem_erase_iff]
    simp [and_comm, or_comm, eq_comm]

theorem selects_iff : schema.selects req row = true ↔
    req.matches row = true ∧ startMatches (readOrder schema.sort req.reverse) req.start row = true := by
  rw [selects, Bool.and_eq_true]

/-- What a fetch with a pending change returns, and what it returns from the changed table, row by row. -/
theorem Pending.fetch_spec (h : Pending schema rows req change) (haccepts : schema.accepts req = true) :
    ∃ out after, schema.fetch rows [change] req = some out ∧ schema.read (change.apply rows) req = some after ∧
      ((∀ row, row ∈ out ↔ row ∈ after) → out = after) ∧
      (∀ row, row ∈ out ↔ (change.added = some row ∧ req.matches row = true ∧ schema.startKeeps req row = true) ∨
        ((row ∈ rows ∧ schema.selects req row = true) ∧ ¬ Drops schema req change row)) ∧
      ∀ row, row ∈ after ↔
        (change.added = some row ∨ (row ∈ rows ∧ change.removed ≠ some row)) ∧ schema.selects req row = true := by
  obtain ⟨work, hwork, hmemWork, hsortedWork⟩ := @read_eq schema rows req haccepts
  obtain ⟨after, hafter, hmemAfter, hsortedAfter⟩ := @read_eq schema (change.apply rows) req haccepts
  obtain ⟨out, hout, hsortedOut, hmemOut⟩ := h.overlayChange_eq (fun row hrow => ((hmemWork row).mp hrow).1)
    (hsortedWork (h.apart.subset (subset_append_left _ _)))
  have hsorted := hsortedAfter (h.apart.subset (fun row hrow => by
    rcases (mem_apply h.nodup).mp hrow with hadded | hrow
    · simp [hadded]
    · exact mem_append_left _ hrow.1))
  refine ⟨out, after, by simp [fetch, hwork, applyOverlay, hout], hafter, eq_of_sorted hsortedOut hsorted, ?_, ?_⟩
  · intro row
    rw [hmemOut, hmemWork]
  · intro row
    rw [hmemAfter, mem_apply h.nodup]

/-- A fetch returns from an overlay that suits it what it returns from the changed table. -/
theorem Suits.fetch_eq (hsuits : Suits schema req change) (h : Pending schema rows req change)
    (haccepts : schema.accepts req = true) : schema.fetch rows [change] req = schema.read (change.apply rows) req := by
  obtain ⟨out, after, hout, hafter, hsame, hmemOut, hmemAfter⟩ := h.fetch_spec haccepts
  rw [hout, hafter, some.injEq]
  refine hsame (fun row => ?_)
  rw [hmemOut, hmemAfter]
  constructor
  · rintro (⟨hadded, hmatches, hkeeps⟩ | ⟨⟨hrow, hselected⟩, hdrops⟩)
    · exact ⟨.inl hadded, selects_iff.mpr ⟨hmatches, hsuits.kept row hadded hmatches hkeeps⟩⟩
    · refine ⟨?_, hselected⟩
      by_cases hremoved : change.removed = some row
      · obtain ⟨hmatches, hstart⟩ := selects_iff.mp hselected
        exact .inl ((hsuits.removed row hremoved hmatches hstart).resolve_right hdrops)
      · exact .inr ⟨hrow, hremoved⟩
  · rintro ⟨hadded | ⟨hrow, hremoved⟩, hselected⟩
    · obtain ⟨hmatches, hstart⟩ := selects_iff.mp hselected
      by_cases hkeeps : schema.startKeeps req row = true
      · exact .inl ⟨hadded, hmatches, hkeeps⟩
      · -- The added row is the removed one, and the overlay leaves it where it is.
        have hremoved := (hsuits.selected row hadded hmatches hstart).resolve_left hkeeps
        refine .inr ⟨⟨h.removed row hremoved, hselected⟩, ?_⟩
        rintro (⟨-, -, hkeeps'⟩ | ⟨added, hadded', -, hkeeps', -⟩)
        · exact hkeeps hkeeps'
        · rw [hadded, some.injEq] at hadded'
          exact hkeeps (hadded' ▸ hkeeps')
    · refine .inr ⟨⟨hrow, hselected⟩, ?_⟩
      rintro (⟨hremoved', -⟩ | ⟨added, hadded, -, -, hsame⟩)
      · exact hremoved hremoved'
      · rw [h.fresh added hadded row hrow hremoved] at hsame
        cases hsame

/-- Each of the changes pushed so far was one of the table as it stood, and suits the request. -/
def Accumulated (schema : SourceSchema) (req : FetchRequest) : List Row → List SourceChange → Prop
  | _, [] => True
  | rows, change :: rest => Pending schema rows req change ∧ (schema.accepts req = true → Suits schema req change) ∧
      Accumulated schema req (change.apply rows) rest

end SourceSchema

end ZeroCache.Zql
