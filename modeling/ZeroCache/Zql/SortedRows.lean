import ZeroCache.Zql.SqliteSource
import Mathlib.Data.List.TakeWhile

/-!
# Bounded reads of sorted rows

Operators that keep a bound read their input from it, at the bound or after it, forward or in reverse.
Where every row can be compared, a sorted list of rows splits at a bound into the rows before it, at most
one row at its place and the rows after it, and each bounded read returns a part of that split.
-/

namespace ZeroCache.Zql

open List

/-! ## Places -/

/-- Two rows compare equal: they have the same place in the order. -/
def SamePlace (order : QueryOrdering) (a b : Row) : Prop := compareRows order a b = some .eq

instance (order : QueryOrdering) (a b : Row) : Decidable (SamePlace order a b) :=
  inferInstanceAs (Decidable (_ = _))

instance (order : QueryOrdering) (a b : Row) : Decidable (Before order a b) :=
  inferInstanceAs (Decidable (_ = _))

variable {order : QueryOrdering} {a b : Row}

/-- Rows at the same place compare alike with every row. -/
theorem SamePlace.compareRows_right (h : SamePlace order a b) (row : Row) :
    compareRows order row a = compareRows order row b := by
  unfold SamePlace at h
  induction order with
  | nil => rfl
  | cons entry rest ih =>
    obtain ⟨field, direction⟩ := entry
    simp only [compareRows] at h ⊢
    cases hvalues : compareValues (a.get field) (b.get field) with
    | none => simp [hvalues] at h
    | some result =>
      rw [hvalues] at h
      cases result with
      | eq => rw [eq_of_compareValues hvalues, ih h]
      | lt | gt => cases direction <;> simp at h

theorem SamePlace.symm (h : SamePlace order a b) : SamePlace order b a := by
  rw [SamePlace, compareRows_swap, h]
  rfl

theorem SamePlace.compareRows_left (h : SamePlace order a b) (row : Row) :
    compareRows order a row = compareRows order b row := by
  rw [compareRows_swap order row a, compareRows_swap order row b, h.compareRows_right]

theorem SamePlace.trans {c : Row} (hab : SamePlace order a b)
    (hbc : SamePlace order b c) : SamePlace order a c := (hab.compareRows_left c).trans hbc

variable {row : Row}

theorem SamePlace.before_right (h : SamePlace order a b) : Before order row a ↔ Before order row b := by rw [Before, Before, h.compareRows_right]

theorem SamePlace.before_left (h : SamePlace order a b) : Before order a row ↔ Before order b row := by rw [Before, Before, h.compareRows_left]

theorem Before.gt (h : Before order a b) : compareRows order b a = some .gt := by
  rw [compareRows_swap, h]
  rfl

theorem Before.not_samePlace (h : Before order a b) : ¬ SamePlace order a b := by
  intro hsame
  rw [Before, hsame] at h
  cases h

theorem Before.ne (h : Before order a b) : a ≠ b := by
  rintro rfl
  exact not_before_self order a h

/-- Rows that an order can compare and that carry the columns it sorts by. -/
structure Sortable (order : QueryOrdering) (typed : Row → Prop) : Prop where
  nonempty : order ≠ []
  compares : ∀ a b, typed a → typed b → (compareRows order a b).isSome
  named : ∀ a, typed a → ∀ entry ∈ order, (Assoc.get? a entry.1).isSome

namespace Sortable

variable {order : QueryOrdering} {typed : Row → Prop} {a b : Row}

theorem trichotomy (h : Sortable order typed) (ha : typed a) (hb : typed b) :
    Before order a b ∨ SamePlace order a b ∨ Before order b a := by
  obtain ⟨result, hresult⟩ := Option.isSome_iff_exists.mp (h.compares a b ha hb)
  cases result with
  | lt => exact .inl hresult
  | eq => exact .inr (.inl hresult)
  | gt => exact .inr (.inr (before_of_gt hresult))

theorem refl (h : Sortable order typed) (ha : typed a) : SamePlace order a a := by
  rcases h.trichotomy ha ha with hlt | hsame | hlt
  · exact absurd hlt (not_before_self order a)
  · exact hsame
  · exact absurd hlt (not_before_self order a)

end Sortable

/-- No two of the rows have the same place. -/
def Unique (order : QueryOrdering) (rows : List Row) : Prop :=
  ∀ a ∈ rows, ∀ b ∈ rows, SamePlace order a b → a = b

variable {rows : List Row}

theorem Sortable.sortsApart {typed : Row → Prop} (h : Sortable order typed)
    (htyped : ∀ row ∈ rows, typed row) (hunique : Unique order rows) : SortsApart order rows := by
  intro a ha b hb
  obtain ⟨result, hresult⟩ := Option.isSome_iff_exists.mp (h.compares a b (htyped a ha) (htyped b hb))
  refine ⟨result, hresult, ?_⟩
  rintro rfl
  exact hunique a ha b hb hresult

/-! ## Reads -/

/-- The rows an input returns for a request. -/
def readInput (order : QueryOrdering) (rows : List Row) (req : FetchRequest) : List Row :=
  readRows (rows.filter (matchesBatches req.multiConstraints)) (readOrder order req.reverse) req.constraint req.start

/-- The rows that match a constraint, in order. -/
structure SortedPart (order : QueryOrdering) (constraint : Option Constraint) (rows part : List Row) : Prop where
  sorted : part.Pairwise (Before order)
  mem : ∀ row, row ∈ part ↔ row ∈ rows ∧ constraintMatches constraint row = true

/-- Coming before in the order of a read. -/
theorem before_readOrder {reverse : Bool} :
    Before (readOrder order reverse) a b ↔ if reverse then Before order b a else Before order a b := by
  rw [Before, ← compareFor_eq, compareFor]
  cases reverse with
  | false => simp [Before]
  | true =>
    rw [Before, compareRows_swap order a b]
    cases compareRows order a b <;> simp

theorem samePlace_readOrder {order : QueryOrdering} {reverse : Bool} {a b : Row} :
    SamePlace (readOrder order reverse) a b ↔ SamePlace order a b := by
  rw [SamePlace, ← compareFor_eq, compareFor, SamePlace]
  cases reverse with
  | false => simp
  | true => cases compareRows order a b <;> simp

theorem namedPart_readOrder {bound : Row}
    (hnamed : ∀ entry ∈ order, (Assoc.get? bound entry.1).isSome) (reverse : Bool) :
    namedPart (readOrder order reverse) bound = readOrder order reverse := by
  refine takeWhile_eq_self_iff.mpr (fun entry hentry => ?_)
  cases reverse with
  | false => exact hnamed entry hentry
  | true =>
    obtain ⟨source, hsource, rfl⟩ := mem_map.mp hentry
    exact hnamed source hsource

section Reads

variable {order : QueryOrdering} {typed : Row → Prop} {constraint : Option Constraint} {rows part : List Row}
  {bound : Row}

/-- What a bounded read selects. -/
theorem Sortable.startMatches_iff (h : Sortable order typed) (hbound : typed bound) (basis : StartBasis)
    (reverse : Bool) (row : Row) : startMatches (readOrder order reverse) (some ⟨bound, basis⟩) row = true ↔
      (if reverse then Before order row bound else Before order bound row) ∨
        (basis = .at ∧ SamePlace order row bound) := by
  have hne : (readOrder order reverse).isEmpty = false := by
    have := h.nonempty
    cases reverse <;> simp [readOrder, this]
  have hbefore : compareRows (readOrder order reverse) row bound = some .gt ↔
      if reverse then Before order row bound else Before order bound row := by
    rw [← before_readOrder, Before, compareRows_swap (readOrder order reverse) row bound]
    cases compareRows (readOrder order reverse) row bound with
    | none => simp
    | some result => cases result <;> simp
  rw [startMatches]
  rw [namedPart_readOrder (h.named bound hbound), hne, ← hbefore, ← @samePlace_readOrder order reverse, SamePlace]
  cases compareRows (readOrder order reverse) row bound with
  | none => simp
  | some result => cases result <;> simp

section

variable (h : SortedPart order constraint rows part)

include h

theorem SortedPart.nodup : part.Nodup := h.sorted.imp Before.ne

/-- A bounded read is determined by what it selects. -/
theorem SortedPart.readInput_eq (hapart : SortsApart order rows)
    {start : Option Start} {reverse : Bool} {out : List Row}
    (hsorted : out.Pairwise (fun a b => if reverse then Before order b a else Before order a b))
    (hmem : ∀ row, row ∈ out ↔ row ∈ part ∧ startMatches (readOrder order reverse) start row = true) :
    readInput order rows ⟨constraint, [], start, reverse⟩ = out := by
  have hall : rows.filter (matchesBatches []) = rows := filter_eq_self.mpr (fun _ _ => rfl)
  rw [readInput]
  rw [hall]
  refine eq_of_sorted (readRows_sorted (hapart.readOrder reverse))
    (hsorted.imp (fun hab => before_readOrder.mpr hab)) (fun row => ?_)
  rw [mem_readRows, hmem, h.mem, and_assoc]

theorem SortedPart.readInput_all (hapart : SortsApart order rows) :
    readInput order rows ⟨constraint, [], none, false⟩ = part := by
  refine h.readInput_eq hapart h.sorted (fun row => ?_)
  simp [startMatches]

end

theorem exists_sortedPart (hapart : SortsApart order rows) (constraint : Option Constraint) :
    ∃ part, SortedPart order constraint rows part := by
  refine ⟨readRows rows order constraint none, readRows_sorted hapart, fun row => ?_⟩
  rw [mem_readRows]
  simp [startMatches]

theorem SortedPart.unique (h : SortedPart order constraint rows part) {part' : List Row}
    (h' : SortedPart order constraint rows part') : part = part' :=
  eq_of_sorted h.sorted h'.sorted (fun row => by rw [h.mem, h'.mem])

/-- The rows of an input split at a bound. -/
structure SplitAt (order : QueryOrdering) (bound : Row) (before at_ after : List Row) : Prop where
  before : ∀ row ∈ before, Before order row bound
  at_ : ∀ row ∈ at_, SamePlace order row bound
  after : ∀ row ∈ after, Before order bound row

variable {before at_ after : List Row}

section

variable (hsplit : SplitAt order bound before at_ after)

include hsplit

section

variable {row : Row} (hrow : row ∈ before ++ at_ ++ after)

include hrow

theorem SplitAt.mem_forward : Before order bound row ↔ row ∈ after := by
  constructor
  · intro hlt
    rcases mem_append.mp hrow with hrow | hrow
    · rcases mem_append.mp hrow with hrow | hrow
      · exact absurd ((hsplit.before row hrow).trans hlt) (not_before_self order row)
      · exact absurd (hsplit.at_ row hrow).symm hlt.not_samePlace
    · exact hrow
  · exact hsplit.after row

theorem SplitAt.mem_backward : Before order row bound ↔ row ∈ before := by
  constructor
  · intro hlt
    rcases mem_append.mp hrow with hrow | hrow
    · rcases mem_append.mp hrow with hrow | hrow
      · exact hrow
      · exact absurd (hsplit.at_ row hrow) hlt.not_samePlace
    · exact absurd (hlt.trans (hsplit.after row hrow)) (not_before_self order row)
  · exact hsplit.before row

theorem SplitAt.mem_at : SamePlace order row bound ↔ row ∈ at_ := by
  constructor
  · intro hsame
    rcases mem_append.mp hrow with hrow | hrow
    · rcases mem_append.mp hrow with hrow | hrow
      · exact absurd hsame (hsplit.before row hrow).not_samePlace
      · exact hrow
    · exact absurd hsame.symm (hsplit.after row hrow).not_samePlace
  · exact hsplit.at_ row

end

/-- The four bounded reads. -/
theorem SplitAt.readInput (h : Sortable order typed) (hbound : typed bound) (hapart : SortsApart order rows)
    (hpart : SortedPart order constraint rows (before ++ at_ ++ after)) (basis : StartBasis) (reverse : Bool) :
    readInput order rows ⟨constraint, [], some ⟨bound, basis⟩, reverse⟩ =
      match reverse, basis with
      | false, .at => at_ ++ after
      | false, .after => after
      | true, .at => (before ++ at_).reverse
      | true, .after => before.reverse := by
  have hsub : ∀ {l : List Row}, l.Sublist (before ++ at_ ++ after) → l.Pairwise (Before order) :=
    fun hl => hpart.sorted.sublist hl
  have hafter : after.Sublist (before ++ at_ ++ after) := sublist_append_right _ _
  have hatAfter : (at_ ++ after).Sublist (before ++ at_ ++ after) := by
    rw [append_assoc]
    exact sublist_append_right _ _
  have hbeforeAt : (before ++ at_).Sublist (before ++ at_ ++ after) := sublist_append_left _ _
  have hbefore : before.Sublist (before ++ at_ ++ after) := (sublist_append_left _ _).trans hbeforeAt
  have hselect : ∀ row, row ∈ before ++ at_ ++ after →
      (startMatches (readOrder order reverse) (some ⟨bound, basis⟩) row = true ↔
        (if reverse then row ∈ before else row ∈ after) ∨ (basis = .at ∧ row ∈ at_)) := by
    intro row hrow
    rw [h.startMatches_iff hbound, hsplit.mem_forward hrow, hsplit.mem_backward hrow, hsplit.mem_at hrow]
  refine hpart.readInput_eq hapart ?_ (fun row => ?_)
  · cases reverse with
    | false =>
      cases basis with
      | «at» => exact hsub hatAfter
      | after => exact hsub hafter
    | true =>
      cases basis with
      | «at» => exact pairwise_reverse.mpr (hsub hbeforeAt)
      | after => exact pairwise_reverse.mpr (hsub hbefore)
  · rw [and_congr_right (hselect row)]
    cases reverse <;> cases basis <;> simp <;> tauto

end

end Reads

/-! ## Changes of a sorted list -/

/-- A row has a place in a sorted list none of whose rows is at its place. -/
theorem exists_place (hsorted : rows.Pairwise (Before order))
    (hplace : ∀ other ∈ rows, Before order other row ∨ Before order row other) :
    ∃ before after, rows = before ++ after ∧ (before ++ row :: after).Pairwise (Before order) := by
  induction rows with
  | nil => exact ⟨[], [], rfl, by simp⟩
  | cons first rest ih =>
    obtain ⟨hfirst, hrest⟩ := pairwise_cons.mp hsorted
    rcases hplace first mem_cons_self with hlt | hlt
    · obtain ⟨before, after, rfl, hplaced⟩ := ih hrest (fun other hother => hplace other (mem_cons_of_mem _ hother))
      refine ⟨first :: before, after, rfl, pairwise_cons.mpr ⟨fun other hother => ?_, hplaced⟩⟩
      rcases mem_append.mp hother with hother | hother
      · exact hfirst other (mem_append_left _ hother)
      · rcases mem_cons.mp hother with rfl | hother
        · exact hlt
        · exact hfirst other (mem_append_right _ hother)
    · refine ⟨[], first :: rest, rfl, pairwise_cons.mpr ⟨fun other hother => ?_, hsorted⟩⟩
      rcases mem_cons.mp hother with rfl | hother
      · exact hlt
      · exact hlt.trans (hfirst other hother)

/-- Of a sorted list with a row in it, the other rows are before or after that row. -/
theorem before_or_after {before after : List Row} (hsorted : (before ++ row :: after).Pairwise (Before order)) :
    (∀ other ∈ before, Before order other row) ∧ ∀ other ∈ after, Before order row other := by
  rw [pairwise_append, pairwise_cons] at hsorted
  exact ⟨fun other hother => hsorted.2.2 other hother row mem_cons_self, hsorted.2.1.1⟩

section

variable {before after left right : List Row} {row : Row}
  (hsorted : (before ++ row :: after).Pairwise (Before order)) (heq : before ++ after = left ++ right)

include hsorted heq

/-- A row that is before the second part of a list is placed in the first. -/
theorem place_left (hright : ∀ other ∈ right, Before order row other) :
    ∃ left₁ left₂, left = left₁ ++ left₂ ∧ before ++ row :: after = left₁ ++ row :: left₂ ++ right := by
  rcases append_eq_append_iff.mp heq with ⟨mid, rfl, rfl⟩ | ⟨mid, rfl, rfl⟩
  · exact ⟨before, mid, rfl, by simp⟩
  · cases mid with
    | nil => exact ⟨left, [], by simp, by simp⟩
    | cons first =>
      have hbefore := (before_or_after hsorted).1 first (by simp)
      exact absurd (hbefore.trans (hright first (by simp))) (not_before_self order first)

/-- A row that is after the first part of a list is placed in the second. -/
theorem place_right (hleft : ∀ other ∈ left, Before order other row) :
    ∃ right₁ right₂, right = right₁ ++ right₂ ∧ before ++ row :: after = left ++ (right₁ ++ row :: right₂) := by
  rcases append_eq_append_iff.mp heq with ⟨mid, rfl, rfl⟩ | ⟨mid, rfl, rfl⟩
  · cases mid with
    | nil => exact ⟨[], right, rfl, by simp⟩
    | cons first =>
      have hafter := (before_or_after hsorted).2 first (by simp)
      exact absurd (hafter.trans (hleft first (by simp))) (not_before_self order row)
  · exact ⟨mid, after, rfl, by simp⟩

end

/-- A sorted list splits at a bound that has the place of one of its rows. -/
theorem splitAt_row {before after : List Row} {row bound : Row}
    (hsorted : (before ++ row :: after).Pairwise (Before order)) (hsame : SamePlace order row bound) :
    SplitAt order bound before [row] after where
  before other hother := hsame.before_right.mp ((before_or_after hsorted).1 other hother)
  at_ _ hother := mem_singleton.mp hother ▸ hsame
  after other hother := hsame.before_left.mp ((before_or_after hsorted).2 other hother)

namespace SplitAt

variable {order : QueryOrdering} {bound row : Row} {before before₁ before₂ at_ after after₁ after₂ : List Row}

theorem forall_mem_middle {P : Row → Prop} {left right : List Row} :
    (∀ other ∈ left ++ row :: right, P other) ↔ P row ∧ ∀ other ∈ left ++ right, P other := by
  simp only [perm_middle.mem_iff, forall_mem_cons]

/-- The row at the bound goes. -/
theorem erase (h : SplitAt order bound before at_ after) : SplitAt order bound before [] after :=
  ⟨h.before, by simp, h.after⟩

/-- A row before the bound comes. -/
theorem insertBefore (h : SplitAt order bound (before₁ ++ before₂) at_ after) (hrow : Before order row bound) :
    SplitAt order bound (before₁ ++ row :: before₂) at_ after :=
  ⟨forall_mem_middle.mpr ⟨hrow, h.before⟩, h.at_, h.after⟩

/-- A row before the bound goes. -/
theorem eraseBefore (h : SplitAt order bound (before₁ ++ row :: before₂) at_ after) :
    SplitAt order bound (before₁ ++ before₂) at_ after :=
  ⟨(forall_mem_middle.mp h.before).2, h.at_, h.after⟩

/-- A row after the bound comes. -/
theorem insertAfter (h : SplitAt order bound before at_ (after₁ ++ after₂)) (hrow : Before order bound row) :
    SplitAt order bound before at_ (after₁ ++ row :: after₂) :=
  ⟨h.before, h.at_, forall_mem_middle.mpr ⟨hrow, h.after⟩⟩

/-- A row after the bound goes. -/
theorem eraseAfter (h : SplitAt order bound before at_ (after₁ ++ row :: after₂)) :
    SplitAt order bound before at_ (after₁ ++ after₂) :=
  ⟨h.before, h.at_, (forall_mem_middle.mp h.after).2⟩

end SplitAt

end ZeroCache.Zql
