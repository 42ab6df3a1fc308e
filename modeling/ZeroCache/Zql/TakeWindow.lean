import ZeroCache.Zql.Replay
import ZeroCache.Zql.Take

/-!
# The window of a limit

A state of a limit describes a window of the sorted rows of its partition: they are the rows up to one that
has the place of the stored bound, as many as the stored size, and rows after them are left out only if the
limit is reached. A push reads the rows at the bound and its neighbours, so it finds the bound of the window
after the change, and what it emits leads from the one window to the other. The stored bound keeps its place
but not its contents when the row of the bound is edited in place.
-/

namespace ZeroCache.Zql

open List Option Take SourceChange

/-- The state of a limit describes the first rows of a sorted list. -/
inductive Window (order : QueryOrdering) (typed : Row → Prop) (limit : ℕ) : List Row → TakeState → Prop
  | empty : Window order typed limit [] ⟨0, none⟩
  | filled {before after : List Row} {last bound : Row} (htyped : typed bound) (hsame : SamePlace order last bound)
    (hlimit : before.length + 1 ≤ limit) (hfull : after = [] ∨ before.length + 1 = limit) :
    Window order typed limit (before ++ last :: after) ⟨before.length + 1, some bound⟩

/-- One change of a list of rows. -/
def ListChange (part : List Row) (change : SourceChange) (part' : List Row) : Prop :=
  match change with
  | .add row => ∃ before after, part = before ++ after ∧ part' = before ++ row :: after
  | .remove row => ∃ before after, part = before ++ row :: after ∧ part' = before ++ after
  | .edit row oldRow => ∃ before after before' after', part = before ++ oldRow :: after ∧
      before ++ after = before' ++ after' ∧ part' = before' ++ row :: after'

/-- The rows a limit reads: those of one partition, all comparable and at different places. -/
structure TakeInput (take : Take) (typed : Row → Prop) (rows : List Row) (constraint : Option Constraint)
    (part : List Row) : Prop where
  sortable : Sortable take.sort typed
  typed : ∀ row ∈ rows, typed row
  unique : Unique take.sort rows
  part : SortedPart take.sort constraint rows part

/-- A push keeps the window: it returns, and what it emits leads to the window after the change. -/
def KeepsWindow (take : Take) (typed : Row → Prop) (part part' : List Row) (state : TakeState)
    (push : TakeState → Option TakeOutcome) : Prop :=
  ∃ outcome, push state = some outcome ∧ Window take.sort typed take.limit part' (outcome.state.getD state) ∧
    SourceChange.Leads take.limit (part.take take.limit).toFinset outcome.emitted (part'.take take.limit).toFinset

theorem perm_insert (before after rest : List Row) (row : Row) :
    (before ++ row :: after ++ rest).Perm (row :: (before ++ after ++ rest)) := by
  rw [append_assoc, append_assoc]
  exact perm_middle

variable {take : Take} {typed : Row → Prop} {rows : List Row} {constraint : Option Constraint}
  {before before₁ before₂ before' after after₁ after₂ after' left right : List Row} {last bound row oldRow : Row}

/-! ## Filled windows -/

/-- A sorted list of rows and the bound of a window in it that is not empty. -/
structure Filled (take : Take) (typed : Row → Prop) (before : List Row) (last : Row) (after : List Row)
    (bound : Row) : Prop where
  sorted : (before ++ last :: after).Pairwise (Before take.sort)
  typed : typed bound
  same : SamePlace take.sort last bound
  limit : before.length + 1 ≤ take.limit
  full : after = [] ∨ before.length + 1 = take.limit

/-- A push keeps a filled window. -/
def Filled.Keeps (_ : Filled take typed before last after bound) (part' : List Row) (push : TakeState → Option TakeOutcome) :
    Prop := KeepsWindow take typed (before ++ last :: after) part' ⟨before.length + 1, some bound⟩ push

/-- The push of a change keeps a filled window, if the limit reads the rows after the change. -/
def Filled.Handles (h : Filled take typed before last after bound) (rows : List Row) (constraint : Option Constraint)
    (change : SourceChange) (part' : List Row) : Prop :=
  TakeInput take typed rows constraint part' → h.Keeps part' (take.pushPartition rows constraint · change)

namespace Filled

section

variable (h : Filled take typed before last after bound)

include h

theorem take_eq : (before ++ last :: after).take take.limit = before ++ [last] := by
  rcases h.full with rfl | hfull
  · exact take_of_length_le (by simpa using h.limit)
  · rw [← hfull, append_cons]
    exact take_left' (by simp)

theorem nodup : (before ++ [last]).Nodup := by
  have hnodup : (before ++ last :: after).Nodup := h.sorted.imp Before.ne
  rw [append_cons] at hnodup
  exact hnodup.of_append_left

theorem length_le : (before ++ [last]).length ≤ take.limit := by
  simpa using h.limit

theorem splitAt : SplitAt take.sort bound before [last] after := splitAt_row h.sorted h.same

theorem before_bound (hrow : row ∈ before) : take.cmp row bound = some .lt := h.splitAt.before row hrow

theorem after_bound (hrow : row ∈ after) : take.cmp row bound = some .gt := (h.splitAt.after row hrow).gt

/-- A push from one filled window to another. -/
theorem keeps {bound' : Row}
    (h' : Filled take typed before' row after' bound') {push : TakeState → Option TakeOutcome} (outcome : TakeOutcome)
    (hpush : push ⟨before.length + 1, some bound⟩ = some outcome)
    (hstate : outcome.state.getD ⟨before.length + 1, some bound⟩ = ⟨before'.length + 1, some bound'⟩)
    (hleads : SourceChange.Leads take.limit (before ++ [last]).toFinset outcome.emitted (before' ++ [row]).toFinset) :
    h.Keeps (before' ++ row :: after') push := by
  refine ⟨_, hpush, ?_, by rw [h.take_eq, h'.take_eq]; exact hleads⟩
  rw [hstate]
  exact .filled h'.typed h'.same h'.limit h'.full

end

end Filled

/-! ## What a push reads and stores -/

/-- The reads of a push. -/
theorem TakeInput.fetchBounded {at_ : List Row} (h : TakeInput take typed rows constraint (before ++ at_ ++ after))
    (hbound : typed bound) (hsplit : SplitAt take.sort bound before at_ after) (basis : StartBasis) (reverse : Bool) :
    take.fetchBounded rows constraint bound basis reverse =
      match reverse, basis with
      | false, .at => at_ ++ after
      | false, .after => after
      | true, .at => (before ++ at_).reverse
      | true, .after => before.reverse :=
  hsplit.readInput h.sortable hbound (h.sortable.sortsApart h.typed h.unique) h.part basis reverse

theorem TakeInput.typed_of_mem (h : TakeInput take typed rows constraint left) (hrow : row ∈ left) : typed row :=
  h.typed row ((h.part.mem row).mp hrow).1

/-- The first rows, up to the limit, are a window: their number and the last of them are its state. -/
theorem TakeInput.window (h : TakeInput take typed rows constraint (left ++ right)) (hpos : 1 ≤ take.limit)
    (hlimit : left.length ≤ take.limit) (hfull : right = [] ∨ left.length = take.limit) :
    Window take.sort typed take.limit (left ++ right) ⟨left.length, left.getLast?⟩ ∧
      (left ++ right).take take.limit = left := by
  rcases eq_nil_or_concat left with rfl | ⟨init, last, rfl⟩
  · obtain rfl : right = [] := hfull.resolve_right (by simp; omega)
    exact ⟨.empty, by simp⟩
  · rw [concat_eq_append, append_assoc] at *
    have htyped : typed last := h.typed_of_mem (by simp)
    have hsize : (init ++ [last]).length = init.length + 1 := by simp
    rw [hsize] at hlimit hfull ⊢
    have hfilled : Filled take typed init last right last := ⟨h.part.sorted, htyped, h.sortable.refl htyped, hlimit, hfull⟩
    refine ⟨?_, hfilled.take_eq⟩
    rw [getLast?_append]
    exact .filled htyped (h.sortable.refl htyped) hlimit hfull

variable {push : TakeState → Option TakeOutcome}

/-- A push that stores the first rows after the change. -/
theorem Filled.stores (h : Filled take typed before last after bound)
    (h' : TakeInput take typed rows constraint (left ++ right)) (size : ℕ) (emitted : List SourceChange)
    (hpush : push ⟨before.length + 1, some bound⟩ = some ⟨some ⟨size, left.getLast?⟩, emitted⟩)
    (hsize : size = left.length) (hlimit : size ≤ take.limit) (hfull : right = [] ∨ size = take.limit)
    (hleads : SourceChange.Leads take.limit (before ++ [last]).toFinset emitted left.toFinset) :
    h.Keeps (left ++ right) push := by
  subst hsize
  obtain ⟨hwindow, htake⟩ := h'.window (by have := h.limit; omega) hlimit hfull
  exact ⟨_, hpush, hwindow, by rw [h.take_eq, htake]; exact hleads⟩

theorem TakeInput.nodup_left (h : TakeInput take typed rows constraint (left ++ right)) : left.Nodup :=
  h.part.nodup.of_append_left

/-- The last of some rows. -/
theorem exists_last (hne : left ≠ []) : ∃ init last, left = init ++ [last] :=
  ⟨left.dropLast, left.getLast hne, (dropLast_append_getLast hne).symm⟩

/-! ## Adding -/

/-- A row is added before the bound: with room it comes to the window, or else the row at the bound goes. -/
theorem pushAdd_before (h : Filled take typed (before₁ ++ before₂) last after bound) (hrow : Before take.sort row bound) :
    h.Handles rows constraint (.add row) (before₁ ++ row :: before₂ ++ last :: after) := by
  intro h'
  have hlimit := h.limit
  have hsize : (before₁ ++ row :: before₂).length = (before₁ ++ before₂).length + 1 := perm_middle.length_eq
  by_cases hroom : (before₁ ++ before₂).length + 1 < take.limit
  · obtain rfl : after = [] := h.full.resolve_right (by omega)
    have hcmp : take.cmp bound row = some .gt := hrow.gt
    have hfilled : Filled take typed (before₁ ++ row :: before₂) last [] bound :=
      ⟨h'.part.sorted, h.typed, h.same, by omega, .inl rfl⟩
    refine h.keeps hfilled ⟨some ⟨(before₁ ++ before₂).length + 2, some bound⟩, [.add row]⟩ ?_ ?_ ?_
    · simp only [pushPartition, pushAdd, hroom, addWithin, hcmp]
      rfl
    · simp [hsize]
    · exact leads_add hfilled.nodup (perm_insert before₁ before₂ [last] row) hfilled.length_le
  · have hcmp : take.cmp row bound = some .lt := hrow
    have hread := @TakeInput.fetchBounded take typed rows constraint (before₁ ++ row :: before₂) after bound [last]
      (by simpa using h') h.typed (h.splitAt.insertBefore hrow)
    refine h.stores h' _ [.remove last, .add row] ?_ hsize.symm hlimit (.inr (by omega))
      (leads_replace h.nodup h'.nodup_left (perm_append_singleton last _) perm_middle h.length_le)
    simp only [pushPartition, pushAdd, hroom, hcmp, addEvicting]
    by_cases hone : take.limit = 1
    · -- the window had one row, so the new row is its only one
      obtain ⟨rfl, rfl⟩ : before₁ = [] ∧ before₂ = [] := append_eq_nil_iff.mp (length_eq_zero_iff.mp (by omega))
      simp [hone, hread]
    · obtain ⟨init, newLast, hinit⟩ := exists_last (show before₁ ++ row :: before₂ ≠ [] by simp)
      rw [hinit] at h' hread ⊢
      have hrowMem : row ∈ init ++ [newLast] := hinit ▸ by simp
      -- the new row is not after the last of the rows before the bound
      obtain ⟨result, hresult, hgt⟩ : ∃ result, take.cmp row newLast = some result ∧ result ≠ .gt := by
        rcases mem_append.mp hrowMem with hmem | hmem
        · exact ⟨.lt, (before_or_after (h'.part.sorted.sublist (sublist_append_left _ _))).1 row hmem, by decide⟩
        · rw [mem_singleton.mp hmem]
          exact ⟨.eq, h'.sortable.refl (h'.typed_of_mem (by simp)), by decide⟩
      simp [hone, hread, hresult, hgt]

/-- A row is added after the bound: with room it is the new bound. -/
theorem pushAdd_after (h : Filled take typed before last (after₁ ++ after₂) bound) (hrow : Before take.sort bound row) :
    h.Handles rows constraint (.add row) (before ++ last :: (after₁ ++ row :: after₂)) := by
  intro h'
  have hlimit := h.limit
  by_cases hroom : before.length + 1 < take.limit
  · obtain ⟨rfl, rfl⟩ : after₁ = [] ∧ after₂ = [] := append_eq_nil_iff.mp (h.full.resolve_right (by omega))
    have hcmp : take.cmp bound row = some .lt := hrow
    have hlist : before ++ last :: ([] ++ [row]) = (before ++ [last] ++ [row]) ++ [] := by simp
    rw [hlist] at h' ⊢
    refine h.stores h' (before.length + 2) [.add row] ?_ (by simp) (by omega) (.inl rfl)
      (leads_add h'.nodup_left (perm_append_singleton row _) (by simp; omega))
    simp only [pushPartition, pushAdd, hroom, addWithin, hcmp]
    simp
  · have hcmp : take.cmp row bound = some .gt := hrow.gt
    have hfilled : Filled take typed before last (after₁ ++ row :: after₂) bound :=
      ⟨h'.part.sorted, h.typed, h.same, hlimit, .inr (by omega)⟩
    refine h.keeps hfilled ⟨none, []⟩ ?_ rfl (leads_nil (card_toFinset_le h.length_le))
    simp [pushPartition, pushAdd, hroom, hcmp]

/-! ## Removing -/

/-- A row after the bound is removed. -/
theorem pushRemove_after (h : Filled take typed before last (after₁ ++ oldRow :: after₂) bound) :
    h.Handles rows constraint (.remove oldRow) (before ++ last :: (after₁ ++ after₂)) := by
  intro h'
  have hcmp : take.cmp oldRow bound = some .gt := h.after_bound (by simp)
  have hfilled : Filled take typed before last (after₁ ++ after₂) bound :=
    ⟨h'.part.sorted, h.typed, h.same, h.limit, .inr (h.full.resolve_left (by simp))⟩
  refine h.keeps hfilled ⟨none, []⟩ ?_ rfl (leads_nil (card_toFinset_le h.length_le))
  simp [pushPartition, pushRemove, hcmp]

/-- A candidate that is found after the bound is kept. -/
theorem lastCandidate_found (bound row : Row) (rest : List Row) :
    take.lastCandidate bound (some (row, true)) rest = some (some (row, true)) := by
  cases rest <;> rfl

/-- The first row after the bound takes its place; without one, the row at the bound or the one before it. -/
theorem replacement_eq {at_ : List Row} (h : TakeInput take typed rows constraint (before ++ at_ ++ after)) (hbound : typed bound)
    (hsplit : SplitAt take.sort bound before at_ after) (hat : at_.length ≤ 1) :
    take.replacement rows constraint bound = some ((after.head?.map (fun row => (row, true))).or
      ((before ++ at_).getLast?.map (fun row => (row, false)))) := by
  have hread := h.fetchBounded hbound hsplit
  have hbefore : before.getLast?.mapM (take.candidate bound) = some (before.getLast?.map (fun row => (row, false))) := by
    cases hlast : before.getLast? with
    | none => rfl
    | some row =>
      have hcmp : take.cmp row bound = some .lt := hsplit.before row (mem_of_getLast? hlast)
      simp [candidate, hcmp]
  have hfirst : ∀ found : Option Row, take.lastCandidate bound (found.map (fun row => (row, false))) after =
      some ((after.head?.map (fun row => (row, true))).or (found.map (fun row => (row, false)))) := by
    intro found
    cases after with
    | nil => rfl
    | cons first =>
      have hcmp : take.cmp first bound = some .gt := (hsplit.after first (by simp)).gt
      rw [lastCandidate, if_neg (by cases found <;> simp)]
      simp [candidate, hcmp, lastCandidate_found]
  rw [replacement, hread .after true, hread .at false]
  rw [head?_reverse, hbefore]
  simp only [bind_eq_bind, bind_some]
  match at_, hat with
  | [], _ => simpa using hfirst before.getLast?
  | [row], _ =>
    have hcmp : take.cmp row bound = some .eq := hsplit.at_ row (by simp)
    rw [singleton_append, lastCandidate, if_neg (by cases before.getLast? <;> simp)]
    simpa [candidate, hcmp] using hfirst (some row)

/-- A row of the window is removed: the first row after the bound takes its place, if there is one. -/
theorem pushRemove_within (h : Filled take typed before last after bound)
    (h' : TakeInput take typed rows constraint (left ++ after)) (hperm : (before ++ [last]).Perm (oldRow :: left))
    (hcmp : ∃ result, take.cmp oldRow bound = some result ∧ result ≠ .gt)
    (hreplacement : take.replacement rows constraint bound = some ((after.head?.map (fun row => (row, true))).or
      (left.getLast?.map (fun row => (row, false))))) :
    h.Keeps (left ++ after) (take.pushPartition rows constraint · (.remove oldRow)) := by
  obtain ⟨result, hresult, hgt⟩ := hcmp
  have hlimit := h.limit
  have hsize : before.length = left.length := by simpa using hperm.length_eq
  cases after with
  | nil =>
    refine h.stores h' _ [.remove oldRow] ?_ hsize (by omega) (.inl rfl)
      (leads_remove h.nodup hperm h.length_le)
    simp only [pushPartition, pushRemove, hresult, hgt, hreplacement, bind_eq_bind, bind_some]
    cases left.getLast? <;> simp
  | cons next =>
    have hfull := h.full.resolve_left (by simp)
    rw [append_cons] at h' ⊢
    refine h.stores h' (before.length + 1) [.remove oldRow, .add next] ?_ (by simp [hsize]) hlimit
      (.inr hfull) (leads_replace h.nodup h'.nodup_left hperm (perm_append_singleton next left) h.length_le)
    simp only [pushPartition, pushRemove, hresult, hgt, hreplacement, bind_eq_bind, bind_some]
    simp

/-- The row at the bound is removed. -/
theorem pushRemove_bound (h : Filled take typed before last after bound) :
    h.Handles rows constraint (.remove last) (before ++ after) := by
  intro h'
  have hreplacement := @replacement_eq take typed rows constraint before after bound [] (by simpa using h') h.typed
    h.splitAt.erase (by simp)
  rw [append_nil] at hreplacement
  exact pushRemove_within h h' (perm_append_singleton last before) ⟨.eq, h.same, by decide⟩ hreplacement

/-- A row before the bound is removed. -/
theorem pushRemove_before (h : Filled take typed (before₁ ++ oldRow :: before₂) last after bound) :
    h.Handles rows constraint (.remove oldRow) (before₁ ++ before₂ ++ last :: after) := by
  intro h'
  rw [append_cons (before₁ ++ before₂)] at h' ⊢
  have hreplacement := replacement_eq h' h.typed h.splitAt.eraseBefore (by simp)
  exact pushRemove_within h h' (perm_insert before₁ before₂ [last] oldRow) ⟨.lt, h.before_bound (by simp), by decide⟩ hreplacement

/-! ## Editing -/

/-- The row of the bound is edited in place: the stored bound keeps its place. -/
theorem pushEdit_bound_same (h : Filled take typed before last after bound) (hrow : SamePlace take.sort row bound) :
    h.Handles rows constraint (.edit row last) (before ++ row :: after) := by
  intro h'
  have hold : take.cmp last bound = some .eq := h.same
  have hnew : take.cmp row bound = some .eq := hrow
  have hfilled : Filled take typed before row after bound := ⟨h'.part.sorted, h.typed, hrow, h.limit, h.full⟩
  refine h.keeps hfilled ⟨none, [.edit row last]⟩ ?_ rfl (leads_edit h.nodup hfilled.nodup
    (perm_append_singleton last before) (perm_append_singleton row before) h.length_le)
  simp [pushPartition, pushEdit, hold, hnew, editBound]

/-- The row of the bound moves up. -/
theorem pushEdit_bound_before (h : Filled take typed (before₁ ++ before₂) last after bound)
    (hrow : Before take.sort row bound) :
    h.Handles rows constraint (.edit row last) (before₁ ++ row :: before₂ ++ after) := by
  intro h'
  have hold : take.cmp last bound = some .eq := h.same
  have hnew : take.cmp row bound = some .lt := hrow
  have hread := @TakeInput.fetchBounded take typed rows constraint (before₁ ++ row :: before₂) after bound []
    (by simpa using h') h.typed (h.splitAt.erase.insertBefore hrow)
  have hlimit := h.limit
  refine h.stores h' _ [.edit row last] ?_ perm_middle.length_eq.symm hlimit h.full
    (leads_edit h.nodup h'.nodup_left (perm_append_singleton last _) perm_middle h.length_le)
  simp only [pushPartition, pushEdit, hold, hnew, editBound, bind_eq_bind, bind_some]
  by_cases hone : take.limit = 1
  · obtain ⟨rfl, rfl⟩ : before₁ = [] ∧ before₂ = [] := append_eq_nil_iff.mp (length_eq_zero_iff.mp (by omega))
    simp [hone]
  · obtain ⟨init, newLast, hinit⟩ := exists_last (show before₁ ++ row :: before₂ ≠ [] by simp)
    rw [hinit] at hread ⊢
    simp [hone, hread]

/-- The next row after a bound once a row has come after it. -/
theorem exists_next {limited : Prop} (hfull : after₁ ++ after₂ = [] ∨ limited) (row : Row) :
    ∃ next rest, after₁ ++ row :: after₂ = next :: rest ∧ row ∈ next :: rest ∧ (rest = [] ∨ limited) := by
  cases after₁ with
  | nil => exact ⟨row, after₂, rfl, mem_cons_self, hfull⟩
  | cons first after =>
    exact ⟨first, after ++ row :: after₂, rfl, by simp, .inr (hfull.resolve_left (by simp))⟩

/-- A row of the window moves after the bound: it stays as the last row if it is the next one, or the next
one takes its place. -/
theorem pushEdit_next {next : Row} (h : Filled take typed before last after bound)
    (h' : TakeInput take typed rows constraint (left ++ next :: right))
    (hfull : right = [] ∨ before.length + 1 = take.limit)
    (hrow : row ∈ next :: right) (hperm : (before ++ [last]).Perm (oldRow :: left))
    (hpush : push ⟨before.length + 1, some bound⟩ = (take.cmp next row).bind (fun compared =>
      if compared = .eq then some ⟨some ⟨before.length + 1, some row⟩, [.edit row oldRow]⟩
      else some ⟨some ⟨before.length + 1, some next⟩, [.remove oldRow, .add next]⟩)) :
    h.Keeps (left ++ next :: right) push := by
  have hsize : before.length + 1 = (left ++ [next]).length := by simpa using hperm.length_eq
  have hmem : ∀ {other : Row}, other ∈ next :: right → other ∈ rows := fun hother =>
    ((h'.part.mem _).mp (mem_append_right _ hother)).1
  obtain ⟨compared, hcompared⟩ := isSome_iff_exists.mp (h'.sortable.compares next row
    (h'.typed next (hmem mem_cons_self)) (h'.typed row (hmem hrow)))
  rw [show take.cmp next row = some compared from hcompared, bind_some] at hpush
  have hnew := perm_append_singleton next left
  by_cases heq : compared = .eq
  · obtain rfl : next = row := h'.unique next (hmem mem_cons_self) row (hmem hrow)
      (by rw [SamePlace, hcompared, heq])
    rw [append_cons] at h' ⊢
    refine h.stores h' _ _ (hpush.trans (by rw [if_pos heq]; simp)) hsize h.limit hfull
      (leads_edit h.nodup h'.nodup_left hperm hnew h.length_le)
  · rw [append_cons] at h' ⊢
    refine h.stores h' _ _ (hpush.trans (by rw [if_neg heq]; simp)) hsize h.limit hfull
      (leads_replace h.nodup h'.nodup_left hperm hnew h.length_le)

/-- The row of the bound moves down. -/
theorem pushEdit_bound_after (h : Filled take typed before last (after₁ ++ after₂) bound)
    (hrow : Before take.sort bound row) :
    h.Handles rows constraint (.edit row last) (before ++ (after₁ ++ row :: after₂)) := by
  intro h'
  have hold : take.cmp last bound = some .eq := h.same
  have hnew : take.cmp row bound = some .gt := hrow.gt
  have hread := @TakeInput.fetchBounded take typed rows constraint before (after₁ ++ row :: after₂) bound []
    (by simpa using h') h.typed (h.splitAt.erase.insertAfter hrow)
  obtain ⟨next, rest, hnext, hmem, hrest⟩ := exists_next h.full row
  rw [hnext] at h' ⊢
  refine pushEdit_next h h' hrest hmem (perm_append_singleton last before) ?_
  simp [pushPartition, pushEdit, hold, hnew, editBound, hread, hnext]

/-- A row after the bound stays after it. -/
theorem pushEdit_outside_after (h : Filled take typed before last (after₁ ++ oldRow :: after₂) bound)
    (hrow : row ∈ after) : h.Handles rows constraint (.edit row oldRow) (before ++ last :: after) := by
  intro h'
  have hfilled : Filled take typed before last after bound :=
    ⟨h'.part.sorted, h.typed, h.same, h.limit, .inr (h.full.resolve_left (by simp))⟩
  have hold : take.cmp oldRow bound = some .gt := h.after_bound (by simp)
  have hnew : take.cmp row bound = some .gt := hfilled.after_bound hrow
  refine h.keeps hfilled ⟨none, []⟩ ?_ rfl (leads_nil (card_toFinset_le h.length_le))
  simp [pushPartition, pushEdit, hold, hnew, editOutside]

/-- A row after the bound moves into the window: the row at the bound goes. -/
theorem pushEdit_outside_before (h : Filled take typed (before₁ ++ before₂) last (after₁ ++ oldRow :: after₂) bound)
    (hrow : Before take.sort row bound) :
    h.Handles rows constraint (.edit row oldRow) (before₁ ++ row :: before₂ ++ last :: (after₁ ++ after₂)) := by
  intro h'
  have hold : take.cmp oldRow bound = some .gt := h.after_bound (by simp)
  have hnew : take.cmp row bound = some .lt := hrow
  have hread := @TakeInput.fetchBounded take typed rows constraint (before₁ ++ row :: before₂) (after₁ ++ after₂) bound
    [last] (by simpa using h') h.typed (h.splitAt.insertBefore hrow).eraseAfter
  refine h.stores h' _ [.remove last, .add row] ?_ perm_middle.length_eq.symm h.limit
    (.inr (h.full.resolve_left (by simp)))
    (leads_replace h.nodup h'.nodup_left (perm_append_singleton last _) perm_middle h.length_le)
  obtain ⟨init, newLast, hinit⟩ := exists_last (show before₁ ++ row :: before₂ ≠ [] by simp)
  rw [hinit] at hread ⊢
  simp [pushPartition, pushEdit, hold, hnew, editOutside, hread]

/-- A row before the bound stays before it. -/
theorem pushEdit_inside_before (h : Filled take typed (before₁ ++ oldRow :: before₂) last after bound)
    (heq : before₁ ++ before₂ = before' ++ after') :
    h.Handles rows constraint (.edit row oldRow) (before' ++ row :: after' ++ last :: after) := by
  intro h'
  have hsize : (before₁ ++ oldRow :: before₂).length = (before' ++ row :: after').length := by
    rw [perm_middle.length_eq, perm_middle.length_eq, heq]
    rfl
  have hfilled : Filled take typed (before' ++ row :: after') last after bound :=
    ⟨h'.part.sorted, h.typed, h.same, hsize ▸ h.limit, hsize ▸ h.full⟩
  have hold : take.cmp oldRow bound = some .lt := h.before_bound (by simp)
  have hnew : take.cmp row bound = some .lt := hfilled.before_bound (by simp)
  refine h.keeps hfilled ⟨none, [.edit row oldRow]⟩ ?_ (by rw [hsize]; rfl) (leads_edit h.nodup hfilled.nodup
    (perm_insert before₁ before₂ [last] oldRow) (heq ▸ perm_insert before' after' [last] row) h.length_le)
  simp [pushPartition, pushEdit, hold, hnew, editInside]

/-- A row before the bound moves after it. -/
theorem pushEdit_inside_after (h : Filled take typed (before₁ ++ oldRow :: before₂) last (after₁ ++ after₂) bound)
    (hrow : Before take.sort bound row) :
    h.Handles rows constraint (.edit row oldRow) (before₁ ++ before₂ ++ last :: (after₁ ++ row :: after₂)) := by
  intro h'
  have hold : take.cmp oldRow bound = some .lt := h.before_bound (by simp)
  have hnew : take.cmp row bound = some .gt := hrow.gt
  rw [append_cons (before₁ ++ before₂)] at h' ⊢
  have hread := h'.fetchBounded h.typed (h.splitAt.eraseBefore.insertAfter hrow)
  obtain ⟨next, rest, hnext, hmem, hrest⟩ := exists_next h.full row
  rw [hnext] at h' ⊢
  refine pushEdit_next h h' hrest hmem (perm_insert before₁ before₂ [last] oldRow) ?_
  simp [pushPartition, pushEdit, hold, hnew, editInside, hread, hnext]

/-! ## Every change -/

variable {part : List Row} {state : TakeState}

/-- A window is empty or filled. -/
theorem Window.cases_filled (h : Window take.sort typed take.limit part state)
    (hsorted : part.Pairwise (Before take.sort)) : (part = [] ∧ state = ⟨0, none⟩) ∨
      ∃ before last after bound, part = before ++ last :: after ∧ state = ⟨before.length + 1, some bound⟩ ∧
        Filled take typed before last after bound := by
  cases h with
  | empty => exact .inl ⟨rfl, rfl⟩
  | filled htyped hsame hlimit hfull => exact .inr ⟨_, _, _, _, rfl, rfl, hsorted, htyped, hsame, hlimit, hfull⟩

/-- Where a row of a list stands to another one. -/
theorem cons_position (h : before' ++ row :: after' = before ++ last :: after) :
    (∃ mid, before = before' ++ row :: mid ∧ after' = mid ++ last :: after) ∨
      (before' = before ∧ row = last ∧ after' = after) ∨
      ∃ mid, before' = before ++ last :: mid ∧ after = mid ++ row :: after' := by
  rcases append_eq_append_iff.mp h with ⟨mid, rfl, hmid⟩ | ⟨mid, rfl, hmid⟩
  · cases mid with
    | nil =>
      obtain ⟨rfl, rfl⟩ := cons.inj hmid
      exact .inr (.inl ⟨by simp, rfl, rfl⟩)
    | cons first mid =>
      obtain ⟨rfl, rfl⟩ := cons.inj hmid
      exact .inl ⟨mid, rfl, rfl⟩
  · cases mid with
    | nil =>
      obtain ⟨rfl, rfl⟩ := cons.inj hmid
      exact .inr (.inl ⟨by simp, rfl, rfl⟩)
    | cons first mid =>
      obtain ⟨rfl, rfl⟩ := cons.inj hmid
      exact .inr (.inr ⟨mid, rfl, rfl⟩)

/-- A row that has come is before or after the bound of another row. -/
theorem TakeInput.before_or_after (h : TakeInput take typed rows constraint (before ++ row :: after)) (hlast : last ∈ before ++ after)
    (hsame : SamePlace take.sort last bound) (hbound : typed bound) : Before take.sort row bound ∨ Before take.sort bound row := by
  have hmem : ∀ {other : Row}, other ∈ before ++ row :: after → other ∈ rows := fun hother => ((h.part.mem _).mp hother).1
  rcases h.sortable.trichotomy (h.typed row (hmem (by simp))) hbound with hlt | hrow | hlt
  · exact .inl hlt
  · -- two rows at one place are one row, which the list has once
    have heq : row = last := h.unique row (hmem (by simp)) last (hmem (perm_middle.mem_iff.mpr (mem_cons_of_mem _ hlast)))
      (hrow.trans hsame.symm)
    have hnodup := nodup_cons.mp (perm_middle.nodup_iff.mp h.part.nodup)
    exact absurd (heq ▸ hlast) hnodup.1
  · exact .inr hlt

variable {at_ : List Row}

/-- Rows that are not before the bound are after a row that is. -/
theorem SplitAt.before_rest (h : SplitAt take.sort bound before at_ after) (hrow : Before take.sort row bound) :
    ∀ other ∈ at_ ++ after, Before take.sort row other := by
  intro other hother
  rcases mem_append.mp hother with hother | hother
  · exact (h.at_ other hother).before_right.mpr hrow
  · exact hrow.trans (h.after other hother)

/-- Rows that are not after the bound are before a row that is. -/
theorem SplitAt.rest_before (h : SplitAt take.sort bound before at_ after) (hrow : Before take.sort bound row) :
    ∀ other ∈ before ++ at_, Before take.sort other row := by
  intro other hother
  rcases mem_append.mp hother with hother | hother
  · exact (h.before other hother).trans hrow
  · exact (h.at_ other hother).before_left.mpr hrow

section

variable (h : Filled take typed before last after bound)

include h

theorem Filled.pushAdd (heq : before ++ last :: after = before' ++ after') :
    h.Handles rows constraint (.add row) (before' ++ row :: after') := by
  intro h'
  rcases h'.before_or_after (heq ▸ by simp) h.same h.typed with hlt | hlt
  · obtain ⟨left₁, left₂, rfl, hlist⟩ := place_left h'.part.sorted heq.symm (h.splitAt.before_rest hlt)
    rw [hlist] at h' ⊢
    exact pushAdd_before h hlt h'
  · obtain ⟨right₁, right₂, rfl, hlist⟩ := place_right h'.part.sorted (heq.symm.trans (append_cons _ _ _))
      (h.splitAt.rest_before hlt)
    rw [hlist, ← append_cons] at h' ⊢
    exact pushAdd_after h hlt h'

theorem Filled.pushRemove (heq : before ++ last :: after = before' ++ oldRow :: after') :
    h.Handles rows constraint (.remove oldRow) (before' ++ after') := by
  rcases cons_position heq.symm with ⟨mid, rfl, rfl⟩ | ⟨rfl, rfl, rfl⟩ | ⟨mid, rfl, rfl⟩
  · rw [← append_assoc]
    exact pushRemove_before h
  · exact pushRemove_bound h
  · rw [append_assoc]
    exact pushRemove_after h

/-- The row of the bound is edited. -/
theorem Filled.pushEdit_bound (heq : before ++ after = before' ++ after') :
    h.Handles rows constraint (.edit row last) (before' ++ row :: after') := by
  intro h'
  have htyped : typed row := h'.typed_of_mem (by simp)
  rcases h'.sortable.trichotomy htyped h.typed with hlt | hsame | hlt
  · obtain ⟨left₁, left₂, rfl, hlist⟩ := place_left h'.part.sorted heq.symm (h.splitAt.erase.before_rest hlt)
    rw [hlist] at h' ⊢
    exact pushEdit_bound_before h hlt h'
  · -- the rows before and after the bound are those before and after the row
    have hsorted : (before ++ row :: after).Pairwise (Before take.sort) := by
      have hpairs := pairwise_append.mp h.sorted
      refine pairwise_append.mpr ⟨hpairs.1, pairwise_cons.mpr
        ⟨fun other hother => hsame.before_left.mpr (h.splitAt.after other hother), (pairwise_cons.mp hpairs.2.1).2⟩, ?_⟩
      intro a ha b hb
      rcases mem_cons.mp hb with rfl | hb
      · exact hsame.before_right.mpr (h.splitAt.before a ha)
      · exact hpairs.2.2 a ha b (mem_cons_of_mem _ hb)
    have hlist : before' ++ row :: after' = before ++ row :: after := by
      refine eq_of_sorted h'.part.sorted hsorted (fun other => ?_)
      rw [perm_middle.mem_iff, perm_middle.mem_iff, mem_cons, mem_cons, heq]
    rw [hlist] at h' ⊢
    exact pushEdit_bound_same h hsame h'
  · obtain ⟨right₁, right₂, rfl, hlist⟩ := place_right h'.part.sorted heq.symm
      (fun other hother => (h.splitAt.before other hother).trans hlt)
    rw [hlist] at h' ⊢
    exact pushEdit_bound_after h hlt h'

theorem Filled.pushEdit (heq : before ++ last :: after = before₁ ++ oldRow :: after₁)
    (heq' : before₁ ++ after₁ = before' ++ after') :
    h.Handles rows constraint (.edit row oldRow) (before' ++ row :: after') := by
  intro h'
  rcases cons_position heq.symm with ⟨mid, rfl, rfl⟩ | ⟨rfl, rfl, rfl⟩ | ⟨mid, rfl, rfl⟩
  · rw [← append_assoc] at heq'
    rcases h'.before_or_after (heq' ▸ by simp) h.same h.typed with hlt | hlt
    · obtain ⟨left₁, left₂, hleft, hlist⟩ := place_left h'.part.sorted heq'.symm (h.splitAt.before_rest hlt)
      rw [hlist] at h' ⊢
      exact pushEdit_inside_before h hleft h'
    · obtain ⟨right₁, right₂, rfl, hlist⟩ := place_right h'.part.sorted (heq'.symm.trans (append_cons _ _ _))
        (h.splitAt.eraseBefore.rest_before hlt)
      rw [hlist, ← append_cons] at h' ⊢
      exact pushEdit_inside_after h hlt h'
  · exact h.pushEdit_bound heq' h'
  · rw [append_assoc] at heq'
    rcases h'.before_or_after (heq' ▸ by simp) h.same h.typed with hlt | hlt
    · obtain ⟨left₁, left₂, rfl, hlist⟩ := place_left h'.part.sorted heq'.symm (h.splitAt.eraseAfter.before_rest hlt)
      rw [hlist] at h' ⊢
      exact pushEdit_outside_before h hlt h'
    · obtain ⟨right₁, right₂, -, hlist⟩ := place_right h'.part.sorted (heq'.symm.trans (append_cons _ _ _))
        (h.splitAt.rest_before hlt)
      rw [hlist, ← append_cons] at h' ⊢
      exact pushEdit_outside_after h (by simp) h'

end

/-- A push keeps the window of the partition that changes. -/
theorem Window.pushPartition {part' : List Row} (h : Window take.sort typed take.limit part state)
    (hsorted : part.Pairwise (Before take.sort)) (h' : TakeInput take typed rows constraint part')
    {change : SourceChange} (hchange : ListChange part change part') (hlimit : 1 ≤ take.limit) :
    KeepsWindow take typed part part' state (take.pushPartition rows constraint · change) := by
  rcases h.cases_filled hsorted with ⟨rfl, rfl⟩ | ⟨before, last, after, bound, rfl, rfl, hfilled⟩
  · cases change with
    | add row =>
      obtain ⟨before, after, heq, rfl⟩ := hchange
      obtain ⟨rfl, rfl⟩ := append_eq_nil_iff.mp heq.symm
      obtain ⟨hwindow, htake⟩ := @TakeInput.window take typed rows constraint [row] [] h' hlimit hlimit (.inl rfl)
      refine ⟨⟨some ⟨1, some row⟩, [.add row]⟩, ?_, hwindow, ?_⟩
      · simp only [pushPartition, pushAdd, show 0 < take.limit from hlimit]
        rfl
      · rw [take_nil, show [] ++ [row] = [row] ++ [] by rfl, htake]
        exact leads_add (nodup_singleton row) (.refl _) hlimit
    | remove =>
      obtain ⟨before, after, heq, -⟩ := hchange
      simp at heq
    | edit =>
      obtain ⟨before, after, _, _, heq, -⟩ := hchange
      simp at heq
  · cases change with
    | add =>
      obtain ⟨before', after', heq, rfl⟩ := hchange
      exact hfilled.pushAdd heq h'
    | remove =>
      obtain ⟨before', after', heq, rfl⟩ := hchange
      exact hfilled.pushRemove heq h'
    | edit =>
      obtain ⟨before₁, after₁, before', after', heq, heq', rfl⟩ := hchange
      exact hfilled.pushEdit heq heq' h'

end ZeroCache.Zql
