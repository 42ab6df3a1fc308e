import ZeroCache.Zql.TakeWindow

/-!
# Runs of a limit

A source whose rows are comparable and at different places stays so under valid changes. Along every run
of fetches and pushes the storage of a limit describes, for each partition that was fetched, the window of
the rows of that partition, and the largest bound is not before any bound.
-/

namespace ZeroCache.Zql

open List Option Assoc SourceChange Take SourceSchema FetchRequest

/-! ## Sources -/

/-- The rows of a source: none twice, all comparable, no two at the same place. -/
structure ProperRows (order : QueryOrdering) (typed : Row → Prop) (rows : List Row) : Prop where
  nodup : rows.Nodup
  typed : ∀ row ∈ rows, typed row
  unique : Unique order rows

/-- A valid change removes a row of the source and adds one whose place no other row has. -/
structure ValidChange (order : QueryOrdering) (typed : Row → Prop) (rows : List Row) (change : SourceChange) : Prop where
  removed : ∀ row ∈ change.removed, row ∈ rows
  typed : ∀ row ∈ change.added, typed row
  fresh : ∀ row ∈ change.added, ∀ other ∈ rows, change.removed ≠ some other → ¬ SamePlace order other row

section Sources

variable {order : QueryOrdering} {typed : Row → Prop} {rows part : List Row} {change : SourceChange}
  {constraint : Option Constraint}

theorem ProperRows.sortsApart (h : ProperRows order typed rows) (hsortable : Sortable order typed) :
    SortsApart order rows := hsortable.sortsApart h.typed h.unique

variable {row : Row}

/-- A row that is added is not there, unless it is the one removed. -/
theorem ValidChange.not_mem (h : ValidChange order typed rows change) (hsortable : Sortable order typed)
    (hadded : change.added = some row) (hremoved : change.removed ≠ some row) : row ∉ rows :=
  fun hmem => h.fresh row hadded row hmem hremoved (hsortable.refl (h.typed row hadded))

/-- A valid change keeps the rows proper. -/
theorem ProperRows.apply (h : ProperRows order typed rows) (hsortable : Sortable order typed)
    (hchange : ValidChange order typed rows change) : ProperRows order typed (change.apply rows) := by
  have hmem : ∀ row, row ∈ change.apply rows ↔ _ := fun row => mem_apply h.nodup
  refine ⟨?_, fun row hrow => ?_, fun a ha b hb hsame => ?_⟩
  · cases change with
    | add row =>
      refine List.Nodup.append h.nodup (nodup_singleton row) ?_
      simpa using hchange.not_mem hsortable rfl (by simp [removed])
    | remove row => exact h.nodup.erase row
    | edit row oldRow =>
      refine List.Nodup.append (h.nodup.erase oldRow) (nodup_singleton row) ?_
      simp only [disjoint_singleton, h.nodup.mem_erase_iff, not_and]
      intro hne
      exact hchange.not_mem hsortable rfl (by simpa [removed] using Ne.symm hne)
  · rcases (hmem row).mp hrow with hadded | ⟨hrow, -⟩
    · exact hchange.typed row hadded
    · exact h.typed row hrow
  · rcases (hmem a).mp ha with hadded | ⟨ha, hkept⟩
    · rcases (hmem b).mp hb with hadded' | ⟨hb, hkept'⟩
      · exact some.inj (hadded.symm.trans hadded')
      · exact absurd hsame.symm (hchange.fresh a hadded b hb hkept')
    · rcases (hmem b).mp hb with hadded' | ⟨hb, hkept'⟩
      · exact absurd hsame (hchange.fresh b hadded' a ha hkept)
      · exact h.unique a ha b hb hsame

/-- A change of rows that do not match leaves the rows that match as they are. -/
theorem SortedPart.untouched (h : SortedPart order constraint rows part) (hnodup : rows.Nodup)
    (hmatch : ∀ row, change.added = some row ∨ change.removed = some row → constraintMatches constraint row = false) :
    SortedPart order constraint (change.apply rows) part := by
  refine ⟨h.sorted, fun row => ?_⟩
  rw [h.mem, mem_apply hnodup]
  constructor
  · rintro ⟨hrow, hmatches⟩
    refine ⟨.inr ⟨hrow, fun hremoved => ?_⟩, hmatches⟩
    rw [hmatch row (.inr hremoved)] at hmatches
    cases hmatches
  · rintro ⟨hadded | ⟨hrow, -⟩, hmatches⟩
    · rw [hmatch row (.inl hadded)] at hmatches
      cases hmatches
    · exact ⟨hrow, hmatches⟩

/-- Removing a row from a sorted list. -/
theorem mem_without {before after : List Row} {oldRow : Row} (hsorted : (before ++ oldRow :: after).Pairwise (Before order))
    (row : Row) : row ∈ before ++ after ↔ row ∈ before ++ oldRow :: after ∧ row ≠ oldRow := by
  have hnodup : (before ++ oldRow :: after).Nodup := hsorted.imp Before.ne
  have hold := (nodup_cons.mp (perm_middle.nodup_iff.mp hnodup)).1
  rw [perm_middle.mem_iff, mem_cons]
  constructor
  · exact fun hrow => ⟨.inr hrow, fun heq => hold (heq ▸ hrow)⟩
  · rintro ⟨rfl | hrow, hne⟩
    · exact absurd rfl hne
    · exact hrow

/-- A row that comes has a place among the rows that match. -/
theorem ValidChange.exists_place (h : ValidChange order typed rows change) (hsortable : Sortable order typed)
    (hrows : ProperRows order typed rows) (hadded : change.added = some row) {left : List Row}
    (hsorted : left.Pairwise (Before order))
    (hleft : ∀ other ∈ left, other ∈ rows ∧ change.removed ≠ some other) :
    ∃ before after, left = before ++ after ∧ (before ++ row :: after).Pairwise (Before order) := by
  refine Zql.exists_place hsorted (fun other hother => ?_)
  obtain ⟨hmem, hkept⟩ := hleft other hother
  rcases hsortable.trichotomy (hrows.typed other hmem) (h.typed row hadded) with hlt | hsame | hlt
  · exact .inl hlt
  · exact absurd hsame (h.fresh row hadded other hmem hkept)
  · exact .inr hlt

/-- A change of rows that match changes the rows that match. -/
theorem SortedPart.listChange (h : SortedPart order constraint rows part) (hsortable : Sortable order typed)
    (hrows : ProperRows order typed rows) (hchange : ValidChange order typed rows change)
    (hmatch : ∀ row, change.added = some row ∨ change.removed = some row → constraintMatches constraint row = true) :
    ∃ part', SortedPart order constraint (change.apply rows) part' ∧ ListChange part change part' := by
  have hmem : ∀ row, row ∈ change.apply rows ∧ constraintMatches constraint row = true ↔
      change.added = some row ∨ (row ∈ part ∧ change.removed ≠ some row) := by
    intro row
    rw [mem_apply hrows.nodup, h.mem]
    tauto
  cases change with
  | add row =>
    obtain ⟨before, after, rfl, hsorted⟩ := hchange.exists_place hsortable hrows rfl h.sorted
      (fun other hother => ⟨((h.mem other).mp hother).1, by simp [removed]⟩)
    refine ⟨before ++ row :: after, ⟨hsorted, fun other => ?_⟩, before, after, rfl, rfl⟩
    rw [hmem, perm_middle.mem_iff]
    simp [added, removed, eq_comm]
  | remove row =>
    have hrow : row ∈ part := (h.mem row).mpr ⟨hchange.removed row rfl, hmatch row (.inr rfl)⟩
    obtain ⟨before, after, rfl⟩ := append_of_mem hrow
    refine ⟨before ++ after, ⟨?_, fun other => ?_⟩, before, after, rfl, rfl⟩
    · exact h.sorted.sublist ((sublist_cons_self _ _).append_left _)
    · rw [hmem, mem_without h.sorted]
      simp [added, removed, eq_comm]
  | edit row oldRow =>
    have hrow : oldRow ∈ part := (h.mem oldRow).mpr ⟨hchange.removed oldRow rfl, hmatch oldRow (.inr rfl)⟩
    obtain ⟨before, after, rfl⟩ := append_of_mem hrow
    have hleft : (before ++ after).Pairwise (Before order) := h.sorted.sublist ((sublist_cons_self _ _).append_left _)
    obtain ⟨before', after', heq, hsorted⟩ := hchange.exists_place hsortable hrows rfl hleft (fun other hother => by
      obtain ⟨hmem, hne⟩ := (mem_without h.sorted other).mp hother
      exact ⟨((h.mem other).mp hmem).1, by simpa [removed] using Ne.symm hne⟩)
    refine ⟨before' ++ row :: after', ⟨hsorted, fun other => ?_⟩, before, after, before', after', rfl, heq, rfl⟩
    rw [hmem, perm_middle.mem_iff, mem_cons, ← heq, mem_without h.sorted]
    simp [added, removed, eq_comm]

end Sources

/-! ## Storage -/

/-- A row is not after another. -/
def NotAfter (order : QueryOrdering) (a b : Row) : Prop := Before order a b ∨ SamePlace order a b

variable {order : QueryOrdering}

theorem NotAfter.trans {a b c : Row} (hab : NotAfter order a b) (hbc : NotAfter order b c) : NotAfter order a c := by
  rcases hab with hab | hab
  · rcases hbc with hbc | hbc
    · exact .inl (hab.trans hbc)
    · exact .inl (hbc.before_right.mp hab)
  · rcases hbc with hbc | hbc
    · exact .inl (hab.before_left.mpr hbc)
    · exact .inr (hab.trans hbc)

theorem NotAfter.compareRows_eq {a b : Row} (h : NotAfter order a b) :
    ∃ result, compareRows order a b = some result ∧ result ≠ .gt := by
  rcases h with h | h
  · exact ⟨.lt, h, by decide⟩
  · exact ⟨.eq, h, by decide⟩

theorem Sortable.notAfter_or {typed : Row → Prop} {a b : Row} (h : Sortable order typed)
    (ha : typed a) (hb : typed b) : NotAfter order a b ∨ Before order b a := by
  rcases h.trichotomy ha hb with hlt | hsame | hlt
  · exact .inl (.inl hlt)
  · exact .inl (.inr hsame)
  · exact .inr hlt

section Storage

variable {take : Take} {typed : Row → Prop} {rows part : List Row} {storage : TakeStorage}
  {fields : Option (Fields JsonValue)}

variable {state : TakeState}

/-- A state is stored under its key, and the largest bound is not before its bound or the one before. -/
theorem setTakeState_eq (hsortable : Sortable take.sort typed) (key : JsonValue)
    (hbound : ∀ bound ∈ state.bound, typed bound) (hmax : ∀ bound ∈ storage.maxBound, typed bound) :
    ∃ storage', take.setTakeState storage key state = some storage' ∧
      storage'.states = set storage.states key state ∧ (∀ bound ∈ storage'.maxBound, typed bound) ∧
      ∀ bound, bound ∈ state.bound ∨ bound ∈ storage.maxBound → ∃ m ∈ storage'.maxBound, NotAfter take.sort bound m := by
  obtain ⟨size, bound⟩ := state
  obtain ⟨states, maxBound⟩ := storage
  cases bound with
  | none =>
    refine ⟨_, rfl, rfl, hmax, fun bound hb => ?_⟩
    have hb := hb.resolve_left (by simp)
    exact ⟨bound, hb, .inr (hsortable.refl (hmax bound hb))⟩
  | some bound =>
    have htyped := hbound bound rfl
    cases maxBound with
    | none =>
      refine ⟨_, rfl, rfl, by simpa using htyped, fun other hb => ⟨bound, rfl, ?_⟩⟩
      obtain rfl : bound = other := by simpa using hb
      exact .inr (hsortable.refl htyped)
    | some m =>
      have hm := hmax m rfl
      simp only [setTakeState, Take.cmp]
      rcases hsortable.notAfter_or htyped hm with hle | hlt
      · obtain ⟨result, hresult, hgt⟩ := hle.compareRows_eq
        refine ⟨⟨set states key ⟨size, some bound⟩, some m⟩, by simp [hresult, hgt], rfl, hmax, fun other hb => ⟨m, rfl, ?_⟩⟩
        rcases hb with hb | hb
        · exact some.inj hb ▸ hle
        · exact .inr (some.inj hb ▸ hsortable.refl hm)
      · refine ⟨_, by rw [hlt.gt]; rfl, rfl, by simpa using htyped, fun other hb => ⟨bound, rfl, ?_⟩⟩
        rcases hb with hb | hb
        · exact .inr (some.inj hb ▸ hsortable.refl htyped)
        · exact .inl (some.inj hb ▸ hlt)

/-- The constraint of the partition of given values. -/
def Take.constraintOf (take : Take) (fields : Option (Fields JsonValue)) : Option Constraint :=
  match take.partitionKey, fields with
  | some key, some fields => some (key.map (fun column => (column, Row.get fields column)))
  | _, _ => none

theorem Take.constraintOf_some (take : Take) (row : Row) : take.constraintOf (some row) = take.partitionConstraint row := by
  unfold constraintOf partitionConstraint
  cases take.partitionKey <;> rfl

/-- The values of a partition: those of its key, none of them NULL. -/
def Take.Selective (take : Take) (fields : Option (Fields JsonValue)) : Prop :=
  match take.partitionKey, fields with
  | none, _ => True
  | some _, none => False
  | some key, some fields => ∀ column ∈ key, Row.get fields column ≠ .null

/-- The rows of a partition are those that are stored under its key. -/
theorem Take.Selective.matches_iff (h : take.Selective fields) (row : Row) :
    constraintMatches (take.constraintOf fields) row = true ↔
      takeStateKey take.partitionKey (some row) = takeStateKey take.partitionKey fields := by
  unfold Take.Selective at h
  unfold constraintOf takeStateKey
  cases hkey : take.partitionKey with
  | none => simp [constraintMatches]
  | some =>
    rw [hkey] at h
    cases fields with
    | none => exact False.elim h
    | some =>
      simp only [constraintMatches, List.all_map, List.all_eq_true, Function.comp_apply, Bool.and_eq_true,
        decide_eq_true_eq, JsonValue.array.injEq, cons.injEq, true_and, map_inj_left]
      exact ⟨fun hall column hcolumn => (hall column hcolumn).2,
        fun hall column hcolumn => ⟨h column hcolumn, hall column hcolumn⟩⟩

theorem Take.Selective.isSome (h : take.Selective fields) (hkey : take.partitionKey.isSome) : fields.isSome := by
  obtain ⟨key, hkey⟩ := isSome_iff_exists.mp hkey
  cases fields with
  | none => simp [Take.Selective, hkey] at h
  | some => rfl

theorem Take.constraintOf_eq {fields' : Option (Fields JsonValue)}
    (h : takeStateKey take.partitionKey fields = takeStateKey take.partitionKey fields')
    (hsome : take.partitionKey.isSome → fields.isSome ∧ fields'.isSome) : take.constraintOf fields = take.constraintOf fields' := by
  unfold takeStateKey at h
  unfold constraintOf
  cases hkey : take.partitionKey with
  | none => rfl
  | some key =>
    rw [hkey] at h hsome
    obtain ⟨values, rfl⟩ := isSome_iff_exists.mp (hsome rfl).1
    obtain ⟨values', rfl⟩ := isSome_iff_exists.mp (hsome rfl).2
    have hvalues : key.map (Row.get values) = key.map (Row.get values') := by simpa using h
    simp only [some.injEq, map_inj_left, Prod.mk.injEq, true_and]
    exact map_inj_left.mp hvalues

/-- What holds of the storage of a limit: a state under a key is the window of the partition of that key, and
the largest bound is not before any bound. -/
structure TakeInv (take : Take) (typed : Row → Prop) (rows : List Row) (storage : TakeStorage) : Prop where
  proper : ProperRows take.sort typed rows
  window : ∀ key state, Assoc.get? storage.states key = some state → 1 ≤ take.limit ∧
    ∃ fields part, key = takeStateKey take.partitionKey fields ∧ take.Selective fields ∧
      SortedPart take.sort (take.constraintOf fields) rows part ∧ Window take.sort typed take.limit part state
  maxTyped : ∀ bound ∈ storage.maxBound, typed bound
  max : ∀ key state, Assoc.get? storage.states key = some state → ∀ bound ∈ state.bound,
    ∃ m ∈ storage.maxBound, NotAfter take.sort bound m

theorem Window.typed_bound {order : QueryOrdering} {limit : ℕ} (h : Window order typed limit part state) :
    ∀ bound ∈ state.bound, typed bound := by
  cases h with
  | empty => simp
  | filled htyped => simpa using htyped

variable {key : JsonValue}

/-- A new state under one key keeps what holds, if the rows of the other partitions stay. -/
theorem TakeInv.update (h : TakeInv take typed rows storage) {rows' : List Row}
    (hproper : ProperRows take.sort typed rows')
    {storage' : TakeStorage} (hothers : ∀ fields part, take.Selective fields → takeStateKey take.partitionKey fields ≠ key →
      SortedPart take.sort (take.constraintOf fields) rows part → SortedPart take.sort
    (take.constraintOf fields) rows' part)
    (hget : ∀ other, get? storage'.states other = if other = key then some state else get? storage.states other)
    (hmaxTyped : ∀ bound ∈ storage'.maxBound, typed bound)
    (hmax : ∀ bound, bound ∈ state.bound ∨ bound ∈ storage.maxBound → ∃ m ∈ storage'.maxBound, NotAfter take.sort bound m)
    (hkey : 1 ≤ take.limit ∧ ∃ fields part, key = takeStateKey take.partitionKey fields ∧ take.Selective fields ∧
      SortedPart take.sort (take.constraintOf fields) rows' part ∧ Window take.sort typed take.limit part state) :
    TakeInv take typed rows' storage' := by
  refine ⟨hproper, fun other found hfound => ?_, hmaxTyped, fun other found hfound bound hbound => ?_⟩
  · rw [hget] at hfound
    split at hfound
    · next heq =>
      obtain rfl := some.inj hfound
      exact heq ▸ hkey
    · next hne =>
      obtain ⟨hlimit, fields, part, rfl, hsel, hpart, hwindow⟩ := h.window other found hfound
      exact ⟨hlimit, fields, part, rfl, hsel, hothers fields part hsel hne hpart, hwindow⟩
  · rw [hget] at hfound
    split at hfound
    · obtain rfl := some.inj hfound
      exact hmax bound (.inl hbound)
    · obtain ⟨m, hm, hle⟩ := h.max other found hfound bound hbound
      obtain ⟨m', hm', hle'⟩ := hmax m (.inr hm)
      exact ⟨m', hm', hle.trans hle'⟩

/-! ## Pushing -/

variable {change : SourceChange}

/-- An edit keeps its row in its partition. -/
def Take.KeepsPartition (take : Take) (change : SourceChange) : Prop :=
  ∀ row oldRow, change = .edit row oldRow → take.samePartition row oldRow = true

/-- All rows of a change that keeps partitions are of one partition. -/
theorem Take.KeepsPartition.partitionRow_eq (h : take.KeepsPartition change) :
    ∃ row, take.partitionRow change = some row ∧ ∀ other, change.added = some other ∨ change.removed = some other →
      takeStateKey take.partitionKey (some other) = takeStateKey take.partitionKey (some row) := by
  cases change with
  | add row | remove row => exact ⟨row, rfl, by simp [added, removed]⟩
  | edit row oldRow =>
    have hsame := h row oldRow rfl
    refine ⟨oldRow, by rw [partitionRow, if_pos hsame], fun other hother => ?_⟩
    rcases hother with hother | hother
    · obtain rfl := some.inj hother
      unfold takeStateKey
      cases hkey : take.partitionKey with
      | none => rfl
      | some =>
        simp only [samePartition, hkey, List.all_eq_true, decide_eq_true_eq] at hsame
        simp only [JsonValue.array.injEq, cons.injEq, true_and, map_inj_left]
        exact fun column hcolumn => (eq_of_compareValues (hsame column hcolumn)).symm
    · rw [some.inj hother]

/-- What a push decides is stored. -/
theorem store_eq (hsortable : Sortable take.sort typed) (hstate : get? storage.states key = some state)
    {outcome : TakeOutcome}
    (hbound : ∀ bound ∈ (outcome.state.getD state).bound, typed bound) (h : TakeInv take typed rows storage) :
    ∃ storage', take.store storage key outcome = some storage' ∧ (∀ other, get? storage'.states other =
        if other = key then some (outcome.state.getD state) else get? storage.states other) ∧
      (∀ bound ∈ storage'.maxBound, typed bound) ∧ ∀ bound, bound ∈ (outcome.state.getD state).bound ∨
        bound ∈ storage.maxBound → ∃ m ∈ storage'.maxBound, NotAfter take.sort bound m := by
  obtain ⟨stored, emitted⟩ := outcome
  cases stored with
  | none =>
    refine ⟨storage, rfl, fun other => ?_, h.maxTyped, fun bound hb => ?_⟩
    · split
      · next heq => rw [heq, hstate, getD_none]
      · rfl
    · rcases hb with hb | hb
      · exact h.max key state hstate bound hb
      · exact ⟨bound, hb, .inr (hsortable.refl (h.maxTyped bound hb))⟩
  | some =>
    obtain ⟨storage', hset, hstates, hmaxTyped, hmax⟩ := setTakeState_eq hsortable key hbound h.maxTyped
    exact ⟨storage', hset, fun other => by rw [hstates, get?_set, getD_some], hmaxTyped, hmax⟩

/-- A push keeps the window of the partition it falls into, which is the only one it touches. -/
theorem TakeInv.push (h : TakeInv take typed rows storage) (hsortable : Sortable take.sort typed)
    (hchange : ValidChange take.sort typed rows change) (hkeeps : take.KeepsPartition change) :
    ∃ row storage' emitted, take.partitionRow change = some row ∧
      take.push storage (change.apply rows) change = some (storage', emitted) ∧
      TakeInv take typed (change.apply rows) storage' ∧ (∀ key, key ≠ takeStateKey take.partitionKey (some row) →
        get? storage'.states key = get? storage.states key) ∧
      ((get? storage.states (takeStateKey take.partitionKey (some row))).isSome →
        (get? storage'.states (takeStateKey take.partitionKey (some row))).isSome) ∧
      (∀ fields part, take.Selective fields → takeStateKey take.partitionKey fields ≠ takeStateKey take.partitionKey (some row) →
        SortedPart take.sort (take.constraintOf fields) rows part →
        SortedPart take.sort (take.constraintOf fields) (change.apply rows) part) ∧
      (get? storage.states (takeStateKey take.partitionKey (some row)) = none → emitted = []) ∧
      ((get? storage.states (takeStateKey take.partitionKey (some row))).isSome →
        ∃ part part', SortedPart take.sort (take.constraintOf (some row)) rows part ∧
          SortedPart take.sort (take.constraintOf (some row)) (change.apply rows) part' ∧
          SourceChange.Leads take.limit (part.take take.limit).toFinset emitted (part'.take take.limit).toFinset) := by
  obtain ⟨row, hrow, hkeys⟩ := hkeeps.partitionRow_eq
  refine ⟨row, ?_⟩
  generalize hkey : takeStateKey take.partitionKey (some row) = key
  have hproper := h.proper.apply hsortable hchange
  have hothers : ∀ fields part, take.Selective fields → takeStateKey take.partitionKey fields ≠ key →
      SortedPart take.sort (take.constraintOf fields) rows part →
      SortedPart take.sort (take.constraintOf fields) (change.apply rows) part := by
    intro fields part hsel hne hpart
    refine hpart.untouched h.proper.nodup (fun other hother => ?_)
    rw [← Bool.not_eq_true, hsel.matches_iff, hkeys other hother, hkey]
    exact Ne.symm hne
  cases hstate : get? storage.states key with
  | none =>
    refine ⟨storage, [], hrow, by simp [Take.push, hrow, hkey, hstate], ?_, fun _ _ => rfl, by simp, hothers,
      fun _ => rfl, by simp⟩
    refine ⟨hproper, fun other state hfound => ?_, h.maxTyped, h.max⟩
    obtain ⟨hlimit, fields, part, rfl, hsel, hpart, hwindow⟩ := h.window other state hfound
    refine ⟨hlimit, fields, part, rfl, hsel, hothers fields part hsel ?_ hpart, hwindow⟩
    rintro heq
    rw [heq, hstate] at hfound
    cases hfound
  | some state =>
    obtain ⟨hlimit, fields, part, hfields, hsel, hpart, hwindow⟩ := h.window key state hstate
    obtain ⟨part', hpart', hlist⟩ := hpart.listChange hsortable h.proper hchange
      (fun other hother => (hsel.matches_iff other).mpr ((hkeys other hother).trans (hkey.trans hfields)))
    have hconstraint : take.constraintOf (some row) = take.constraintOf fields :=
      constraintOf_eq (hkey.trans hfields) (fun hsome => ⟨rfl, hsel.isSome hsome⟩)
    obtain ⟨outcome, houtcome, hwindow', hleads⟩ := hwindow.pushPartition hpart.sorted
      ⟨hsortable, hproper.typed, hproper.unique, hpart'⟩ hlist hlimit
    obtain ⟨storage', hstore, hget, hmaxTyped, hmax⟩ := store_eq hsortable hstate hwindow'.typed_bound h
    refine ⟨storage', outcome.emitted, hrow, ?_, ?_, fun other hne => by rw [hget, if_neg hne],
      fun _ => by rw [hget, if_pos rfl]; rfl, hothers, by simp, fun _ => ?_⟩
    · simp [Take.push, hrow, hkey, hstate, ← Take.constraintOf_some, hconstraint, houtcome, hstore]
    · exact h.update hproper hothers hget hmaxTyped hmax ⟨hlimit, fields, part', hfields, hsel, hpart', hwindow'⟩
    · exact hconstraint ▸ ⟨part, part', hpart, hpart', hleads⟩

/-! ## Fetching -/

/-- The first rows of a partition are a window. -/
theorem window_initial (hsortable : Sortable take.sort typed) (hpart : SortedPart take.sort (take.constraintOf fields) rows part)
    (hproper : ProperRows take.sort typed rows) (hlimit : 1 ≤ take.limit) :
    Window take.sort typed take.limit part ⟨(part.take take.limit).length, (part.take take.limit).getLast?⟩ := by
  have hinput : TakeInput take typed rows (take.constraintOf fields) (part.take take.limit ++ part.drop take.limit) :=
    ⟨hsortable, hproper.typed, hproper.unique, (take_append_drop take.limit part).symm ▸ hpart⟩
  have hwindow := (hinput.window hlimit (length_take_le _ _) (by
    rw [drop_eq_nil_iff, length_take]
    omega)).1
  rwa [take_append_drop] at hwindow

/-- The rows up to the bound are those of the window. -/
theorem Filled.upTo {before after : List Row} {last bound : Row} (h : Filled take typed before last after bound) :
    take.upTo bound none (before ++ last :: after) = some (before ++ [last]) := by
  have hkept : ∀ left rest : List Row, (∀ row ∈ left, NotAfter take.sort row bound) →
      take.upTo bound none (left ++ rest) = (take.upTo bound none rest).map (left ++ ·) := by
    intro left rest hleft
    induction left with
    | nil => simp
    | cons row left ih =>
      have hcmp : ∃ result, take.cmp bound row = some result ∧ result ≠ .lt := by
        rcases hleft row mem_cons_self with hlt | hsame
        · exact ⟨.gt, hlt.gt, by decide⟩
        · exact ⟨.eq, hsame.symm, by decide⟩
      obtain ⟨result, hresult, hlt⟩ := hcmp
      rw [cons_append, Take.upTo, hresult, ih (fun other hother => hleft other (mem_cons_of_mem _ hother))]
      cases take.upTo bound none rest <;> simp [hlt, Take.isHidden]
  rw [append_cons, hkept]
  · cases after with
    | nil => simp [Take.upTo]
    | cons row after =>
      have hcmp : take.cmp bound row = some .lt := h.splitAt.after row mem_cons_self
      simp [Take.upTo, hcmp]
  · intro row hrow
    rcases mem_append.mp hrow with hrow | hrow
    · exact .inl (h.splitAt.before row hrow)
    · exact .inr (h.splitAt.at_ row hrow)

/-- A fetch of a partition returns its first rows and hydrates it. -/
theorem TakeInv.fetch (h : TakeInv take typed rows storage) (hsortable : Sortable take.sort typed)
    (hmatch : constraintMatchesPartitionKey fields take.partitionKey = true) (hsel : take.Selective fields)
    (hpart : SortedPart take.sort (take.constraintOf fields) rows part)
    (hread : readInput take.sort rows ⟨fields, [], none, false⟩ = part) :
    ∃ storage', take.fetch storage none rows ⟨fields, [], none, false⟩ = some (storage', part.take take.limit) ∧
      TakeInv take typed rows storage' ∧
      (storage' = storage ∨ get? storage.states (takeStateKey take.partitionKey fields) = none) ∧
      (1 ≤ take.limit → (get? storage'.states (takeStateKey take.partitionKey fields)).isSome) := by
  have hbranch : (take.partitionKey.isNone || (fields.isSome && constraintMatchesPartitionKey fields take.partitionKey)) = true := by
    rw [hmatch]
    cases hkey : take.partitionKey with
    | none => rfl
    | some => simpa using hsel.isSome (by simp [hkey])
  rw [Take.fetch]
  simp only [hbranch, hread]
  cases hstate : get? storage.states (takeStateKey take.partitionKey fields) with
  | none =>
    simp only [initialFetch, hmatch, hstate, hread]
    by_cases hzero : take.limit = 0
    · exact ⟨storage, by simp [hzero], h, .inl rfl, by omega⟩
    · have hlimit : 1 ≤ take.limit := by omega
      have hwindow := window_initial hsortable hpart h.proper hlimit
      obtain ⟨storage', hset, hstates, hmaxTyped, hmax⟩ := setTakeState_eq hsortable
        (takeStateKey take.partitionKey fields) hwindow.typed_bound h.maxTyped
      have hget : ∀ other, get? storage'.states other = if other = takeStateKey take.partitionKey fields then
          some _ else get? storage.states other := fun other => by rw [hstates, get?_set]
      refine ⟨storage', by rw [if_neg hzero, hset]; rfl, ?_, .inr trivial, fun _ => by rw [hget, if_pos rfl]; rfl⟩
      exact h.update h.proper (fun _ _ _ _ hpart => hpart) hget hmaxTyped hmax ⟨hlimit, fields, part, rfl, hsel, hpart, hwindow⟩
  | some state =>
    obtain ⟨-, fields', part', hfields, hsel', hpart', hwindow⟩ := h.window _ state hstate
    have hconstraint := constraintOf_eq hfields (fun hsome => ⟨hsel.isSome hsome, hsel'.isSome hsome⟩)
    obtain rfl := hpart.unique (hconstraint ▸ hpart')
    refine ⟨storage, ?_, h, .inl rfl, fun _ => by rw [hstate]; rfl⟩
    rcases hwindow.cases_filled hpart.sorted with ⟨rfl, rfl⟩ | ⟨before, last, after, bound, rfl, rfl, hfilled⟩
    · simp
    · simp [hfilled.upTo, hfilled.take_eq]

end Storage

/-! ## Without partitions -/

/-- Push changes one after another, and collect what is emitted. -/
def Take.pushAll (take : Take) : TakeStorage → List Row → List SourceChange → Option (TakeStorage × List SourceChange)
  | storage, _, [] => some (storage, [])
  | storage, rows, change :: changes => do
    let (storage, emitted) ← take.push storage (change.apply rows) change
    let (storage, more) ← take.pushAll storage (change.apply rows) changes
    return (storage, emitted ++ more)

/-- Each change is valid for the rows it finds. -/
def ValidChanges (order : QueryOrdering) (typed : Row → Prop) : List Row → List SourceChange → Prop
  | _, [] => True
  | rows, change :: changes => ValidChange order typed rows change ∧ ValidChanges order typed (change.apply rows) changes

/-- The rows of the source in order, up to the limit. -/
def Take.firstRows (take : Take) (rows : List Row) : List Row := (readInput take.sort rows .all).take take.limit

section Unpartitioned

variable {take : Take} {typed : Row → Prop} {rows part : List Row} {storage : TakeStorage} {state : TakeState}

/-- The stored size and bound are those of the window. -/
theorem Window.stored (h : Window take.sort typed take.limit part state) (hsorted : part.Pairwise (Before take.sort)) :
    state.size = (part.take take.limit).length ∧
      Option.Rel (SamePlace take.sort) (part.take take.limit).getLast? state.bound := by
  rcases h.cases_filled hsorted with ⟨rfl, rfl⟩ | ⟨before, last, after, bound, rfl, rfl, hfilled⟩
  · exact ⟨by simp, by simp⟩
  · rw [hfilled.take_eq]
    exact ⟨by simp, by simpa using Option.Rel.some hfilled.same⟩

section

variable (h : TakeInv take typed rows storage) (hsortable : Sortable take.sort typed)
  (hkey : take.partitionKey = none)

include h hsortable hkey

theorem TakeInv.sortedPart_all (fields : Option (Fields JsonValue)) :
    SortedPart take.sort (take.constraintOf fields) rows (readInput take.sort rows .all) := by
  have hapart := h.proper.sortsApart hsortable
  obtain ⟨part, hpart⟩ := exists_sortedPart hapart none
  have hconstraint : take.constraintOf fields = none := by
    unfold constraintOf
    rw [hkey]
  rw [hconstraint, FetchRequest.all, hpart.readInput_all hapart]
  exact hpart

theorem TakeInv.pushAll (hstate : (get? storage.states (takeStateKey none none)).isSome)
    {changes : List SourceChange} (hchanges : ValidChanges take.sort typed rows changes) :
    ∃ storage' emitted, take.pushAll storage rows changes = some (storage', emitted) ∧
      TakeInv take typed (changes.foldl apply rows) storage' ∧
      (get? storage'.states (takeStateKey none none)).isSome ∧
      SourceChange.Leads take.limit (take.firstRows rows).toFinset emitted
        (take.firstRows (changes.foldl apply rows)).toFinset := by
  induction changes generalizing rows storage with
  | nil => exact ⟨storage, [], rfl, h, hstate, leads_nil (card_toFinset_le (length_take_le _ _))⟩
  | cons change changes ih =>
    have hkeeps : take.KeepsPartition change := fun _ _ _ => by simp [samePartition, hkey]
    obtain ⟨row, storage₁, emitted, -, hpush, hinv, -, hstored, -, -, hleads⟩ := h.push hsortable hchanges.1 hkeeps
    have hkeyRow : takeStateKey take.partitionKey (some row) = takeStateKey none none := by rw [hkey]; rfl
    obtain ⟨part, part', hpart, hpart', hleads⟩ := hleads (by rw [hkeyRow]; exact hstate)
    obtain rfl := hpart.unique (h.sortedPart_all hsortable hkey _)
    obtain rfl := hpart'.unique (hinv.sortedPart_all hsortable hkey _)
    obtain ⟨storage', more, hrun, hinv', hstate', hleads'⟩ := ih hinv
      (hkeyRow ▸ hstored (hkeyRow.symm ▸ hstate)) hchanges.2
    exact ⟨storage', emitted ++ more, by simp [pushAll, hpush, hrun], hinv', hstate', hleads.append hleads'⟩

end

theorem takeInv_nil (hrows : ProperRows take.sort typed rows) : TakeInv take typed rows ⟨[], none⟩ :=
  ⟨hrows, by simp, by simp, by simp⟩

/-- Along every run of valid changes after the first fetch, a limit without partitions returns the first rows of
the source. The stored size is their number, the stored bound has the place of the last of them, and what was
emitted leads from the first output to the last one and never exceeds the limit. -/
theorem Take.pushAll_firstRows (take : Take) (typed : Row → Prop) (hkey : take.partitionKey = none)
    (hlimit : 1 ≤ take.limit) (hsortable : Sortable take.sort typed) (rows : List Row)
    (hrows : ProperRows take.sort typed rows) (changes : List SourceChange)
    (hchanges : ValidChanges take.sort typed rows changes) :
    ∃ start storage emitted state, take.fetch ⟨[], none⟩ none rows .all = some (start, take.firstRows rows) ∧
      take.pushAll start rows changes = some (storage, emitted) ∧
      take.fetch storage none (changes.foldl SourceChange.apply rows) .all =
        some (storage, take.firstRows (changes.foldl SourceChange.apply rows)) ∧
      Assoc.get? storage.states (takeStateKey none none) = some state ∧
      state.size = min take.limit (changes.foldl SourceChange.apply rows).length ∧
      Option.Rel (SamePlace take.sort) (take.firstRows (changes.foldl SourceChange.apply rows)).getLast? state.bound ∧
      SourceChange.Leads take.limit (take.firstRows rows).toFinset emitted
        (take.firstRows (changes.foldl SourceChange.apply rows)).toFinset := by
  have hmatch : constraintMatchesPartitionKey none take.partitionKey = true := by rw [hkey]; rfl
  have hsel : take.Selective none := by
    unfold Take.Selective
    rw [hkey]
    trivial
  have hnil := @takeInv_nil take typed rows hrows
  obtain ⟨start, hfetch, hinv, -, hstart⟩ := hnil.fetch hsortable hmatch hsel (hnil.sortedPart_all hsortable hkey none) rfl
  rw [hkey] at hstart
  obtain ⟨storage, emitted, hrun, hinv', hstate, hleads⟩ := hinv.pushAll hsortable hkey (hstart hlimit) hchanges
  generalize changes.foldl apply rows = rows' at *
  have hpart := hinv'.sortedPart_all hsortable hkey none
  obtain ⟨storage', hfetch', -, hsame, -⟩ := hinv'.fetch hsortable hmatch hsel hpart rfl
  obtain ⟨state, hstate⟩ := isSome_iff_exists.mp hstate
  obtain rfl := hsame.resolve_right (by rw [hkey, hstate]; simp)
  obtain ⟨-, fields, part, -, -, hpart', hwindow⟩ := hinv'.window _ state hstate
  obtain rfl := hpart'.unique (hinv'.sortedPart_all hsortable hkey fields)
  obtain ⟨hsize, hbound⟩ := hwindow.stored hpart.sorted
  have hlength : (readInput take.sort rows' .all).length = rows'.length := by
    refine ((perm_ext_iff_of_nodup hpart.nodup hinv'.proper.nodup).mpr (fun row => ?_)).length_eq
    unfold constraintOf at hpart
    simp [hpart.mem, constraintMatches]
  refine ⟨start, storage', emitted, state, hfetch, hrun, hfetch', hstate, ?_, hbound, hleads⟩
  rw [hsize, length_take, hlength]

end Unpartitioned

/-- Rows with a text in a column are sorted by it. -/
theorem sortable_text (column : String) (direction : SortDirection) :
    Sortable [(column, direction)] (fun row => ∃ text, get? row column = some (.string text)) where
  nonempty := by simp
  compares := by
    rintro a b ⟨x, hx⟩ ⟨y, hy⟩
    simp only [compareRows, Row.get, hx, hy, getD_some, compareValues]
    cases compare x y <;> rfl
  named := by
    rintro a ⟨x, hx⟩ entry hentry
    simp [mem_singleton.mp hentry, hx]

/-- A task. -/
def task (id title : String) : Row := [("id", .string id), ("title", .string title)]

/-- The first task by id. -/
def firstTask : Take := ⟨[("id", .asc)], 1, none⟩

theorem properRows_task (id title : String) :
    ProperRows firstTask.sort (fun row => ∃ text, get? row "id" = some (.string text)) [task id title] where
  nodup := nodup_singleton _
  typed := by simp [task, get?_cons]
  unique := by
    intro a ha b hb _
    rw [mem_singleton.mp ha, mem_singleton.mp hb]

/-- A task is added before the first one. -/
theorem pushAll_firstRows_added : ∃ start storage emitted, firstTask.fetch ⟨[], none⟩ none [task "b" "x"] .all = some (start, [task "b" "x"]) ∧
    firstTask.pushAll start [task "b" "x"] [.add (task "a" "y")] = some (storage, emitted) ∧
    firstTask.fetch storage none [task "b" "x", task "a" "y"] .all = some (storage, [task "a" "y"]) := by
  obtain ⟨start, storage, emitted, -, hfetch, hrun, hfetch', -⟩ := firstTask.pushAll_firstRows _ rfl (by decide)
    (sortable_text "id" .asc) [task "b" "x"] (properRows_task "b" "x") [.add (task "a" "y")]
    ⟨⟨by simp [removed], by simp [added, task, get?_cons], by
      simp only [added, mem_def, some.injEq, mem_singleton]
      rintro _ rfl _ rfl -
      decide⟩, trivial⟩
  exact ⟨start, storage, emitted, hfetch, hrun, hfetch'⟩

/-- After the title of the first task is edited the stored bound still has the old title. -/
theorem pushAll_bound_edited : ∃ start storage, firstTask.fetch ⟨[], none⟩ none [task "a" "old"] .all = some (start, [task "a" "old"]) ∧
    firstTask.pushAll start [task "a" "old"] [.edit (task "a" "new") (task "a" "old")] =
      some (storage, [.edit (task "a" "new") (task "a" "old")]) ∧
    firstTask.fetch storage none [task "a" "new"] .all = some (storage, [task "a" "new"]) ∧
    Assoc.get? storage.states (takeStateKey none none) = some ⟨1, some (task "a" "old")⟩ :=
  ⟨_, _, rfl, rfl, rfl, rfl⟩

/-! ## Partitions -/

/-- An operation on a partitioned limit. -/
inductive TakeOp where
  | fetch (constraint : Constraint)
  | push (change : SourceChange)

/-- The first rows a constraint selects. -/
def Take.window (take : Take) (rows : List Row) (constraint : Option Constraint) : List Row :=
  (readInput take.sort rows ⟨constraint, [], none, false⟩).take take.limit

/-- One operation on the storage, over the rows of the input. -/
def Take.step (take : Take) (s : TakeStorage × List Row) : TakeOp → Option (TakeStorage × List Row)
  | .fetch constraint => (take.fetch s.1 none s.2 ⟨some constraint, [], none, false⟩).map (fun out => (out.1, s.2))
  | .push change => (take.push s.1 (change.apply s.2) change).map (fun out => (out.1, change.apply s.2))

/-- A constraint names a partition: it has the columns of the key, none of them NULL. -/
def Take.Names (take : Take) (constraint : Constraint) : Prop :=
  constraintMatchesPartitionKey (some constraint) take.partitionKey = true ∧ take.Selective (some constraint)

/-- Partitions are fetched by their values, changes are valid and edits keep their row in its partition. -/
def Take.Suits (take : Take) (typed : Row → Prop) : List Row → List TakeOp → Prop
  | _, [] => True
  | rows, .fetch constraint :: ops => take.Names constraint ∧ take.Suits typed rows ops
  | rows, .push change :: ops => (ValidChange take.sort typed rows change ∧ take.KeepsPartition change) ∧
      take.Suits typed (change.apply rows) ops

/-- A row is in the window of its own partition, which is hydrated. -/
def Take.Within (take : Take) (storage : TakeStorage) (rows : List Row) (row : Row) : Prop :=
  (Assoc.get? storage.states (takeStateKey take.partitionKey (some row))).isSome ∧
    row ∈ take.window rows (take.partitionConstraint row)

instance (take : Take) (storage : TakeStorage) (rows : List Row) : DecidablePred (take.Within storage rows) :=
  fun _ => inferInstanceAs (Decidable (_ ∧ _))

/-- What holds of a partitioned limit over the rows of its input: of the state and the output of each hydrated
partition, of the largest bound, of a fetch of all partitions, and of the partitions a change does not fall into. -/
structure Take.Partitioned (take : Take) (typed : Row → Prop) (storage : TakeStorage) (rows : List Row) : Prop where
  windows : ∀ constraint state, take.Names constraint →
    Assoc.get? storage.states (takeStateKey take.partitionKey (some constraint)) = some state →
    state.size = (take.window rows (some constraint)).length ∧
      Option.Rel (SamePlace take.sort) (take.window rows (some constraint)).getLast? state.bound ∧
      take.fetch storage none rows ⟨some constraint, [], none, false⟩ = some (storage, take.window rows (some constraint))
  max : ∀ key state, Assoc.get? storage.states key = some state → ∀ bound ∈ state.bound,
    ∃ m ∈ storage.maxBound, NotAfter take.sort bound m
  all : take.fetch storage none rows .all = some (storage, (readInput take.sort rows .all).filter (take.Within storage rows))
  isolated : ∀ change, ValidChange take.sort typed rows change → take.KeepsPartition change →
    ∃ row storage' emitted, take.partitionRow change = some row ∧
      take.push storage (change.apply rows) change = some (storage', emitted) ∧ ∀ constraint, take.Names constraint →
        takeStateKey take.partitionKey (some constraint) ≠ takeStateKey take.partitionKey (some row) →
        Assoc.get? storage'.states (takeStateKey take.partitionKey (some constraint)) =
            Assoc.get? storage.states (takeStateKey take.partitionKey (some constraint)) ∧
          take.window (change.apply rows) (some constraint) = take.window rows (some constraint)

section Partitioned

variable {take : Take} {typed : Row → Prop} {rows : List Row} {storage : TakeStorage} {key : List String}
  {constraint : Constraint}

/-- A constraint that names a partition selects its rows. -/
theorem Take.Names.matches_eq (h : take.Names constraint) (hkey : take.partitionKey = some key) (hnodup : key.Nodup)
    (row : Row) : constraintMatches (take.constraintOf (some constraint)) row = constraintMatches (some constraint) row := by
  have hmatch := h.1
  rw [hkey] at hmatch
  simp only [constraintMatchesPartitionKey, Bool.and_eq_true, decide_eq_true_eq, List.all_eq_true, List.any_eq_true] at hmatch
  have hperm : key.Perm (constraint.map Prod.fst) := by
    refine (hnodup.subperm (fun column hcolumn => ?_)).perm_of_length_le (by simp [hmatch.1])
    obtain ⟨entry, hentry, rfl⟩ := hmatch.2 column hcolumn
    exact mem_map_of_mem hentry
  have hget : ∀ entry ∈ constraint, Row.get constraint entry.1 = entry.2 := by
    intro entry hentry
    cases hfound : get? constraint entry.1 with
    | none => exact absurd (mem_map_of_mem hentry) (get?_eq_none.mp hfound)
    | some =>
      have hsame := inj_on_of_nodup_map (hperm.nodup_iff.mp hnodup) (mem_of_get? hfound) hentry rfl
      rw [Row.get, hfound, getD_some, ← hsame]
  unfold constraintOf
  rw [hkey, Bool.eq_iff_iff]
  simp only [constraintMatches, List.all_eq_true, List.mem_map, forall_exists_index, and_imp, forall_apply_eq_imp_iff₂,
    hperm.mem_iff]
  exact ⟨fun hall entry hentry => by simpa [hget entry hentry] using hall entry hentry,
    fun hall entry hentry => by simpa [hget entry hentry] using hall entry hentry⟩

variable (h : TakeInv take typed rows storage)

include h

/-- The state of a partition is that of its window, and its rows are those stored under its key. -/
theorem TakeInv.state_eq {fields : Fields JsonValue} {state : TakeState} {part : List Row}
    (hstate : get? storage.states (takeStateKey take.partitionKey (some fields)) = some state)
    (hpart : SortedPart take.sort (take.constraintOf (some fields)) rows part) :
    Window take.sort typed take.limit part state ∧ ∀ row, constraintMatches (take.constraintOf (some fields)) row = true ↔
      takeStateKey take.partitionKey (some row) = takeStateKey take.partitionKey (some fields) := by
  obtain ⟨-, fields', part', hfields, hsel, hpart', hwindow⟩ := h.window _ state hstate
  have hconstraint := constraintOf_eq hfields (fun hsome => ⟨rfl, hsel.isSome hsome⟩)
  obtain rfl := hpart.unique (hconstraint ▸ hpart')
  exact ⟨hwindow, fun row => by rw [hconstraint, hfields, hsel.matches_iff]⟩

variable {row : Row}

/-- A row after every bound is not admitted. -/
theorem TakeInv.admits_after (hrow : ∀ m ∈ storage.maxBound, Before take.sort m row) :
    take.admits storage row = some false := by
  unfold admits
  cases hbound : (get? storage.states (takeStateKey take.partitionKey (some row))).bind TakeState.bound with
  | none => rfl
  | some bound =>
    obtain ⟨state, hstate, hbound⟩ := bind_eq_some_iff.mp hbound
    obtain ⟨m, hm, hle⟩ := h.max _ state hstate bound hbound
    have hcmp : take.cmp bound row = some .lt := by
      rcases hle with hle | hle
      · exact hle.trans (hrow m hm)
      · exact hle.before_left.mpr (hrow m hm)
    simp [hcmp]

variable (hsortable : Sortable take.sort typed)

include hsortable

/-- A row is admitted if it is in the window of its partition. -/
theorem TakeInv.admits_eq (hrow : row ∈ rows) :
    take.admits storage row = some (decide (take.Within storage rows row)) := by
  have hapart := h.proper.sortsApart hsortable
  obtain ⟨part, hpart⟩ := exists_sortedPart hapart (take.partitionConstraint row)
  simp only [Take.Within, Take.window, hpart.readInput_all hapart, admits]
  cases hstate : get? storage.states (takeStateKey take.partitionKey (some row)) with
  | none => simp
  | some =>
    obtain ⟨hwindow, hmatches⟩ := h.state_eq hstate (take.constraintOf_some row ▸ hpart)
    have hmem : row ∈ part := (hpart.mem row).mpr ⟨hrow, take.constraintOf_some row ▸ (hmatches row).mpr rfl⟩
    rcases hwindow.cases_filled hpart.sorted with ⟨rfl, rfl⟩ | ⟨before, last, after, bound, rfl, rfl, hfilled⟩
    · cases hmem
    · have hafter := hfilled.splitAt.mem_forward (by simpa using hmem)
      have hwithin : row ∈ before ++ [last] ↔ ¬ Before take.sort bound row := by
        rw [hafter]
        have hnodup := hpart.nodup
        rw [append_cons] at hmem hnodup
        exact ⟨fun hin hout => disjoint_of_nodup_append hnodup hin hout, (mem_append.mp hmem).resolve_right⟩
      obtain ⟨result, hresult⟩ := isSome_iff_exists.mp (hsortable.compares bound row hfilled.typed (h.proper.typed row hrow))
      simp [Take.cmp, hresult, hfilled.take_eq, hwithin, Before]

theorem TakeInv.not_within (hrow : row ∈ rows) (hafter : ∀ m ∈ storage.maxBound, Before take.sort m row) :
    ¬ decide (take.Within storage rows row) = true := by
  have hadmits := h.admits_eq hsortable hrow
  rw [h.admits_after hafter] at hadmits
  simp [← some.inj hadmits]

/-- Up to the largest bound, the admitted rows are found. -/
theorem TakeInv.admitted_eq {maxBound : Row} (hmax : storage.maxBound = some maxBound) {l : List Row} (hl : ∀ row ∈ l, row ∈ rows)
    (hsorted : l.Pairwise (Before take.sort)) :
    take.admitted storage maxBound l = some (l.filter (take.Within storage rows)) := by
  induction l with
  | nil => rfl
  | cons row rest ih =>
    have hrow := hl row mem_cons_self
    obtain ⟨hfirst, hrest⟩ := pairwise_cons.mp hsorted
    rcases hsortable.notAfter_or (h.proper.typed row hrow) (h.maxTyped maxBound hmax) with hle | hgt
    · obtain ⟨result, hresult, hne⟩ := hle.compareRows_eq
      rw [admitted, Take.cmp, hresult,
        ih (fun other hother => hl other (mem_cons_of_mem _ hother)) hrest, h.admits_eq hsortable hrow]
      by_cases hwithin : take.Within storage rows row <;> simp [hne, hwithin]
    · -- all that follows is after every bound
      have hcmp : take.cmp row maxBound = some .gt := hgt.gt
      rw [admitted, hcmp, filter_eq_nil_iff.mpr]
      · rfl
      · intro other hother
        refine h.not_within hsortable (hl other hother) (fun m hm => ?_)
        · obtain rfl := some.inj (hmax.symm.trans hm)
          rcases mem_cons.mp hother with rfl | hother
          · exact hgt
          · exact hgt.trans (hfirst other hother)

variable (hkey : take.partitionKey = some key) (hnodup : key.Nodup)

include hkey hnodup

/-- The rows of a hydrated partition. -/
theorem TakeInv.names_window (hnames : take.Names constraint) :
    ∃ part, SortedPart take.sort (take.constraintOf (some constraint)) rows part ∧
      readInput take.sort rows ⟨some constraint, [], none, false⟩ = part := by
  have hapart := h.proper.sortsApart hsortable
  obtain ⟨part, hpart⟩ := exists_sortedPart hapart (some constraint)
  refine ⟨part, ⟨hpart.sorted, fun row => ?_⟩, hpart.readInput_all hapart⟩
  rw [hnames.matches_eq hkey hnodup]
  exact hpart.mem row

theorem TakeInv.partitioned : take.Partitioned typed storage rows where
  windows := by
    intro constraint state hnames hstate
    obtain ⟨part, hpart, hread⟩ := h.names_window hsortable hkey hnodup hnames
    obtain ⟨hsize, hbound⟩ := (h.state_eq hstate hpart).1.stored hpart.sorted
    obtain ⟨storage', hfetch, -, hsame, -⟩ := h.fetch hsortable hnames.1 hnames.2 hpart hread
    obtain rfl := hsame.resolve_right (by rw [hstate]; simp)
    rw [Take.window, hread]
    exact ⟨hsize, hbound, hfetch⟩
  max := h.max
  all := by
    have hapart := h.proper.sortsApart hsortable
    obtain ⟨part, hpart⟩ := exists_sortedPart hapart none
    have hrows : ∀ row ∈ part, row ∈ rows := fun row hrow => ((hpart.mem row).mp hrow).1
    have hread : readInput take.sort rows .all = part := hpart.readInput_all hapart
    have hall : (take.partitionKey.isNone || (all.constraint.isSome &&
        constraintMatchesPartitionKey all.constraint take.partitionKey)) = false := by rw [hkey]; rfl
    rw [Take.fetch, hread]
    simp only [hall, Bool.false_eq_true, if_false]
    cases hmax : storage.maxBound with
    | some =>
      dsimp only
      rw [h.admitted_eq hsortable hmax hrows hpart.sorted, map_some]
    | none =>
      -- no partition has a bound, so none has rows
      rw [filter_eq_nil_iff.mpr]
      exact fun row hrow => h.not_within hsortable (hrows row hrow) (by simp [hmax])
  isolated := by
    intro change hchange hkeeps
    obtain ⟨row, storage', emitted, hrow, hpush, hinv, hstates, -, hparts, -⟩ := h.push hsortable hchange hkeeps
    refine ⟨row, storage', emitted, hrow, hpush, fun constraint hnames hne => ⟨hstates _ hne, ?_⟩⟩
    obtain ⟨part, hpart, hread⟩ := h.names_window hsortable hkey hnodup hnames
    obtain ⟨part', hpart', hread'⟩ := hinv.names_window hsortable hkey hnodup hnames
    rw [Take.window, Take.window, hread, hread', hpart'.unique (hparts _ part hnames.2 hne hpart)]

theorem TakeInv.run {ops : List TakeOp} (hops : take.Suits typed rows ops) :
    ∃ storage' rows', ops.foldlM take.step (storage, rows) = some (storage', rows') ∧ TakeInv take typed rows' storage' := by
  induction ops generalizing storage rows with
  | nil => exact ⟨storage, rows, rfl, h⟩
  | cons op ops ih =>
    rw [foldlM_cons]
    cases op with
    | fetch =>
      obtain ⟨part, hpart, hread⟩ := h.names_window hsortable hkey hnodup hops.1
      obtain ⟨storage', hfetch, hinv, -⟩ := h.fetch hsortable hops.1.1 hops.1.2 hpart hread
      rw [step, hfetch]
      exact ih hinv hops.2
    | push =>
      obtain ⟨-, storage', emitted, -, hpush, hinv, -⟩ := h.push hsortable hops.1.1 hops.1.2
      rw [step, hpush]
      exact ih hinv hops.2

end Partitioned

/-- Along every run of fetches of partitions and valid changes, in which no fetched partition has a NULL value and
every edit keeps its row in its partition, a partitioned limit keeps the window of each hydrated partition. -/
theorem Take.run_partitioned (take : Take) (typed : Row → Prop) {key : List String} (hkey : take.partitionKey = some key)
    (hnodup : key.Nodup) (hsortable : Sortable take.sort typed) (rows : List Row) (hrows : ProperRows take.sort typed rows)
    (ops : List TakeOp) (hops : take.Suits typed rows ops) :
    ∃ storage rows', ops.foldlM take.step (⟨[], none⟩, rows) = some (storage, rows') ∧
      take.Partitioned typed storage rows' := by
  obtain ⟨storage, rows', hrun, hinv⟩ := (takeInv_nil hrows).run hsortable hkey hnodup hops
  exact ⟨storage, rows', hrun, hinv.partitioned hsortable hkey hnodup⟩

/-- The first task of each title by id. -/
def firstOfTitle : Take := ⟨[("id", .asc)], 1, some ["title"]⟩

/-- A task is added before the first one of its title. -/
theorem run_partitioned_added : ∃ storage rows, [TakeOp.fetch [("title", .string "x")], .push (.add (task "a" "x"))].foldlM
    firstOfTitle.step (⟨[], none⟩, [task "b" "x"]) = some (storage, rows) ∧
      firstOfTitle.fetch storage none rows .all = some (storage, [task "a" "x"]) := by
  obtain ⟨storage, rows, hrun, -⟩ := firstOfTitle.run_partitioned _ rfl (by decide) (sortable_text "id" .asc)
    [task "b" "x"] (properRows_task "b" "x") [.fetch [("title", .string "x")], .push (.add (task "a" "x"))]
    ⟨⟨by decide, by simp [Take.Selective, firstOfTitle, Row.get, get?_cons]⟩,
      ⟨⟨by simp [removed], by simp [added, task, get?_cons], by
        simp only [added, mem_def, some.injEq, mem_singleton]
        rintro _ rfl _ rfl -
        decide⟩, by simp [Take.KeepsPartition]⟩, trivial⟩
  exact ⟨_, _, rfl, rfl⟩

/-- An edit of the title of a task whose partition was fetched is refused. -/
theorem run_partition_edited : [TakeOp.fetch [("title", .string "x")], .push (.edit (task "a" "y") (task "a" "x"))].foldlM
    firstOfTitle.step (⟨[], none⟩, [task "a" "x"]) = none := rfl

end ZeroCache.Zql
