import ZeroCache.Lib.Tally
import ZeroCache.ViewSyncer.Received
import Mathlib.Data.List.Nodup

/-!
# Update cycles

An update cycle receives rows of executed queries in batches, and then drops the counts of the
executed and removed queries from the stored rows that refer to them and were not received
(`cvr_row_received.rs`, `cvr_delete_unreferenced_rows.rs`). The counts of a row are a tally: the stored
counts of other queries, changed by each batch, thrown away when none of them is positive.
-/

namespace ZeroCache.ViewSyncer

open Tally List Option Assoc Function Prod LastPatchInfo

/-! ## Reading counts -/

/-- The counts of a row, all of them zero if there are none. -/
def countsOf (counts : Option RefCounts) (query : String) : ℤ := ((counts.getD []).get? query).getD 0

/-- Each query is counted once. -/
def KeysOnce (counts : RefCounts) : Prop := (counts.map Prod.fst).Nodup

section

variable {counts : RefCounts} (h : KeysOnce counts)

include h

theorem get?_of_mem {entry : String × ℤ} (hmem : entry ∈ counts) : counts.get? entry.1 = some entry.2 := by
  induction counts with
  | nil => cases hmem
  | cons first counts ih =>
    simp only [KeysOnce, map_cons, nodup_cons] at h
    rw [get?_cons]
    rcases mem_cons.mp hmem with rfl | hmem
    · rw [if_pos rfl]
    · rw [if_neg, ih h.2 hmem]
      intro heq
      exact h.1 (heq ▸ mem_map_of_mem hmem)

theorem keysOnce_erase (query : String) : KeysOnce (counts.erase query) := by
  exact List.Nodup.sublist (List.Sublist.map _ filter_sublist) h

theorem keysOnce_set (query : String) (count : ℤ) : KeysOnce (counts.set query count) := by
  unfold Assoc.set
  split
  · have hkeys : ((counts.map fun entry => if entry.1 = query then (query, count) else entry).map fst) =
        counts.map fst := by
      rw [List.map_map]
      refine map_congr_left fun entry _ => ?_
      simp only [comp]
      split
      · next heq => exact heq.symm
      · rfl
    rw [KeysOnce, hkeys]
    exact h
  · next hnone =>
    simp only [KeysOnce, map_append, map_cons, map_nil]
    refine List.Nodup.append h (nodup_singleton _) ?_
    simp only [disjoint_singleton, List.mem_map, not_exists, not_and]
    intro entry hentry heq
    exact hnone (any_eq_true.mpr ⟨entry, hentry, by simpa using heq⟩)

end

variable (removed : List String)

/-- Reading a sum of counts, for queries that are counted once. -/
theorem addCounts_spec {merged counts : RefCounts} (hmerged : KeysOnce merged)
    (hcounts : KeysOnce counts) : KeysOnce (addCounts removed merged counts) ∧ ∀ query,
      countsOf (some (addCounts removed merged counts)) query = countsOf (some merged) query +
        if query ∈ removed then 0 else countsOf (some counts) query := by
  induction counts generalizing merged with
  | nil =>
    refine ⟨hmerged, fun query => ?_⟩
    simp [addCounts, countsOf]
  | cons entry counts ih =>
    simp only [KeysOnce, map_cons, nodup_cons] at hcounts
    -- the query of the first entry is not counted by the others
    have hfirst : get? counts entry.1 = none := get?_eq_none.mpr hcounts.1
    have hstep : ∃ next, addCounts removed merged (entry :: counts) = addCounts removed next counts ∧
        KeysOnce next ∧ ∀ query, countsOf (some next) query = countsOf (some merged) query +
          if query ∈ removed then 0 else if query = entry.1 then entry.2 else 0 := by
      refine ⟨_, by rw [addCounts, foldl_cons]; rfl, ?_, ?_⟩
      · split
        · exact hmerged
        · split
          · exact keysOnce_erase hmerged _
          · exact keysOnce_set hmerged _ _
      · intro query
        split
        · next hremoved =>
          by_cases hquery : query = entry.1
          · simp [hquery, hremoved]
          · simp [hquery]
        · next hremoved =>
          split
          · by_cases hquery : query = entry.1
            · subst hquery
              simp only [countsOf, getD_some, get?_erase, if_true, getD_none, hremoved, if_false]
              omega
            · simp [countsOf, get?_erase, hquery]
          · by_cases hquery : query = entry.1
            · subst hquery
              simp [countsOf, get?_set, hremoved]
            · simp [countsOf, get?_set, hquery]
    obtain ⟨next, heq, hnext, hread⟩ := hstep
    obtain ⟨honce, hcount⟩ := ih hnext hcounts.2
    rw [heq]
    refine ⟨honce, fun query => ?_⟩
    rw [hcount, hread]
    by_cases hremoved : query ∈ removed
    · simp [hremoved]
    · by_cases hquery : query = entry.1
      · subst hquery
        simp [countsOf, get?_cons, hfirst]
      · simp [hquery, countsOf, get?_cons, Ne.symm hquery]

/-- The counts without those of some queries. -/
def restrictCounts (removed : List String) (counts : Option RefCounts) (query : String) : ℤ :=
  if query ∈ removed then 0 else countsOf counts query

/-- Counts that stand for a tally: none without a positive count. -/
structure Represents (counts : Option RefCounts) (tally : String → ℤ) : Prop where
  reads : countsOf counts = tally
  some_iff : counts.isSome = true ↔ Positive tally
  once : ∀ c ∈ counts, KeysOnce c

theorem Represents.eq_none_iff {counts : Option RefCounts} {tally : String → ℤ} (h : Represents counts tally) :
    counts = none ↔ ¬ Positive tally := by
  rw [← h.some_iff, not_isSome_iff_eq_none]

theorem any_positive_iff {counts : RefCounts} (h : KeysOnce counts) :
    counts.any (fun entry => 0 < entry.2) = true ↔ Positive (countsOf (some counts)) := by
  rw [List.any_eq_true]
  constructor
  · rintro ⟨entry, hmem, hpos⟩
    refine ⟨entry.1, ?_⟩
    simpa [countsOf, get?_of_mem h hmem] using hpos
  · rintro ⟨query, hpos⟩
    simp only [countsOf] at hpos
    cases hget : get? counts query with
    | none => simp [hget] at hpos
    | some count => exact ⟨(query, count), mem_of_get? hget, by simpa [hget] using hpos⟩

/-- Merged counts stand for the sum without the removed queries, thrown away if none is positive. -/
theorem mergeRefCounts_represents {existing received : Option RefCounts}
    (hexisting : ∀ c ∈ existing, KeysOnce c) (hreceived : ∀ c ∈ received, KeysOnce c) :
    Represents (mergeRefCounts existing received removed)
      (clip (restrictCounts removed existing + countsOf received)) := by
  have hnil : KeysOnce [] := nodup_nil
  have hgiven : KeysOnce (received.getD []) := by
    cases received with
    | none => exact hnil
    | some c => exact hreceived c rfl
  have hmerged : ∃ merged, mergeRefCounts existing received removed =
      (if merged.any (fun entry => 0 < entry.2) then some merged else none) ∧ KeysOnce merged ∧
        countsOf (some merged) = restrictCounts removed existing + countsOf received := by
    cases existing with
    | none =>
      refine ⟨received.getD [], rfl, hgiven, ?_⟩
      funext query
      simp [restrictCounts, countsOf]
    | some existing =>
      obtain ⟨honce, hfirst⟩ := addCounts_spec removed hnil (hexisting existing rfl)
      obtain ⟨honce', hsecond⟩ := addCounts_spec [] honce hgiven
      refine ⟨_, rfl, honce', ?_⟩
      funext query
      rw [hsecond, hfirst]
      simp [restrictCounts, countsOf]
  obtain ⟨merged, heq, honce, hsum⟩ := hmerged
  rw [heq, ← hsum]
  by_cases hpos : Positive (countsOf (some merged))
  · rw [if_pos ((any_positive_iff honce).mpr hpos), clip_of_positive hpos]
    exact ⟨rfl, by simpa using hpos, by simpa using honce⟩
  · rw [if_neg (fun h => hpos ((any_positive_iff honce).mp h)), clip_of_not_positive hpos]
    exact ⟨rfl, by simpa using not_positive_zero, by simp⟩

/-! ## The cycle -/

variable (stored : Fields ExistingRow) (executed : List String) (orig current : CvrVersion)

/-- Receive updates of rows one after another, batch by batch. -/
def receiveUpdates (updates : List (String × RowUpdateInput)) :
    Option (List (String × RowOutcome) × Received) :=
  updates.foldlM (fun (state : List (String × RowOutcome) × Received) entry => do
    let (outcome, received) ←
      processReceivedRow entry.1 (stored.get? entry.1) entry.2 executed orig current state.2
    return (state.1 ++ [(entry.1, outcome)], received)) ([], ⟨[], []⟩)

/-- A row that an executed or removed query refers to. -/
def associated (row : ExistingRow) : Bool :=
  row.refCounts.any (fun counts => counts.any (fun entry => entry.1 ∈ executed))

/-- Receive updates, then drop the counts of executed and removed queries from the rows they refer to. -/
def updateCycle (updates : List (String × RowUpdateInput)) :
    Option (List (String × RowOutcome) × DeletionResult) := do
  let (outcomes, received) ← receiveUpdates stored executed orig current updates
  let rows := stored.filter (fun row => associated executed row.2)
  let deletion ← deleteUnreferencedRows rows received executed orig current
  return (outcomes, deletion)

/-- The counts that a write leaves. -/
def RowStoreWrite.counts : RowStoreWrite → Option RefCounts
  | .put _ _ refCounts => refCounts
  | .delete => none

/-- The writes of a cycle in order. -/
def cycleWrites (outcomes : List (String × RowOutcome)) (deletion : DeletionResult) :
    List (String × Option RefCounts) :=
  outcomes.map (fun outcome => (outcome.1, outcome.2.storeWrite.counts)) ++
    deletion.rowWrites.map (fun write => (write.id, write.refCounts))

/-- The stored counts of a row after a cycle. -/
def finalCounts (outcomes : List (String × RowOutcome)) (deletion : DeletionResult) (id : String) :
    Option RefCounts :=
  (((cycleWrites outcomes deletion).foldl (fun (records : Fields (Option RefCounts)) write =>
    records.set write.1 write.2) (stored.map (fun row => (row.1, row.2.refCounts)))).get? id).join

/-- What clients are told of a row is that it is gone. -/
def RowOutcome.IsDel (outcome : RowOutcome) : Prop := ∃ toVersion, outcome.clientPatch = some (.del toVersion)

/-- What clients are told of a row are its contents. -/
def RowOutcome.IsPut (outcome : RowOutcome) : Prop := ∃ toVersion, outcome.clientPatch = some (.put toVersion)

/-- What happened to a row. -/
def outcomesOf (outcomes : List (String × RowOutcome)) (id : String) : List RowOutcome :=
  (outcomes.filter (fun outcome => outcome.1 = id)).map Prod.snd

/-- The updates of a row. -/
def updatesOf (updates : List (String × RowUpdateInput)) (id : String) : List RowUpdateInput :=
  (updates.filter (fun update => update.1 = id)).map Prod.snd

/-- The changes that updates make to counts. -/
def changesOf (updates : List RowUpdateInput) : List (String → ℤ) :=
  updates.map (fun update => countsOf update.refCounts)

/-- The stored counts of a row for the queries that were neither executed nor removed. -/
def baseCounts (existing : Option ExistingRow) : String → ℤ :=
  restrictCounts executed (existing.bind ExistingRow.refCounts)

/-- A row was referenced before the cycle. -/
def referenced (existing : Option ExistingRow) : Prop := (existing.bind ExistingRow.refCounts).isSome = true

/-- A delete of a row is emitted. -/
def Deleted (outcomes : List (String × RowOutcome)) (deletion : DeletionResult) (id : String) : Prop :=
  (∃ outcome ∈ outcomesOf outcomes id, outcome.IsDel) ∨ id ∈ deletion.patches.map Prod.fst

/-- What a cycle should do to a row. -/
structure RowCorrect (existing : Option ExistingRow) (updates : List RowUpdateInput)
    (final : Option RefCounts) (deleted put : Prop) : Prop where
  counts : countsOf final = total (baseCounts executed existing) (changesOf updates)
  deletes : deleted ↔ final = none ∧ referenced existing
  exclusive : ¬ (deleted ∧ put)

/-- What a cycle should do to every row. -/
def CycleCorrect (updates : List (String × RowUpdateInput)) (outcomes : List (String × RowOutcome))
    (deletion : DeletionResult) : Prop :=
  ∀ id, RowCorrect executed (stored.get? id) (updatesOf updates id) (finalCounts stored outcomes deletion id)
    (Deleted outcomes deletion id) (∃ outcome ∈ outcomesOf outcomes id, outcome.IsPut)

/-! ## Receiving one row -/

/-- What clients are told of a received row, and what they were last told of it then. -/
inductive Tells (merged : Option RefCounts) (known hasContents : Prop) (last : Option LastPatchInfo) :
    Option RowClientPatch → Option LastPatchInfo → Prop
  | del (toVersion : CvrVersion) : merged = none → known →
      last.map LastPatchInfo.rowVersion ≠ some none →
      Tells merged known hasContents last (some (.del toVersion)) (some ⟨none, toVersion⟩)
  | put (version : String) (toVersion : CvrVersion) : merged.isSome = true → hasContents →
      Tells merged known hasContents last (some (.put toVersion)) (some ⟨some version, toVersion⟩)
  | nothing : (merged = none → known → last.map LastPatchInfo.rowVersion = some none) →
      (merged.isSome = true → hasContents → (last.bind LastPatchInfo.rowVersion).isSome = true) →
      Tells merged known hasContents last none last

namespace Tells

variable {merged : Option RefCounts} {known hasContents : Prop} {last last' : Option LastPatchInfo}
variable {out : RowOutcome}

section

variable (h : Tells merged known hasContents last out.clientPatch last')

include h

theorem of_isDel (hdel : out.IsDel) : merged = none ∧ known := by
  obtain ⟨toVersion, hpatch⟩ := hdel
  rw [hpatch] at h
  cases h with
  | del _ hmerged hknown => exact ⟨hmerged, hknown⟩

theorem of_isPut (hput : out.IsPut) : merged.isSome = true ∧ hasContents := by
  obtain ⟨toVersion, hpatch⟩ := hput
  rw [hpatch] at h
  cases h with
  | put _ _ hmerged hcontents => exact ⟨hmerged, hcontents⟩

theorem isDel_or (hmerged : merged = none)
    (hknown : known) : out.IsDel ∨ last.map rowVersion = some none := by
  cases out
  cases h with
  | del toVersion => exact .inl ⟨toVersion, rfl⟩
  | put _ _ hsome => simp [hmerged] at hsome
  | nothing hdel => exact .inr (hdel hmerged hknown)

theorem isPut_or (hmerged : merged.isSome = true) (hcontents : hasContents) :
    out.IsPut ∨ (last.bind rowVersion).isSome = true := by
  cases out
  cases h with
  | del _ hnone => simp [hnone] at hmerged
  | put version toVersion => exact .inl ⟨toVersion, rfl⟩
  | nothing _ hput => exact .inr (hput hmerged hcontents)

/-- What clients were last told is what they are told now, or what they were told before. -/
theorem last_spec : (last'.map rowVersion = some none → out.IsDel ∨ last.map rowVersion = some none) ∧
    ((last'.bind rowVersion).isSome = true → out.IsPut ∨ (last.bind rowVersion).isSome = true) ∧
    (last.isSome = true ∨ out.IsDel ∨ out.IsPut → last'.isSome = true) := by
  cases out
  cases h with
  | del toVersion _ _ _ => exact ⟨fun _ => .inl ⟨toVersion, rfl⟩, by simp, by simp⟩
  | put version toVersion _ _ => exact ⟨by simp, fun _ => .inl ⟨toVersion, rfl⟩, by simp⟩
  | nothing => exact ⟨.inr, .inr, by simp [RowOutcome.IsDel, RowOutcome.IsPut]⟩

end

end Tells

variable {orig current}

/-- A row is received at a new version if its contents come with their version. -/
theorem processReceivedRow_run (hlt : orig.lt current = true) (id : String) (existing : Option ExistingRow)
    (update : RowUpdateInput) (hversion : update.hasContents = true → update.version.isSome = true)
    (received : Received) :
    ∃ outcome received', processReceivedRow id existing update executed orig current received =
        some (outcome, received') ∧
      received'.rows = received.rows.set id (mergedCounts (received.rows.get? id) existing update executed) ∧
      outcome.storeWrite.counts = (if update.version.isSome ∨ existing.isSome then
        mergedCounts (received.rows.get? id) existing update executed else none) ∧
      Tells (mergedCounts (received.rows.get? id) existing update executed)
        (existing.isSome = true ∨ (received.rows.get? id).isSome = true) (update.hasContents = true)
        (received.lastPatches.get? id) outcome.clientPatch (received'.lastPatches.get? id) ∧
      ∀ other, other ≠ id → received'.lastPatches.get? other = received.lastPatches.get? other := by
  generalize hmerged : mergedCounts (received.rows.get? id) existing update executed = merged
  obtain ⟨patchVersion, hpatch⟩ := patchVersionOf_returns hlt existing
    (if merged.isNone then none else update.version)
  generalize hto : patchVersion.maxVersion
    ((received.lastPatches.get? id).map toVersion) = toVersion
  have hrun : ∀ told, clientPatchOf (existing.isSome || (received.rows.get? id).isSome) merged
      update.hasContents (update.version.or (existing.map ExistingRow.rowVersion)) toVersion
      (received.lastPatches.get? id) = some told →
      processReceivedRow id existing update executed orig current received = some
        (⟨(update.version.or (existing.map ExistingRow.rowVersion)).elim .delete (.put · patchVersion merged),
          told.map fst⟩,
        ⟨received.rows.set id merged,
          told.elim received.lastPatches (fun entry => received.lastPatches.set id entry.2)⟩) := by
    intro told htold
    simp only [processReceivedRow, hmerged, hpatch, bind_eq_bind, bind_some, hto, htold]
    cases update.version.or (existing.map ExistingRow.rowVersion) <;> rfl
  have hwrite : ((update.version.or (existing.map ExistingRow.rowVersion)).elim RowStoreWrite.delete
      (.put · patchVersion merged)).counts =
      (if update.version.isSome = true ∨ existing.isSome = true then merged else none) := by
    cases update.version <;> cases existing <;> rfl
  by_cases hnone : merged = none
  · subst hnone
    by_cases htell : (existing.isSome || (received.rows.get? id).isSome) = true ∧
        (received.lastPatches.get? id).map rowVersion ≠ some none
    · refine ⟨_, _, hrun (some (.del toVersion, ⟨none, toVersion⟩)) ?_, rfl, hwrite, ?_, ?_⟩
      · simp only [clientPatchOf, isNone_none, if_true]
        rw [if_pos htell]
      · simp only [Option.elim, get?_set]
        exact .del toVersion rfl (by simpa using htell.1) htell.2
      · intro other hother
        simp [get?_set, hother]
    · refine ⟨_, _, hrun none ?_, rfl, hwrite, ?_, fun _ _ => rfl⟩
      · simp only [clientPatchOf, isNone_none, if_true]
        rw [if_neg htell]
      · refine .nothing (fun _ hknown => ?_) (by simp)
        by_contra hlast
        exact htell ⟨by simpa using hknown, hlast⟩
  · obtain ⟨counts, rfl⟩ := ne_none_iff_exists'.mp hnone
    by_cases hcontents : update.hasContents = true
    · obtain ⟨version, hv⟩ := isSome_iff_exists.mp (hversion hcontents)
      by_cases htell : ((received.lastPatches.get? id).bind rowVersion).all
          (fun previous => previous < version) = true
      · refine ⟨_, _, hrun (some (.put toVersion, ⟨some version, toVersion⟩)) ?_, rfl, hwrite, ?_, ?_⟩
        · simp only [clientPatchOf, hcontents, hv, some_or, map_some, htell]
          rfl
        · simp only [Option.elim, get?_set]
          exact .put version toVersion rfl hcontents
        · intro other hother
          simp [get?_set, hother]
      · refine ⟨_, _, hrun none ?_, rfl, hwrite, ?_, fun _ _ => rfl⟩
        · simp only [clientPatchOf, hcontents, hv, some_or, map_some, htell]
          rfl
        · refine .nothing (by simp) (fun _ _ => ?_)
          cases hlast : (received.lastPatches.get? id).bind rowVersion with
          | none => simp [hlast] at htell
          | some => rfl
    · refine ⟨_, _, hrun none ?_, rfl, hwrite, ?_, fun _ _ => rfl⟩
      · simp only [hcontents]
        rfl
      · exact .nothing (by simp) (fun _ h => absurd h hcontents)

/-! ## Receiving all rows -/

variable (existing : Option ExistingRow) (updates : List RowUpdateInput)

/-- A write of a row leaves its counts: it has a version, its own or the stored one. -/
def Written : Prop :=
  existing.isSome = true ∨ ∀ update ∈ updates.getLast?, update.version.isSome = true

/-- What is kept of the counts of a row after some updates. -/
noncomputable def keptCounts : String → ℤ := kept (baseCounts executed existing) (changesOf updates)

/-- The counts of a row have been thrown away after some of its updates, when it was known before. -/
def Dropped : Prop :=
  ∃ front, front ≠ [] ∧ List.IsPrefix front updates ∧ ¬ Positive (keptCounts executed existing front) ∧
    (existing.isSome = true ∨ 2 ≤ front.length)

/-- The contents of a row have come with one of its updates when it was counted. -/
def Vended : Prop :=
  ∃ front update, List.IsPrefix (front ++ [update]) updates ∧ update.hasContents = true ∧
    Positive (keptCounts executed existing (front ++ [update]))

open Classical in
/-- What has happened to a row after some updates of it. -/
structure RowState (outs : List RowOutcome) (previous : Option (Option RefCounts)) (last : Option LastPatchInfo) :
    Prop where
  untouched : updates = [] → previous = none ∧ outs = [] ∧ last = none
  counts : updates ≠ [] → ∃ merged, previous = some merged ∧
    Represents merged (keptCounts executed existing updates) ∧
    outs.getLast?.map (fun out => out.storeWrite.counts) = some (if Written existing updates then merged else none)
  dels : (∃ out ∈ outs, out.IsDel) ↔ Dropped executed existing updates
  puts : (∃ out ∈ outs, out.IsPut) ↔ Vended executed existing updates
  lastDel : last.map LastPatchInfo.rowVersion = some none → ∃ out ∈ outs, out.IsDel
  lastPut : (last.bind LastPatchInfo.rowVersion).isSome = true → ∃ out ∈ outs, out.IsPut
  lastSome : (∃ out ∈ outs, out.IsDel ∨ out.IsPut) → last.isSome = true

theorem rowState_nil : RowState executed existing [] [] none none := by
  refine ⟨fun _ => ⟨rfl, rfl, rfl⟩, fun h => absurd rfl h, ?_, ?_, by simp, by simp, by simp⟩
  · simp only [not_mem_nil, false_and, exists_false, false_iff]
    rintro ⟨front, hne, hfront, -⟩
    exact hne (prefix_nil.mp hfront)
  · simp only [not_mem_nil, false_and, exists_false, false_iff]
    rintro ⟨front, update, hfront, -⟩
    simpa using prefix_nil.mp hfront

theorem keptCounts_append (update : RowUpdateInput) : keptCounts executed existing (updates ++ [update]) =
      clip (keptCounts executed existing updates + countsOf update.refCounts) := by
  simp [keptCounts, changesOf]

variable {existing updates}

variable {outs : List RowOutcome} {previous : Option (Option RefCounts)} {last : Option LastPatchInfo}

/-- The counts of a row after one more update stand for what is kept. -/
theorem mergedCounts_represents (h : RowState executed existing updates outs previous last) (update : RowUpdateInput)
    (hexisting : ∀ row ∈ existing, ∀ c ∈ row.refCounts, KeysOnce c) (hupdate : ∀ c ∈ update.refCounts, KeysOnce c) :
    Represents (mergedCounts previous existing update executed)
      (keptCounts executed existing (updates ++ [update])) := by
  rw [keptCounts_append]
  by_cases hnil : updates = []
  · obtain ⟨rfl, -⟩ := h.untouched hnil
    subst hnil
    refine mergeRefCounts_represents executed ?_ hupdate
    intro c hc
    obtain ⟨row, hrow, hcounts⟩ := bind_eq_some_iff.mp hc
    exact hexisting row hrow c hcounts
  · obtain ⟨merged, rfl, hmerged, -⟩ := h.counts hnil
    have hsum := mergeRefCounts_represents [] hmerged.once hupdate
    have hrestrict : restrictCounts [] merged = keptCounts executed existing updates := by
      funext query
      simp [restrictCounts, hmerged.reads]
    rw [hrestrict] at hsum
    exact hsum

section

variable (existing : Option ExistingRow) (updates : List RowUpdateInput) (update : RowUpdateInput)

theorem dropped_append_iff : Dropped executed existing (updates ++ [update]) ↔ Dropped executed existing updates ∨
        (¬ Positive (keptCounts executed existing (updates ++ [update])) ∧
          (existing.isSome = true ∨ updates ≠ [])) := by
  constructor
  · rintro ⟨front, hne, hfront, hzero, hknown⟩
    rcases prefix_concat_iff.mp hfront with rfl | hfront
    · refine .inr ⟨hzero, hknown.imp_right fun hlength hnil => ?_⟩
      simp [hnil] at hlength
    · exact .inl ⟨front, hne, hfront, hzero, hknown⟩
  · rintro (⟨front, hne, hfront, hzero, hknown⟩ | ⟨hzero, hknown⟩)
    · exact ⟨front, hne, hfront.trans (prefix_append _ _), hzero, hknown⟩
    · refine ⟨_, by simp, prefix_rfl, hzero, hknown.imp_right fun hne => ?_⟩
      have := length_pos_iff.mpr hne
      simp only [length_append, length_singleton]
      omega

theorem vended_append_iff : Vended executed existing (updates ++ [update]) ↔
      Vended executed existing updates ∨ (update.hasContents = true ∧
        Positive (keptCounts executed existing (updates ++ [update]))) := by
  constructor
  · rintro ⟨front, other, hfront, hcontents, hpos⟩
    rcases prefix_concat_iff.mp hfront with heq | hfront
    · obtain ⟨rfl, rfl⟩ := append_inj' heq rfl |>.imp_right fun h => singleton_inj.mp h
      exact .inr ⟨hcontents, hpos⟩
    · exact .inl ⟨front, other, hfront, hcontents, hpos⟩
  · rintro (⟨front, other, hfront, hcontents, hpos⟩ | ⟨hcontents, hpos⟩)
    · exact ⟨front, other, hfront.trans (prefix_append _ _), hcontents, hpos⟩
    · exact ⟨updates, update, prefix_rfl, hcontents, hpos⟩

end

/-- One more update of a row. -/
theorem RowState.step {last' : Option LastPatchInfo}
    (h : RowState executed existing updates outs previous last) {update : RowUpdateInput} {out : RowOutcome}
    (hexisting : ∀ row ∈ existing, ∀ c ∈ row.refCounts, KeysOnce c) (hupdate : ∀ c ∈ update.refCounts, KeysOnce c)
    (hwrite : out.storeWrite.counts = (if update.version.isSome ∨ existing.isSome then
      mergedCounts previous existing update executed else none))
    (htells : Tells (mergedCounts previous existing update executed)
      (existing.isSome = true ∨ previous.isSome = true) (update.hasContents = true) last out.clientPatch last') :
    RowState executed existing (updates ++ [update]) (outs ++ [out])
      (some (mergedCounts previous existing update executed)) last' := by
  have hrep := mergedCounts_represents executed h update hexisting hupdate
  have hknown : previous.isSome = true ↔ updates ≠ [] := by
    constructor
    · rintro hsome rfl
      rw [(h.untouched rfl).1] at hsome
      simp at hsome
    · intro hne
      obtain ⟨merged, rfl, -⟩ := h.counts hne
      rfl
  have hnone := hrep.eq_none_iff
  rw [hknown] at htells
  generalize mergedCounts previous existing update executed = merged at *
  have hmem : ∀ P : RowOutcome → Prop, (∃ o ∈ outs ++ [out], P o) ↔ (∃ o ∈ outs, P o) ∨ P out := by
    simp
  refine ⟨fun hnil => absurd hnil (by simp), fun _ => ⟨merged, rfl, hrep, ?_⟩, ?_, ?_, ?_, ?_, ?_⟩
  · have hlast : Written existing (updates ++ [update]) ↔ update.version.isSome = true ∨ existing.isSome = true := by
      simp [Written, or_comm]
    simp only [getLast?_append, getLast?_singleton, some_or, map_some, hwrite, hlast]
  · rw [hmem, h.dels, dropped_append_iff, ← hnone]
    constructor
    · rintro (hdropped | hdel)
      · exact .inl hdropped
      · exact .inr (htells.of_isDel hdel)
    · rintro (hdropped | ⟨hmerged, hbefore⟩)
      · exact .inl hdropped
      · rcases htells.isDel_or hmerged hbefore with hdel | htold
        · exact .inr hdel
        · exact .inl (h.dels.mp (h.lastDel htold))
  · rw [hmem, h.puts, vended_append_iff, ← hrep.some_iff]
    constructor
    · rintro (hvended | hput)
      · exact .inl hvended
      · exact .inr (htells.of_isPut hput).symm
    · rintro (hvended | ⟨hcontents, hmerged⟩)
      · exact .inl hvended
      · rcases htells.isPut_or hmerged hcontents with hput | htold
        · exact .inr hput
        · exact .inl (h.puts.mp (h.lastPut htold))
  · intro htold
    rw [hmem]
    rcases htells.last_spec.1 htold with hdel | htold
    · exact .inr hdel
    · exact .inl (h.lastDel htold)
  · intro htold
    rw [hmem]
    rcases htells.last_spec.2.1 htold with hput | htold
    · exact .inr hput
    · exact .inl (h.lastPut htold)
  · intro htold
    rw [hmem] at htold
    exact htells.last_spec.2.2 (htold.imp_left h.lastSome)

/-! ## All updates -/

/-- Counts of a row come from a map. -/
structure WellFormed (updates : List (String × RowUpdateInput)) : Prop where
  storedRows : (stored.map Prod.fst).Nodup
  storedCounts : ∀ row ∈ stored, ∀ c ∈ row.2.refCounts, KeysOnce c
  updateCounts : ∀ update ∈ updates, ∀ c ∈ update.2.refCounts, KeysOnce c
  versions : ∀ update ∈ updates, update.2.hasContents = true → update.2.version.isSome = true

theorem updatesOf_append (updates : List (String × RowUpdateInput)) (update : String × RowUpdateInput)
    (id : String) : updatesOf (updates ++ [update]) id =
      if update.1 = id then updatesOf updates id ++ [update.2] else updatesOf updates id := by
  unfold updatesOf
  split
  · next h => simp [h]
  · next h => simp [h]

variable (outcomes : List (String × RowOutcome))

theorem outcomesOf_append (outcome : String × RowOutcome) (id : String) : outcomesOf (outcomes ++ [outcome]) id =
      if outcome.1 = id then outcomesOf outcomes id ++ [outcome.2] else outcomesOf outcomes id := by
  unfold outcomesOf
  split
  · next h => simp [h]
  · next h => simp [h]

/-- Updates are received, and each row is in the state that its own updates lead to. -/
theorem receiveUpdates_run (hlt : orig.lt current = true) {updates : List (String × RowUpdateInput)}
    (hstored : ∀ row ∈ stored, ∀ c ∈ row.2.refCounts, KeysOnce c)
    (hcounts : ∀ update ∈ updates, ∀ c ∈ update.2.refCounts, KeysOnce c)
    (hversions : ∀ update ∈ updates, update.2.hasContents = true → update.2.version.isSome = true) :
    ∃ outcomes received, receiveUpdates stored executed orig current updates = some (outcomes, received) ∧
      ∀ id, RowState executed (stored.get? id) (updatesOf updates id) (outcomesOf outcomes id)
        (received.rows.get? id) (received.lastPatches.get? id) := by
  induction updates using reverseRecOn with
  | nil => exact ⟨[], ⟨[], []⟩, rfl, fun id => rowState_nil executed _⟩
  | append_singleton updates update ih =>
    obtain ⟨outcomes, received, hrun, hstates⟩ := ih (fun u hu => hcounts u (by simp [hu]))
      (fun u hu => hversions u (by simp [hu]))
    obtain ⟨outcome, received', hprocess, hrows, hwrite, htells, hothers⟩ :=
      processReceivedRow_run executed hlt update.1 (stored.get? update.1) update.2
        (hversions update (by simp)) received
    refine ⟨outcomes ++ [(update.1, outcome)], received', ?_, fun id => ?_⟩
    · simp only [receiveUpdates] at hrun ⊢
      rw [foldlM_append, hrun]
      simp [hprocess]
    · rw [updatesOf_append, outcomesOf_append, hrows, get?_set]
      by_cases hid : update.1 = id
      · subst hid
        simp only [if_true]
        refine (hstates update.1).step executed ?_ (hcounts update (by simp)) hwrite htells
        intro row hrow
        exact hstored _ (mem_of_get? hrow)
      · simp only [hid, Ne.symm hid]
        rw [hothers id (Ne.symm hid)]
        exact hstates id

/-! ## Deleting rows that were not received -/

/-- The counts that a row is written with when it was not received with any. -/
def leftCounts (received : Received) (id : String) (row : ExistingRow) : Option (Option RefCounts) :=
  match received.rows.get? id with
  | some (some _) => none
  | _ => some (mergeRefCounts row.refCounts none executed)

/-- The writes of a row by the deletion. -/
def writesOf (writes : List RowRecordWrite) (id : String) : List (Option RefCounts) :=
  (writes.filter (fun write => write.id = id)).map RowRecordWrite.refCounts

theorem deleteUnreferencedRow_eq (received : Received) (id : String) (row : ExistingRow) :
    deleteUnreferencedRow id row received executed orig current = match leftCounts executed received id row with
      | none => some none
      | some counts => (if counts.isSome then some row.patchVersion else assertNewVersion orig current).map
          (fun patchVersion => some ⟨id, row.rowVersion, patchVersion, counts⟩) := by
  unfold deleteUnreferencedRow leftCounts
  rcases received.rows.get? id with _ | _ | _ <;> rfl

theorem deleteStep_run (hlt : orig.lt current = true) (received : Received) (result : DeletionResult)
    (row : String × ExistingRow) : ∃ result', deleteStep received executed orig current result row = some result' ∧
      (∀ id, writesOf result'.rowWrites id = writesOf result.rowWrites id ++
        if row.1 = id then (leftCounts executed received row.1 row.2).toList else []) ∧
      (∀ id, id ∈ result'.patches.map fst ↔ id ∈ result.patches.map fst ∨ (row.1 = id ∧
        leftCounts executed received row.1 row.2 = some none ∧
        (result.lastPatches.get? id).map rowVersion ≠ some none)) ∧
      ∀ id, row.1 ≠ id → result'.lastPatches.get? id = result.lastPatches.get? id := by
  obtain ⟨id₀, row⟩ := row
  cases hleft : leftCounts executed received id₀ row with
  | none =>
    have hskip : deleteUnreferencedRow id₀ row received executed orig current = some none := by
      rw [deleteUnreferencedRow_eq, hleft]
    refine ⟨result, by simp [deleteStep, hskip], by simp, by simp, by simp⟩
  | some counts =>
    obtain ⟨patchVersion, hwrite⟩ : ∃ patchVersion, deleteUnreferencedRow id₀ row received executed orig current =
        some (some ⟨id₀, row.rowVersion, patchVersion, counts⟩) := by
      rw [deleteUnreferencedRow_eq, hleft, assertNewVersion_of_lt hlt]
      cases counts <;> exact ⟨_, rfl⟩
    have happend : ∀ write : RowRecordWrite, write.id = id₀ → write.refCounts = counts → ∀ id,
        writesOf (result.rowWrites ++ [write]) id = writesOf result.rowWrites id ++
          if id₀ = id then (some counts).toList else [] := by
      intro write hid hcounts id
      unfold writesOf
      by_cases h : id₀ = id
      · simp [hid, h, hcounts]
      · simp [hid, h]
    by_cases hquiet : counts.isSome = true ∨ (result.lastPatches.get? id₀).map rowVersion = some none
    · refine ⟨⟨result.rowWrites ++ [⟨id₀, row.rowVersion, patchVersion, counts⟩], result.patches,
        result.lastPatches⟩, ?_, ?_, ?_, fun _ _ => rfl⟩
      · simp only [deleteStep, hwrite, bind_eq_bind, bind_some]
        rw [if_pos hquiet]
        rfl
      · exact happend _ rfl rfl
      · intro id
        refine ⟨.inl, ?_⟩
        rintro (hmem | ⟨rfl, hnone, hlast⟩)
        · exact hmem
        · rw [some.injEq] at hnone
          rcases hquiet with hsome | htold
          · simp [hnone] at hsome
          · exact absurd htold hlast
    · generalize hto : current.maxVersion
        ((result.lastPatches.get? id₀).map toVersion) = toVersion
      refine ⟨⟨result.rowWrites ++ [⟨id₀, row.rowVersion, patchVersion, counts⟩],
        result.patches ++ [(id₀, toVersion)], result.lastPatches.set id₀ ⟨none, toVersion⟩⟩, ?_, ?_, ?_, ?_⟩
      · simp only [deleteStep, hwrite, bind_eq_bind, bind_some, hto]
        rw [if_neg hquiet]
        rfl
      · exact happend _ rfl rfl
      · intro id
        rw [not_or] at hquiet
        have hnone : counts = none := by simpa using hquiet.1
        simp only [map_append, map_cons, map_nil, mem_append, mem_singleton, hnone]
        refine or_congr_right ⟨?_, ?_⟩
        · rintro rfl
          exact ⟨rfl, trivial, hquiet.2⟩
        · rintro ⟨rfl, -⟩
          rfl
      · intro id hne
        simp [get?_set, Ne.symm hne]

/-- Each row of the list is written once, unless it was received with counts. -/
theorem deleteRows_run (hlt : orig.lt current = true) (received : Received) {rows : List (String × ExistingRow)}
    (hrows : (rows.map fst).Nodup) (result : DeletionResult) :
    ∃ result', rows.foldlM (deleteStep received executed orig current) result = some result' ∧
      ∀ id, writesOf result'.rowWrites id = writesOf result.rowWrites id ++
          ((get? rows id).bind (leftCounts executed received id)).toList ∧
        (id ∈ result'.patches.map fst ↔ id ∈ result.patches.map fst ∨
          ((get? rows id).bind (leftCounts executed received id) = some none ∧
            (result.lastPatches.get? id).map rowVersion ≠ some none)) := by
  induction rows generalizing result with
  | nil => exact ⟨result, rfl, by simp⟩
  | cons row rows ih =>
    simp only [map_cons, nodup_cons] at hrows
    obtain ⟨next, hstep, hwrites, hpatches, hothers⟩ := deleteStep_run executed hlt received result row
    obtain ⟨result', hrest, hspec⟩ := ih hrows.2 next
    refine ⟨result', by rw [foldlM_cons, hstep]; exact hrest, fun id => ?_⟩
    obtain ⟨hwrites', hpatches'⟩ := hspec id
    rw [hwrites', hpatches', hwrites, hpatches, get?_cons]
    by_cases hid : row.1 = id
    · subst hid
      simp [get?_eq_none.mpr hrows.1]
    · rw [hothers id hid]
      simp [hid]

/-! ## The stored counts after a cycle -/

/-- The last of some writes of a key is read, or what was there before. -/
theorem get?_foldl_set_last {α : Type} (writes : List (String × α)) (records : Fields α) (id : String) :
    get? (writes.foldl (fun (records : Fields α) write => records.set write.1 write.2) records) id =
      (((writes.filter (fun write => write.1 = id)).map snd).getLast?).or (records.get? id) := by
  induction writes using reverseRecOn with
  | nil => simp
  | append_singleton writes write ih =>
    rw [foldl_append, foldl_cons, foldl_nil, get?_set, ih]
    by_cases hid : write.1 = id
    · simp [hid]
    · simp [hid, Ne.symm hid]

theorem finalCounts_eq (deletion : DeletionResult) (id : String) :
    finalCounts stored outcomes deletion id = ((((outcomesOf outcomes id).map (fun out => out.storeWrite.counts) ++
        writesOf deletion.rowWrites id).getLast?).or ((stored.get? id).map ExistingRow.refCounts)).join := by
  have hwrites : ((cycleWrites outcomes deletion).filter (fun write => write.1 = id)).map snd =
      (outcomesOf outcomes id).map (fun out => out.storeWrite.counts) ++ writesOf deletion.rowWrites id := by
    simp [cycleWrites, outcomesOf, writesOf, List.filter_map, comp_def]
  unfold finalCounts
  rw [get?_foldl_set_last, hwrites, get?_map ExistingRow.refCounts]

theorem get?_associated (hstored : (stored.map fst).Nodup) (id : String) :
    get? (stored.filter (fun row => associated executed row.2)) id =
      (stored.get? id).filter (associated executed) := by
  induction stored with
  | nil => rfl
  | cons row stored ih =>
    simp only [map_cons, nodup_cons] at hstored
    have hrest := ih hstored.2
    rw [filter_cons, get?_cons]
    by_cases hid : row.1 = id
    · subst hid
      split
      · next h => simp [get?_cons, Option.filter, h]
      · next h => simp [hrest, get?_eq_none.mpr hstored.1, Option.filter, h]
    · split
      · simp [get?_cons, hid, hrest]
      · simpa [hid] using hrest

/-! ## Rows with regular updates -/

theorem changesOf_front {front : List RowUpdateInput} (h : List.IsPrefix front updates) :
    List.IsPrefix (changesOf front) (changesOf updates) := h.map _

variable (existing updates)

/-- The total counts of a row after some updates. -/
def totalCounts : String → ℤ := total (baseCounts executed existing) (changesOf updates)

/-- An executed or removed query refers to a stored row. -/
def Touched : Prop := (existing.filter (associated executed)).isSome = true

/-- The updates that a cycle handles as it should. -/
structure Regular : Prop where
  /-- A stored row that is not received has no negative count without a positive one. -/
  unreceived : updates = [] → Touched executed existing → Clean (baseCounts executed existing)
  /-- Nor does a row after any of its updates, if it is written with its counts in the end; -/
  clean : updates ≠ [] → Written existing updates → ∀ front, front ≠ [] → List.IsPrefix front updates →
    Clean (totalCounts executed existing front)
  /-- and if it is not, nothing is counted in the end. -/
  unwritten : updates ≠ [] → ¬ Written existing updates → totalCounts executed existing updates = 0
  /-- Counts that cancel out leave no other query behind. -/
  cancelled : updates ≠ [] → Touched executed existing → totalCounts executed existing updates = 0 →
    ¬ Positive (baseCounts executed existing)
  /-- A referenced row that loses its counts does not get others, and its contents do not come while it
  has some. -/
  gone : referenced existing → ∀ front, front ≠ [] → List.IsPrefix front updates →
    totalCounts executed existing front = 0 → totalCounts executed existing updates = 0 ∧
      ∀ front update, List.IsPrefix (front ++ [update]) updates → update.hasContents = true →
        totalCounts executed existing (front ++ [update]) = 0
  /-- A row that is stored without counts never comes without any. -/
  tombstone : existing.isSome = true → ¬ referenced existing → ∀ front, front ≠ [] →
    List.IsPrefix front updates → totalCounts executed existing front ≠ 0
  /-- A row that is not stored does not lose the counts it came with. -/
  added : existing = none → ∀ front, 2 ≤ front.length → List.IsPrefix front updates →
    keptCounts executed existing front ≠ 0

/-- With clean totals, the total is kept after every update. -/
theorem keptCounts_eq_totalCounts :
    keptCounts executed existing updates = totalCounts executed existing updates ↔
      ∀ front, front ≠ [] → List.IsPrefix front updates → Clean (totalCounts executed existing front) := by
  unfold keptCounts totalCounts
  rw [kept_eq_total_iff]
  constructor
  · intro h front hne hfront
    exact h _ (by simpa [changesOf] using hne) (changesOf_front hfront)
  · intro h front hne hfront
    obtain ⟨k, rfl⟩ : ∃ k, front = changesOf (updates.take k) :=
      ⟨front.length, by rw [changesOf, map_take]; exact prefix_iff_eq_take.mp hfront⟩
    exact h _ (by simpa [changesOf] using hne) ⟨_, take_append_drop _ _⟩

variable {updates}

theorem clean_keptCounts (hne : updates ≠ []) : Clean (keptCounts executed existing updates) :=
  clean_kept _ (by simpa [changesOf] using hne)

variable {existing}

theorem Touched.referenced (h : Touched executed existing) : referenced existing := by
  cases existing with
  | none => simp [Touched] at h
  | some row =>
    simp only [Touched, associated, filter_some] at h
    cases hcounts : row.refCounts with
    | none => simp [hcounts] at h
    | some => simp [ViewSyncer.referenced, hcounts]

/-- The counts of an untouched row are all those of queries that were neither executed nor removed. -/
theorem baseCounts_of_not_touched (h : ¬ Touched executed existing) :
    baseCounts executed existing = countsOf (existing.bind ExistingRow.refCounts) := by
  funext query
  simp only [baseCounts, restrictCounts]
  split
  · next hquery =>
    cases existing with
    | none => rfl
    | some row =>
      cases hcounts : row.refCounts with
      | none => simp [hcounts, countsOf]
      | some counts =>
        have habsent : get? counts query = none := by
          rw [get?_eq_none]
          intro hmem
          obtain ⟨entry, hentry, rfl⟩ := mem_map.mp hmem
          have htouches : associated executed row = true := by
            simp only [associated, hcounts, any_some, List.any_eq_true, decide_eq_true_eq]
            exact ⟨entry, hentry, hquery⟩
          exact h (by simp [Touched, htouches])
        simp [hcounts, countsOf, habsent]
  · rfl

open Classical in
/-- What a cycle does to a row. -/
structure RowResult (existing : Option ExistingRow) (updates : List RowUpdateInput)
    (final : Option RefCounts) (deleted put : Prop) : Prop where
  /-- The counts that the deletion would write. -/
  left : ∃ counts, Represents counts (clip (baseCounts executed existing)) ∧
    (updates = [] → final = if Touched executed existing then counts else existing.bind ExistingRow.refCounts) ∧
    (updates ≠ [] → ∃ merged, Represents merged (keptCounts executed existing updates) ∧
      final = if Touched executed existing ∧ merged = none then counts
        else if Written existing updates then merged else none)
  deleted_nil : updates = [] → (deleted ↔ Touched executed existing ∧ ¬ Positive (baseCounts executed existing))
  deleted_cons : updates ≠ [] → (deleted ↔ Dropped executed existing updates)
  put_iff : put ↔ Vended executed existing updates

section Row

variable {executed} {existing : Option ExistingRow} {updates : List RowUpdateInput}
variable {final : Option RefCounts} {deleted put : Prop}

/-- A row that was not received is handled as it should exactly when its base is clean. -/
theorem RowResult.correct_nil_iff (h : RowResult executed existing updates final deleted put)
    (hnil : updates = []) : RowCorrect executed existing updates final deleted put ↔
      (Touched executed existing → Clean (baseCounts executed existing)) := by
  subst hnil
  obtain ⟨counts, hcounts, hfinal, -⟩ := h.left
  have hdeleted := h.deleted_nil rfl
  have hput : ¬ put := by
    rw [h.put_iff]
    rintro ⟨front, update, hfront, -⟩
    simpa using prefix_nil.mp hfront
  have hfinal := hfinal rfl
  by_cases htouched : Touched executed existing
  · rw [if_pos htouched] at hfinal
    subst hfinal
    have hreads : countsOf final = clip (baseCounts executed existing) := hcounts.reads
    constructor
    · intro hcorrect _
      rw [← clip_eq_self_iff, ← hreads]
      exact hcorrect.counts
    · intro hclean
      refine ⟨?_, ?_, fun hboth => hput hboth.2⟩
      · rw [hreads, clip_eq_self_iff.mpr (hclean htouched)]
        rfl
      · rw [hdeleted]
        rw [hcounts.eq_none_iff, positive_clip_iff]
        exact ⟨fun hdel => ⟨hdel.2, htouched.referenced⟩, fun hgone => ⟨htouched, hgone.1⟩⟩
  · rw [if_neg htouched] at hfinal
    subst hfinal
    refine ⟨fun _ h => absurd h htouched, fun _ => ⟨?_, ?_, fun hboth => hput hboth.2⟩⟩
    · rw [← baseCounts_of_not_touched executed htouched]
      rfl
    · rw [hdeleted]
      refine ⟨fun hdel => absurd hdel.1 htouched, fun hgone => ?_⟩
      have hsome := hgone.2
      rw [referenced, hgone.1] at hsome
      simp at hsome

/-- The stored counts of a received row are its total exactly with clean updates. -/
theorem RowResult.counts_iff (h : RowResult executed existing updates final deleted put) (hne : updates ≠ []) :
    countsOf final = totalCounts executed existing updates ↔
      (Written existing updates → keptCounts executed existing updates = totalCounts executed existing updates) ∧
      (¬ Written existing updates → totalCounts executed existing updates = 0) ∧
      (Touched executed existing → totalCounts executed existing updates = 0 →
        ¬ Positive (baseCounts executed existing)) := by
  obtain ⟨counts, hcounts, -, hfinal⟩ := h.left
  obtain ⟨merged, hmerged, hfinal⟩ := hfinal hne
  have hnone : merged = none ↔ keptCounts executed existing updates = 0 := by
    rw [(clean_keptCounts executed existing hne).eq_zero_iff, hmerged.eq_none_iff]
  have hstored : Touched executed existing → Written existing updates := by
    intro htouched
    refine .inl ?_
    cases existing with
    | none => simp [Touched] at htouched
    | some => rfl
  by_cases hdrop : Touched executed existing ∧ merged = none
  · -- the deletion writes the base: it has to be nothing, as the total is not above what is kept
    rw [if_pos hdrop] at hfinal
    have hzero := hnone.mp hdrop.2
    have hwritten := hstored hdrop.1
    rw [hfinal, hcounts.reads]
    constructor
    · intro hclip
      have hbase : ¬ Positive (baseCounts executed existing) := by
        rw [← positive_clip_iff, hclip]
        rintro ⟨query, hquery⟩
        have hle := total_le_kept (baseCounts executed existing) (changesOf updates) query
        have hkept : kept (baseCounts executed existing) (changesOf updates) query = 0 := congrFun hzero query
        simp only [totalCounts] at hquery
        omega
      refine ⟨fun _ => ?_, fun hnot => absurd hwritten hnot, fun _ _ => hbase⟩
      rw [hzero, ← hclip, clip_of_not_positive hbase]
    · rintro ⟨hkept, -, hbase⟩
      have htotal := (hkept hwritten).symm.trans hzero
      rw [htotal, clip_of_not_positive (hbase hdrop.1 htotal)]
  · rw [if_neg hdrop] at hfinal
    by_cases hwritten : Written existing updates
    · rw [if_pos hwritten] at hfinal
      rw [hfinal, hmerged.reads]
      refine ⟨fun heq => ⟨fun _ => heq, fun hnot => absurd hwritten hnot, fun htouched hzero => ?_⟩,
        fun hall => hall.1 hwritten⟩
      exact absurd ⟨htouched, hnone.mpr (heq.trans hzero)⟩ hdrop
    · rw [if_neg hwritten] at hfinal
      rw [hfinal]
      refine ⟨fun hzero => ⟨fun h => absurd h hwritten, fun _ => hzero.symm,
        fun htouched => absurd (hstored htouched) hwritten⟩, fun hall => (hall.2.1 hwritten).symm⟩

theorem isSome_of_referenced (h : referenced existing) : existing.isSome = true := by
  cases existing with
  | none => simp [referenced] at h
  | some => rfl

/-- A row is handled as it should exactly when its updates are regular. -/
theorem RowResult.correct_iff (h : RowResult executed existing updates final deleted put) :
    RowCorrect executed existing updates final deleted put ↔ Regular executed existing updates := by
  by_cases hnil : updates = []
  · rw [h.correct_nil_iff hnil]
    subst hnil
    constructor
    · intro hclean
      refine ⟨fun _ => hclean, fun hne => absurd rfl hne, fun hne => absurd rfl hne, fun hne => absurd rfl hne,
        fun _ front hne hfront => absurd (prefix_nil.mp hfront) hne,
        fun _ _ front hne hfront => absurd (prefix_nil.mp hfront) hne, fun _ front hlength hfront => ?_⟩
      rw [prefix_nil.mp hfront] at hlength
      simp at hlength
    · exact fun hregular => hregular.unreceived rfl
  · have hcounts := h.counts_iff hnil
    have hdeleted := h.deleted_cons hnil
    obtain ⟨counts, hleft, -, hfinal⟩ := h.left
    obtain ⟨merged, hmerged, hfinal⟩ := hfinal hnil
    have hmergedNone := hmerged.eq_none_iff
    -- for a stored row, what is kept is the total after every update
    have hkept : existing.isSome = true →
        (Written existing updates → keptCounts executed existing updates = totalCounts executed existing updates) →
        ∀ front, front ≠ [] → List.IsPrefix front updates →
          (¬ Positive (keptCounts executed existing front) ↔ totalCounts executed existing front = 0) := by
      intro hsome hwritten front hne hfront
      have hclean := (keptCounts_eq_totalCounts executed existing updates).mp (hwritten (.inl hsome))
      have heq := (keptCounts_eq_totalCounts executed existing front).mpr
        fun p hp hpf => hclean p hp (hpf.trans hfront)
      rw [heq, (hclean front hne hfront).eq_zero_iff]
    constructor
    · intro hcorrect
      obtain ⟨hwritten, hunwritten, hcancelled⟩ := hcounts.mp hcorrect.counts
      have hdrops : existing.isSome = true → ∀ front, front ≠ [] → List.IsPrefix front updates →
          totalCounts executed existing front = 0 → deleted := by
        intro hsome front hne hfront hzero
        rw [hdeleted]
        exact ⟨front, hne, hfront, (hkept hsome hwritten front hne hfront).mpr hzero, .inl hsome⟩
      refine ⟨fun hempty => absurd hempty hnil,
        fun _ hw => (keptCounts_eq_totalCounts executed existing updates).mp (hwritten hw),
        fun _ => hunwritten, fun _ => hcancelled, ?_, ?_, ?_⟩
      · intro hreferenced front hne hfront hzero
        have hsome := isSome_of_referenced hreferenced
        have hgone := hdrops hsome front hne hfront hzero
        have hfinalNone := (hcorrect.deletes.mp hgone).1
        refine ⟨?_, fun front' update hfront' hcontents => ?_⟩
        · rw [← hcounts.mpr ⟨hwritten, hunwritten, hcancelled⟩, hfinalNone]
          rfl
        · by_contra hcounted
          refine hcorrect.exclusive ⟨hgone, ?_⟩
          rw [h.put_iff]
          have hpos := mt (hkept hsome hwritten _ (by simp) hfront').mp hcounted
          exact ⟨front', update, hfront', hcontents, not_not.mp hpos⟩
      · intro hsome hnot front hne hfront hzero
        exact hnot (hcorrect.deletes.mp (hdrops hsome front hne hfront hzero)).2
      · rintro rfl front hlength hfront hzero
        have hgone : deleted := by
          rw [hdeleted]
          refine ⟨front, fun hempty => by simp [hempty] at hlength, hfront, ?_, .inr hlength⟩
          rw [hzero]
          exact not_positive_zero
        simpa [referenced] using (hcorrect.deletes.mp hgone).2
    · intro hregular
      have hwritten := fun hw => (keptCounts_eq_totalCounts executed existing updates).mpr (hregular.clean hnil hw)
      have hall := hcounts.mpr ⟨hwritten, hregular.unwritten hnil, hregular.cancelled hnil⟩
      -- a delete is only emitted for a referenced row whose total is nothing
      have hdel : deleted → referenced existing ∧ totalCounts executed existing updates = 0 ∧
          ∀ front update, List.IsPrefix (front ++ [update]) updates → update.hasContents = true →
            totalCounts executed existing (front ++ [update]) = 0 := by
        rw [hdeleted]
        rintro ⟨front, hne, hfront, hzero, hknown⟩
        cases hexisting : existing with
        | none =>
          have hlength : 2 ≤ front.length := by simpa [hexisting] using hknown
          exact absurd ((clean_keptCounts executed existing hne).eq_zero_iff.mpr hzero)
            (hregular.added hexisting front hlength hfront)
        | some =>
          have hsome : existing.isSome = true := by rw [hexisting]; rfl
          have hzero' := (hkept hsome hwritten front hne hfront).mp hzero
          rw [← hexisting]
          by_cases hreferenced : referenced existing
          · exact ⟨hreferenced, hregular.gone hreferenced front hne hfront hzero'⟩
          · exact absurd hzero' (hregular.tombstone hsome hreferenced front hne hfront)
      refine ⟨hall, ⟨fun hgone => ?_, fun hgone => ?_⟩, fun hboth => ?_⟩
      · obtain ⟨hreferenced, hzero, -⟩ := hdel hgone
        refine ⟨?_, hreferenced⟩
        have hsome := isSome_of_referenced hreferenced
        have hnone := hmergedNone.mpr ((hkept hsome hwritten updates hnil prefix_rfl).mpr hzero)
        rw [hfinal]
        split
        · next hdrop =>
          rw [hleft.eq_none_iff, positive_clip_iff]
          exact hregular.cancelled hnil hdrop.1 hzero
        · split
          · exact hnone
          · rfl
      · have hsome := isSome_of_referenced hgone.2
        rw [hdeleted]
        refine ⟨updates, hnil, prefix_rfl, hmergedNone.mp ?_, .inl hsome⟩
        by_contra hcounted
        have hfinalNone := hgone.1
        rw [hfinal, if_neg (fun hdrop => hcounted hdrop.2), if_pos (.inl hsome)] at hfinalNone
        exact hcounted hfinalNone
      · obtain ⟨hreferenced, -, hcontents⟩ := hdel hboth.1
        obtain ⟨front, update, hfront, hhas, hpos⟩ := h.put_iff.mp hboth.2
        have hsome := isSome_of_referenced hreferenced
        exact (hkept hsome hwritten _ (by simp) hfront).mpr (hcontents front update hfront hhas) hpos

end Row

/-! ## All rows -/

theorem leftCounts_of_isSome {received : Received} {id : String} {row : ExistingRow} {merged : Option RefCounts}
    (h : received.rows.get? id = some merged) : leftCounts executed received id row =
      if merged = none then some (mergeRefCounts row.refCounts none executed) else none := by
  unfold leftCounts
  rw [h]
  cases merged <;> rfl

section

variable (hlt : orig.lt current = true) {updates : List (String × RowUpdateInput)}
  (hwf : WellFormed stored updates) (hqueries : executed = [] → updates = [])

include hlt hwf hqueries

/-- A cycle at a new version returns, and does to each row what its own updates lead to. -/
theorem updateCycle_run :
    ∃ outcomes deletion, updateCycle stored executed orig current updates = some (outcomes, deletion) ∧
      ∀ id, RowResult executed (stored.get? id) (updatesOf updates id) (finalCounts stored outcomes deletion id)
        (Deleted outcomes deletion id) (∃ outcome ∈ outcomesOf outcomes id, outcome.IsPut) := by
  obtain ⟨outcomes, received, hreceive, hstates⟩ :=
    receiveUpdates_run stored executed hlt hwf.storedCounts hwf.updateCounts hwf.versions
  obtain ⟨deletion, hdelete, hspec⟩ : ∃ deletion,
      deleteUnreferencedRows (stored.filter (fun row => associated executed row.2)) received executed orig current =
        some deletion ∧
      ∀ id, writesOf deletion.rowWrites id =
          (((stored.get? id).filter (associated executed)).bind (leftCounts executed received id)).toList ∧
        (id ∈ deletion.patches.map fst ↔
          ((stored.get? id).filter (associated executed)).bind (leftCounts executed received id) = some none ∧
            (received.lastPatches.get? id).map rowVersion ≠ some none) := by
    have hnodup : ((stored.filter (fun row => associated executed row.2)).map fst).Nodup :=
      List.Nodup.sublist (List.Sublist.map _ filter_sublist) hwf.storedRows
    by_cases hnone : executed = []
    · -- without queries nothing is received, and no row is touched
      have hnothing : updates = [] := hqueries hnone
      subst hnone hnothing
      cases hreceive
      refine ⟨⟨[], [], []⟩, rfl, fun id => ?_⟩
      have huntouched : (stored.get? id).filter (associated []) = none := by
        cases stored.get? id with
        | none => rfl
        | some row => cases hcounts : row.refCounts <;> simp [Option.filter, associated, hcounts]
      simp [huntouched, writesOf]
    · obtain ⟨deletion, hrun, hspec⟩ := deleteRows_run executed hlt received hnodup ⟨[], [], received.lastPatches⟩
      refine ⟨deletion, ?_, fun id => ?_⟩
      · rw [deleteUnreferencedRows, if_neg (by simpa using hnone)]
        exact hrun
      · have hid := hspec id
        rw [get?_associated stored executed hwf.storedRows] at hid
        simpa [writesOf] using hid
  refine ⟨outcomes, deletion, by simp [updateCycle, hreceive, hdelete], fun id => ?_⟩
  have hstate := hstates id
  obtain ⟨hwrites, hpatches⟩ := hspec id
  have hfinal := finalCounts_eq stored outcomes deletion id
  have honce : ∀ c ∈ (stored.get? id).bind ExistingRow.refCounts, KeysOnce c := by
    intro c hc
    obtain ⟨row, hrow, hcounts⟩ := bind_eq_some_iff.mp hc
    exact hwf.storedCounts _ (mem_of_get? hrow) c hcounts
  -- what the deletion writes to a touched row
  have hleft : Represents (mergeRefCounts ((stored.get? id).bind ExistingRow.refCounts) none executed)
      (clip (baseCounts executed (stored.get? id))) := by
    have hnone : ∀ c ∈ (none : Option RefCounts), KeysOnce c := by simp
    have hmerge := mergeRefCounts_represents executed honce hnone
    have hzero : countsOf none = 0 := by
      rfl
    rwa [hzero, add_zero] at hmerge
  have hleftNone : mergeRefCounts ((stored.get? id).bind ExistingRow.refCounts) none executed = none ↔
      ¬ Positive (baseCounts executed (stored.get? id)) := by
    rw [hleft.eq_none_iff, positive_clip_iff]
  have hfresh : ∀ {row}, received.rows.get? id = none →
      (stored.get? id).filter (associated executed) = some row → leftCounts executed received id row =
        some (mergeRefCounts ((stored.get? id).bind ExistingRow.refCounts) none executed) := by
    intro row hprevious hrow
    simp [leftCounts, hprevious, (filter_eq_some_iff.mp hrow).1]
  refine ⟨⟨_, hleft, ?_, ?_⟩, ?_, ?_, hstate.puts⟩
  · intro hnil
    obtain ⟨hprevious, houts, -⟩ := hstate.untouched hnil
    rw [hfinal, houts, hwrites]
    split
    · next htouched =>
      obtain ⟨row, hrow⟩ := isSome_iff_exists.mp htouched
      rw [hrow, bind_some, hfresh hprevious hrow]
      simp
    · next huntouched =>
      rw [not_isSome_iff_eq_none.mp huntouched]
      cases stored.get? id <;> rfl
  · intro hne
    obtain ⟨merged, hprevious, hmerged, hlast⟩ := hstate.counts hne
    refine ⟨merged, hmerged, ?_⟩
    rw [hfinal, hwrites]
    by_cases hdrop : Touched executed (stored.get? id) ∧ merged = none
    · obtain ⟨row, hrow⟩ := isSome_iff_exists.mp hdrop.1
      have hget := (filter_eq_some_iff.mp hrow).1
      rw [if_pos hdrop, hrow, bind_some, leftCounts_of_isSome executed hprevious, if_pos hdrop.2, hget]
      simp
    · have hnothing : ((stored.get? id).filter (associated executed)).bind (leftCounts executed received id) =
          none := by
        cases hrow : (stored.get? id).filter (associated executed) with
        | none => rfl
        | some =>
          have hcounted : merged ≠ none := fun hnone => hdrop ⟨by rw [Touched, hrow]; rfl, hnone⟩
          rw [bind_some, leftCounts_of_isSome executed hprevious, if_neg hcounted]
      rw [if_neg hdrop, hnothing]
      simp only [toList_none, append_nil, getLast?_map, hlast, some_or, join_some]
  · intro hnil
    obtain ⟨hprevious, houts, htold⟩ := hstate.untouched hnil
    rw [Deleted, houts, hpatches, htold]
    cases hrow : (stored.get? id).filter (associated executed) with
    | none => simp [Touched, hrow]
    | some =>
      have htouched : Touched executed (stored.get? id) := by
        rw [Touched, hrow]
        rfl
      rw [bind_some, hfresh hprevious hrow, some.injEq, hleftNone]
      simp [htouched]
  · intro hne
    obtain ⟨merged, hprevious, hmerged, -⟩ := hstate.counts hne
    rw [Deleted, hstate.dels, hpatches, or_iff_left_iff_imp]
    -- the deletion only tells of rows whose counts the last update threw away
    rintro ⟨hnone, -⟩
    cases hrow : (stored.get? id).filter (associated executed) with
    | none => simp [hrow] at hnone
    | some =>
      have hget := (filter_eq_some_iff.mp hrow).1
      rw [hrow, bind_some, leftCounts_of_isSome executed hprevious] at hnone
      by_cases hcounted : merged = none
      · exact ⟨_, hne, prefix_rfl, hmerged.eq_none_iff.mp hcounted, .inl (by rw [hget]; rfl)⟩
      · rw [if_neg hcounted] at hnone
        cases hnone

end

/-- A stored row that two queries refer to. -/
def sharedRow : Fields ExistingRow := [("r", ⟨"00", ⟨"00", none⟩, some [("p", 1), ("q", 1)]⟩)]

/-- The row is received for the executed query. -/
def receivedRow : List (String × RowUpdateInput) := [("r", ⟨some "01", true, some [("q", 1)]⟩)]

/-- The row is taken out of the other query. -/
def releasedRow : List (String × RowUpdateInput) := [("r", ⟨none, false, some [("p", -1)]⟩)]

theorem wellFormed_receivedRow : WellFormed sharedRow receivedRow := by
  refine ⟨by decide, ?_, ?_, ?_⟩
  · simp [sharedRow, KeysOnce]
  · simp [receivedRow, KeysOnce]
  · simp [receivedRow]

theorem regular_receivedRow (id : String) : Regular ["q"] (sharedRow.get? id) (updatesOf receivedRow id) := by
  by_cases hid : "r" = id
  · subst hid
    have hone : totalCounts ["q"] (sharedRow.get? "r") (updatesOf receivedRow "r") "q" = 1 := rfl
    have hnonzero : totalCounts ["q"] (sharedRow.get? "r") (updatesOf receivedRow "r") ≠ 0 := by
      intro hzero
      rw [hzero] at hone
      cases hone
    have hfront : ∀ front, front ≠ [] → List.IsPrefix front (updatesOf receivedRow "r") →
        front = updatesOf receivedRow "r" := by
      intro front hne hfront
      exact (prefix_concat_iff.mp hfront).resolve_right fun hnil => hne (prefix_nil.mp hnil)
    refine ⟨(fun h => by cases h), fun _ _ front hne h => .inl ⟨"q", ?_⟩, fun _ hnot => absurd (.inl rfl) hnot,
      fun _ _ hzero => absurd hzero hnonzero, fun _ front hne h hzero => ?_, fun _ hnot => absurd rfl hnot, fun h => by cases h⟩
    · rw [hfront front hne h, hone]
      decide
    · exact absurd (hfront front hne h ▸ hzero) hnonzero
  · have hrow : sharedRow.get? id = none := by simp [sharedRow, get?_cons, hid]
    have hupdates : updatesOf receivedRow id = [] := by simp [updatesOf, receivedRow, hid]
    rw [hrow, hupdates]
    refine ⟨fun _ h => absurd h Bool.false_ne_true, by simp, by simp, by simp, fun h => absurd h Bool.false_ne_true, by simp, fun _ front hlength hfront => ?_⟩
    simp [prefix_nil.mp hfront] at hlength

end ZeroCache.ViewSyncer
