import ZeroCache.ViewSyncer.UpdateCycle

/-!
# Merging reference counts

Received counts are merged one after another into those of a row (`merge_ref_counts`). Merging into a
record drops the counts that reach zero; without a record the received counts are taken as they are.
-/

namespace ZeroCache.ViewSyncer

open Tally List Option Assoc

/-- Merge received counts one after another. -/
def mergeAll (start : Option RefCounts) (received : List RefCounts) : Option RefCounts :=
  received.foldl (fun merged counts => mergeRefCounts merged (some counts) []) start

/-- The sum of the counts of each query. -/
def sumOf (start : Option RefCounts) (received : List RefCounts) : String → ℤ :=
  total (countsOf start) (received.map (fun counts => countsOf (some counts)))

/-- Counts of maps, positive at first, that never go below zero. -/
structure Admissible (start : Option RefCounts) (received : List RefCounts) : Prop where
  positive : ∀ counts ∈ start, KeysOnce counts ∧ ∀ query, ∀ count ∈ counts.get? query, 0 < count
  once : ∀ counts ∈ received, KeysOnce counts
  nonneg : ∀ front, List.IsPrefix front received → ∀ query, 0 ≤ sumOf start front query

/-- The counts are the sum without its zeros; after a merge there are none at all if the sum is zero. -/
structure IsSum (start : Option RefCounts) (received : List RefCounts) (result : Option RefCounts) : Prop where
  reads : countsOf result = sumOf start received
  nonzero : ∀ counts ∈ result, ∀ query, counts.get? query ≠ some 0
  absent : received ≠ [] → (result = none ↔ sumOf start received = 0)

theorem addCounts_nonzero (removed : List String) (merged counts : RefCounts)
    (h : ∀ query, merged.get? query ≠ some 0) (query : String) :
    (addCounts removed merged counts).get? query ≠ some 0 := by
  induction counts generalizing merged with
  | nil => exact h query
  | cons entry rest ih =>
    refine ih _ fun other => ?_
    dsimp only
    split
    · exact h other
    · split
      · rw [get?_erase]
        split
        · simp
        · exact h other
      · next hne =>
        rw [get?_set]
        split
        · simpa using hne
        · exact h other

/-- Counts merged into a record have no zeros. -/
theorem mergeRefCounts_nonzero (existing received : RefCounts) (removed : List String) :
    ∀ counts ∈ mergeRefCounts (some existing) (some received) removed, ∀ query, counts.get? query ≠ some 0 := by
  intro counts hcounts
  simp only [mergeRefCounts, mem_def, ite_none_right_eq_some, some.injEq] at hcounts
  rw [← hcounts.2]
  exact addCounts_nonzero [] _ _ (addCounts_nonzero removed [] existing (by simp))

theorem mergeAll_append (start : Option RefCounts) (front : List RefCounts) (last : RefCounts) :
    mergeAll start (front ++ [last]) = mergeRefCounts (mergeAll start front) (some last) [] := by
  simp [mergeAll]

theorem sumOf_append (start : Option RefCounts) (front : List RefCounts) (last : RefCounts) :
    sumOf start (front ++ [last]) = sumOf start front + countsOf (some last) := by
  simp [sumOf]

variable {start : Option RefCounts} {received : List RefCounts}

theorem Admissible.front {last : RefCounts} (h : Admissible start (received ++ [last])) : Admissible start received :=
  ⟨h.positive, fun counts hcounts => h.once counts (by simp [hcounts]),
    fun front hfront => h.nonneg front (hfront.trans (prefix_append _ _))⟩

theorem Admissible.clean (h : Admissible start received) : Clean (sumOf start received) := by
  by_cases hpos : Positive (sumOf start received)
  · exact .inl hpos
  · refine .inr (funext fun query => le_antisymm ?_ (h.nonneg received prefix_rfl query))
    exact not_lt.mp fun hlt => hpos ⟨query, hlt⟩

/-- What is merged reads as the sum. -/
theorem mergeAll_reads (h : Admissible start received) : countsOf (mergeAll start received) = sumOf start received ∧
      (∀ counts ∈ mergeAll start received, KeysOnce counts) ∧
      (mergeAll start received = none ↔ (received = [] → start = none) ∧ sumOf start received = 0) := by
  induction received using reverseRecOn with
  | nil =>
    refine ⟨rfl, fun counts hcounts => (h.positive counts hcounts).1, fun hnone => ⟨fun _ => hnone, ?_⟩,
      fun hnone => hnone.1 rfl⟩
    subst hnone
    rfl
  | append_singleton front last ih =>
    obtain ⟨hreads, honce, -⟩ := ih h.front
    have hlast : ∀ counts ∈ some last, KeysOnce counts := by simpa using h.once last (by simp)
    have hmerged := mergeRefCounts_represents [] honce hlast
    have hrestrict : restrictCounts [] (mergeAll start front) = sumOf start front := by
      simp [← hreads, restrictCounts, funext_iff]
    rw [hrestrict, ← sumOf_append, clip_eq_self_iff.mpr h.clean, ← mergeAll_append] at hmerged
    refine ⟨hmerged.reads, hmerged.once, ?_⟩
    rw [h.clean.eq_zero_iff, ← hmerged.some_iff]
    simp

end ZeroCache.ViewSyncer
