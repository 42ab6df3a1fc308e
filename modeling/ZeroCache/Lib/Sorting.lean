import Mathlib.Data.List.Lex
import Mathlib.Data.List.Sort

/-!
# Sorting by a partial comparison

A comparison that orders only the elements of a list still sorts that list. A sorter is a stable
sort of which only its contract is known: what it does with a comparison that orders the list.
-/

namespace ZeroCache.Lib

open List

section Insertion

variable {α : Type} {r : α → α → Prop} [DecidableRel r]

theorem pairwise_orderedInsert_of {a : α} {l : List α} (hl : l.Pairwise r)
    (htotal : ∀ b ∈ l, ¬ r a b → r b a) (htrans : ∀ b ∈ l, ∀ c ∈ l, r a b → r b c → r a c) :
    (l.orderedInsert r a).Pairwise r := by
  induction l with
  | nil => simp
  | cons b rest ih =>
    obtain ⟨hb, hrest⟩ := pairwise_cons.mp hl
    rw [orderedInsert_cons]
    split
    · next hab =>
      refine pairwise_cons.mpr ⟨fun c hc => ?_, hl⟩
      rcases mem_cons.mp hc with rfl | hmem
      · exact hab
      · exact htrans b mem_cons_self c hc hab (hb c hmem)
    · next hab =>
      refine pairwise_cons.mpr ⟨fun c hc => ?_, ?_⟩
      · rcases mem_cons.mp ((perm_orderedInsert r a rest).mem_iff.mp hc) with rfl | hmem
        · exact htotal b mem_cons_self hab
        · exact hb c hmem
      · exact ih hrest (fun c hc => htotal c (mem_cons_of_mem _ hc))
          (fun c hc d hd => htrans c (mem_cons_of_mem _ hc) d (mem_cons_of_mem _ hd))

/-- Insertion sort sorts when the comparison is total and transitive on the list. -/
theorem pairwise_insertionSort_of {l : List α} (htotal : ∀ a ∈ l, ∀ b ∈ l, ¬ r a b → r b a)
    (htrans : ∀ a ∈ l, ∀ b ∈ l, ∀ c ∈ l, r a b → r b c → r a c) : (l.insertionSort r).Pairwise r := by
  induction l with
  | nil => simp
  | cons a rest ih =>
    have hmem : ∀ b ∈ rest.insertionSort r, b ∈ a :: rest := fun b hb => mem_cons_of_mem _ (by simpa using hb)
    refine pairwise_orderedInsert_of (ih ?_ ?_) ?_ ?_
    · exact fun b hb c hc => htotal b (mem_cons_of_mem _ hb) c (mem_cons_of_mem _ hc)
    · exact fun b hb c hc d hd => htrans b (mem_cons_of_mem _ hb) c (mem_cons_of_mem _ hc) d
        (mem_cons_of_mem _ hd)
    · exact fun b hb => htotal a mem_cons_self b (hmem b hb)
    · exact fun b hb c hc => htrans a mem_cons_self b (hmem b hb) c (hmem c hc)

end Insertion

section Sorter

variable {α : Type} {κ : Type} [LinearOrder κ]

/-- A comparison orders the elements of a list: it answers on all of them, the other way round when
they are swapped, and transitively. -/
structure Orders (cmp : α → α → Option Ordering) (l : List α) : Prop where
  swap : ∀ a ∈ l, ∀ b ∈ l, ∃ o, cmp a b = some o ∧ cmp b a = some o.swap
  trans : ∀ a ∈ l, ∀ b ∈ l, ∀ c ∈ l, cmp a b ≠ some .gt → cmp b c ≠ some .gt → cmp a c ≠ some .gt

/-- A stable sort by a comparison that may panic. What it does with a comparison that does not order
the list is left open, except that it neither drops nor repeats an element when it returns. -/
structure Sorter where
  sortBy : {α : Type} → (α → α → Option Ordering) → List α → Option (List α)
  perm : ∀ {α : Type} {cmp : α → α → Option Ordering} {l sorted : List α},
    sortBy cmp l = some sorted → sorted.Perm l
  stable : ∀ {α : Type} {cmp : α → α → Option Ordering} {l : List α}, Orders cmp l →
    sortBy cmp l = some (l.insertionSort (fun a b => cmp a b ≠ some .gt))

/-- The sorter that inserts one element after another, if all of them can be compared. -/
def insertionSorter : Sorter where
  sortBy := fun cmp l =>
    if l.all (fun a => l.all (fun b => (cmp a b).isSome)) then
      some (l.insertionSort (fun a b => cmp a b ≠ some .gt))
    else none
  perm := by
    intro α cmp l sorted h
    split at h
    · cases h
      exact List.perm_insertionSort _ l
    · cases h
  stable := by
    intro α cmp l h
    refine if_pos (List.all_eq_true.mpr (fun a ha => List.all_eq_true.mpr (fun b hb => ?_)))
    obtain ⟨o, ho, -⟩ := h.swap a ha b hb
    rw [ho]
    rfl

/-- The comparison of keys in their order. -/
def keyCompare (a b : κ) : Ordering := compare a b

theorem keyCompare_lt {a b : κ} (h : a < b) : keyCompare a b = .lt := compare_lt_iff_lt.mpr h

theorem keyCompare_gt {a b : κ} (h : b < a) : keyCompare a b = .gt := compare_gt_iff_gt.mpr h

@[simp]
theorem keyCompare_self (a : κ) : keyCompare a a = .eq := compare_eq_iff_eq.mpr rfl

/-- Lists are compared by their heads first. -/
theorem keyCompare_cons (a b : κ) (as bs : List κ) :
    keyCompare (a :: as) (b :: bs) = (keyCompare a b).then (keyCompare as bs) := by
  rcases lt_trichotomy a b with h | rfl | h
  · rw [keyCompare_lt h, keyCompare_lt (cons_lt_cons_iff.mpr (.inl h))]
    rfl
  · rw [keyCompare_self a]
    rcases lt_trichotomy as bs with h | rfl | h
    · rw [keyCompare_lt h, keyCompare_lt (cons_lt_cons_iff.mpr (.inr ⟨rfl, h⟩))]
      rfl
    · rw [keyCompare_self, keyCompare_self]
      rfl
    · rw [keyCompare_gt h, keyCompare_gt (cons_lt_cons_iff.mpr (.inr ⟨rfl, h⟩))]
      rfl
  · rw [keyCompare_gt h, keyCompare_gt (cons_lt_cons_iff.mpr (.inl h))]
    rfl

/-- A comparison compares the elements of a list by a key. -/
def ComparesBy (key : α → κ) (cmp : α → α → Option Ordering) (l : List α) : Prop :=
  ∀ a ∈ l, ∀ b ∈ l, cmp a b = some (keyCompare (key a) (key b))

namespace ComparesBy

variable {key : α → κ} {cmp : α → α → Option Ordering} {l : List α}

section

variable (h : ComparesBy key cmp l)

include h

theorem le_iff {a b : α} (ha : a ∈ l) (hb : b ∈ l) : cmp a b ≠ some .gt ↔ key a ≤ key b := by
  rw [h a ha b hb, ne_eq, Option.some.injEq, keyCompare, compare_gt_iff_gt, not_lt]

theorem orders : Orders cmp l := by
  constructor
  · intro a ha b hb
    refine ⟨_, h a ha b hb, ?_⟩
    rw [h b hb a ha, keyCompare, keyCompare, Std.OrientedOrd.eq_swap (a := key b) (b := key a)]
  · intro a ha b hb c hc hab hbc
    rw [h.le_iff ha hb] at hab
    rw [h.le_iff hb hc] at hbc
    exact (h.le_iff ha hc).mpr (hab.trans hbc)

variable (sorter : Sorter)

/-- The list in the order of the key. -/
theorem sortBy_eq :
    ∃ sorted, sorter.sortBy cmp l = some sorted ∧ sorted.Perm l ∧ sorted.Pairwise (fun a b => key a ≤ key b) := by
  refine ⟨_, sorter.stable h.orders, perm_insertionSort _ l, ?_⟩
  have hsorted : (l.insertionSort (fun a b => cmp a b ≠ some .gt)).Pairwise (fun a b => cmp a b ≠ some .gt) := by
    refine pairwise_insertionSort_of (fun a ha b hb hab => ?_) h.orders.trans
    rw [h.le_iff ha hb, not_le] at hab
    exact (h.le_iff hb ha).mpr hab.le
  refine hsorted.imp_of_mem (fun {a b} ha hb hab => ?_)
  exact (h.le_iff (by simpa using ha) (by simpa using hb)).mp hab

/-- The elements of a part of the list are compared by the key too. -/
theorem subset {l' : List α} (hsubset : l' ⊆ l) : ComparesBy key cmp l' :=
  fun a ha b hb => h a (hsubset ha) b (hsubset hb)

/-- A list in the order of the key stays as it is. -/
theorem sortBy_of_sorted (hsorted : l.Pairwise (fun a b => key a ≤ key b)) : sorter.sortBy cmp l = some l := by
  rw [sorter.stable h.orders]
  refine congrArg some (List.Pairwise.insertionSort_eq (hsorted.imp_of_mem (fun {a b} ha hb hab => ?_)))
  exact (h.le_iff ha hb).mpr hab

/-- The order a list comes in does not matter if the key tells its elements apart. -/
theorem sortBy_perm {l' : List α} (hperm : l.Perm l')
    (hapart : ∀ a ∈ l, ∀ b ∈ l, key a = key b → a = b) : sorter.sortBy cmp l = sorter.sortBy cmp l' := by
  have h' : ComparesBy key cmp l' := h.subset (fun _ ha => hperm.mem_iff.mpr ha)
  obtain ⟨sorted, hsort, hp, hsorted⟩ := h.sortBy_eq sorter
  obtain ⟨sorted', hsort', hp', hsorted'⟩ := h'.sortBy_eq sorter
  have heq : sorted = sorted' := by
    refine List.Perm.eq_of_pairwise (fun a b ha hb hab hba => ?_) hsorted hsorted' (hp.trans (hperm.trans hp'.symm))
    exact hapart a (hp.mem_iff.mp ha) b (hperm.mem_iff.mpr (hp'.mem_iff.mp hb)) (le_antisymm hab hba)
  rw [hsort, hsort', heq]

end

end ComparesBy

end Sorter

end ZeroCache.Lib
