import ZeroCache.Zql.SortedRows

/-!
# Branches merged by a fan-in

A fan-in sorts the nodes of its branches and drops repeated rows (`ivm/fan_in.rs`). Of a row that
several branches return it keeps the node of the first, with the children that this branch attached.
-/

namespace ZeroCache.Zql

open List Option Node

/-- What a fan-in returns for the nodes of its branches. -/
def fanInFetch (order : QueryOrdering) (reverse : Bool) (branches : List (List Node)) : Option (List Node) :=
  mergeNodes (readOrder order reverse) branches.flatten

/-- Nodes merged into each row once, in order, with the children attached to any node of the row. -/
structure IsUnion (order : QueryOrdering) (nodes merged : List Node) : Prop where
  sorted : (merged.map Node.row).Pairwise (Before order)
  rows : ∀ row, row ∈ merged.map Node.row ↔ row ∈ nodes.map Node.row
  relationships : ∀ node ∈ merged, ∀ entry, entry ∈ node.relationships ↔
    ∃ other ∈ nodes, other.row = node.row ∧ entry ∈ other.relationships

section First

variable {α : Type} {r : α → α → Prop} [DecidableRel r] {p : α → Bool} (h : ∀ a b, p a → p b → r a b)

include h

theorem find?_orderedInsert (a : α) (l : List α) : (l.orderedInsert r a).find? p = (a :: l).find? p := by
  induction l with
  | nil => rfl
  | cons b =>
    rw [orderedInsert_cons]
    split
    · rfl
    · next hab =>
      cases ha : p a <;> cases hb : p b <;> simp_all

/-- Sorting keeps the first of some elements that are equal to the sort. -/
theorem find?_insertionSort (l : List α) : (l.insertionSort r).find? p = l.find? p := by
  induction l with
  | nil => rfl
  | cons a l ih => rw [insertionSort_cons, find?_orderedInsert h, find?_cons, find?_cons, ih]

end First

variable {order : QueryOrdering} {nodes : List Node}

/-- Dropping repeated rows keeps the first node of each row. -/
theorem find?_dedupFrom (row : Row) {last : Node} (h : SortsApart order ((last :: nodes).map Node.row)) :
    (last :: dedupFrom order last nodes).find? (fun node => node.row = row) =
      (last :: nodes).find? (fun node => node.row = row) := by
  induction nodes generalizing last with
  | nil => rfl
  | cons node rest ih =>
    rw [dedupFrom]
    split
    · next heq =>
      have hskip : SortsApart order ((last :: rest).map Node.row) := by
        intro a ha b hb
        exact h a (by simp at ha ⊢; tauto) b (by simp at hb ⊢; tauto)
      obtain ⟨result, hresult, hsame⟩ := h last.row (by simp) node.row (by simp)
      have hrow : last.row = node.row := hsame (some.inj (hresult.symm.trans heq))
      rw [ih hskip]
      by_cases hlast : last.row = row
      · simp [hlast]
      · simp [hlast, ← hrow]
    · have hrest : SortsApart order ((node :: rest).map Node.row) :=
        fun a ha b hb => h a (mem_cons_of_mem _ ha) b (mem_cons_of_mem _ hb)
      rw [find?_cons, ih hrest]
      rfl

theorem find?_mergeNodes (h : SortsApart order (nodes.map row)) {merged : List Node}
    (hmerge : mergeNodes order nodes = some merged) (row : Row) :
    merged.find? (fun node => node.row = row) = nodes.find? (fun node => node.row = row) := by
  obtain ⟨-, hmerged⟩ := ite_none_right_eq_some.mp hmerge
  obtain rfl := some.inj hmerged
  rw [← find?_insertionSort (r := fun a b : Node => compareRows order a.row b.row ≠ some .gt) ?_ nodes]
  · have hsorted : ∀ node ∈ nodes.insertionSort (fun a b => compareRows order a.row b.row ≠ some .gt), node ∈ nodes :=
      fun node hnode => (mem_insertionSort _).mp hnode
    generalize nodes.insertionSort (fun a b => compareRows order a.row b.row ≠ some .gt) = sorted at *
    cases sorted with
    | nil => rfl
    | cons =>
      refine find?_dedupFrom row fun a ha b hb => ?_
      obtain ⟨x, hx, rfl⟩ := mem_map.mp ha
      obtain ⟨y, hy, rfl⟩ := mem_map.mp hb
      exact h x.row (mem_map_of_mem (hsorted x hx)) y.row (mem_map_of_mem (hsorted y hy))
  · intro a b ha hb hgt
    rw [decide_eq_true_eq] at ha hb
    exact not_before_self order _ (before_of_gt (ha ▸ hb ▸ hgt))

/-- Nodes of rows that the ordering tells apart are merged to the first node of each row. -/
theorem mergeNodes_first (h : SortsApart order (nodes.map row)) :
    ∃ merged, mergeNodes order nodes = some merged ∧ (merged.map row).Pairwise (Before order) ∧
      (∀ row, row ∈ merged.map Node.row ↔ row ∈ nodes.map Node.row) ∧
      ∀ node ∈ merged, nodes.find? (fun other => other.row = node.row) = some node := by
  obtain ⟨merged, hmerge, -, hrows⟩ := @mergeNodes_spec order (readRows (nodes.map row) order none none)
    (readRows_sorted h) (fun row hrow => h.self (mem_readRows.mp hrow).1) nodes
    (fun node hnode => mem_readRows.mpr ⟨mem_map_of_mem hnode, rfl, rfl⟩)
  have hsorted : (merged.map row).Pairwise (Before order) := hrows ▸ (readRows_sorted h).filter _
  refine ⟨merged, hmerge, hsorted, fun row => ?_, fun node hnode => ?_⟩
  · rw [hrows, mem_filter, mem_readRows]
    simp [constraintMatches, startMatches]
  · rw [← find?_mergeNodes h hmerge]
    obtain ⟨first, hfirst⟩ : ∃ first, merged.find? (fun other => other.row = node.row) = some first :=
      isSome_iff_exists.mp (find?_isSome.mpr ⟨node, hnode, decide_eq_true rfl⟩)
    have hnodup : (merged.map row).Nodup := hsorted.imp (by rintro a _ hab rfl; exact not_before_self _ a hab)
    have hsame := inj_on_of_nodup_map hnodup (mem_of_find?_eq_some hfirst) hnode
      (by simpa using find?_some hfirst)
    rw [hfirst, hsame]

/-- Two branches of an issue, one with its comments and one with its labels. -/
def commentsAndLabels : List (List Node) :=
  [[.mk [("id", .string "i")] [("comments", [])]], [.mk [("id", .string "i")] [("labels", [])]]]

end ZeroCache.Zql
