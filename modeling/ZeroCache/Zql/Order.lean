import ZeroCache.Zql.Filter
import Mathlib.Data.List.Sort

/-!
# Rows in order

The comparison of rows by an ordering (`ivm/data.rs`). Where it does not panic it is a strict
order: it can be swapped, and comparing less is transitive. So a list of rows that is sorted by an
ordering which tells the rows apart is determined by its members.
-/

namespace ZeroCache.Zql

/-- Compare two rows by an ordering (`make_comparator`). -/
def compareRows : QueryOrdering → Row → Row → Option Ordering
  | [], _, _ => some .eq
  | (field, direction) :: rest, a, b =>
    match compareValues (a.get field) (b.get field) with
    | none => none
    | some .eq => compareRows rest a b
    | some result => some (if direction = .asc then result else result.swap)

/-- A row comes before another. -/
def Before (order : QueryOrdering) (a b : Row) : Prop := compareRows order a b = some .lt

/-- An ordering can compare all rows of a table, and only a row itself compares equal to it. -/
def SortsApart (order : QueryOrdering) (rows : List Row) : Prop :=
  ∀ a ∈ rows, ∀ b ∈ rows, ∃ result, compareRows order a b = some result ∧ (result = .eq → a = b)

/-! ## Values -/

theorem compareValues_swap (a b : JsonValue) : compareValues b a = (compareValues a b).map Ordering.swap := by
  cases a <;> cases b <;> simp [compareValues, ← Std.OrientedCmp.eq_swap]

theorem eq_of_compareValues {a b : JsonValue} (h : compareValues a b = some .eq) : a = b := by
  cases a <;> cases b <;> simp_all [compareValues]

theorem compareValues_lt_trans {a b c : JsonValue} (hab : compareValues a b = some .lt)
    (hbc : compareValues b c = some .lt) : compareValues a c = some .lt := by
  cases a <;> cases b <;> simp [compareValues] at hab <;> cases c <;> simp [compareValues] at hbc ⊢
  all_goals exact Std.TransCmp.lt_trans hab hbc

/-! ## Rows -/

theorem compareRows_swap (order : QueryOrdering) (a b : Row) :
    compareRows order b a = (compareRows order a b).map Ordering.swap := by
  induction order with
  | nil => rfl
  | cons entry rest ih =>
    obtain ⟨field, direction⟩ := entry
    simp only [compareRows, compareValues_swap (a.get field) (b.get field)]
    cases compareValues (a.get field) (b.get field) with
    | none => rfl
    | some result =>
      cases result with
      | eq => exact ih
      | lt | gt => cases direction <;> rfl

variable {order : QueryOrdering}

theorem before_of_gt {a b : Row} (h : compareRows order a b = some .gt) : Before order b a := by
  rw [Before, compareRows_swap, h]
  rfl

theorem not_before_self (order : QueryOrdering) (a : Row) : ¬ Before order a a := by
  intro h
  have hswap := compareRows_swap order a a
  rw [h] at hswap
  cases hswap

/-- Coming before is transitive: the first field that differs decides. -/
theorem Before.trans {a b c : Row} (hab : Before order a b) (hbc : Before order b c) : Before order a c := by
  unfold Before at *
  induction order with
  | nil => cases hab
  | cons entry rest ih =>
    obtain ⟨field, direction⟩ := entry
    simp only [compareRows] at hab hbc ⊢
    cases h₁ : compareValues (a.get field) (b.get field) with
    | none => simp [h₁] at hab
    | some r₁ =>
      cases h₂ : compareValues (b.get field) (c.get field) with
      | none => simp [h₂] at hbc
      | some r₂ =>
        rw [h₁] at hab
        rw [h₂] at hbc
        cases r₁ with
        | eq =>
          rw [eq_of_compareValues h₁, h₂]
          cases r₂ with
          | eq => exact ih hab hbc
          | lt | gt => exact hbc
        | lt =>
          cases r₂ with
          | eq =>
            rw [← eq_of_compareValues h₂, h₁]
            exact hab
          | lt =>
            rw [compareValues_lt_trans h₁ h₂]
            exact hab
          | gt => cases direction <;> simp at hab hbc
        | gt =>
          cases r₂ with
          | eq =>
            rw [← eq_of_compareValues h₂, h₁]
            exact hab
          | lt => cases direction <;> simp at hab hbc
          | gt =>
            have hca : compareValues (c.get field) (a.get field) = some .lt := by
              refine compareValues_lt_trans (b := b.get field) ?_ ?_
              · rw [compareValues_swap, h₂]
                rfl
              · rw [compareValues_swap, h₁]
                rfl
            rw [compareValues_swap, hca]
            exact hab

section Apart

variable {order : QueryOrdering} {rows : List Row}

theorem SortsApart.self (h : SortsApart order rows) {row : Row} (hrow : row ∈ rows) :
    compareRows order row row = some .eq := by
  obtain ⟨result, hresult, -⟩ := h row hrow row hrow
  have hswap := compareRows_swap order row row
  rw [hresult] at hswap ⊢
  cases result with
  | eq => rfl
  | lt | gt => simp at hswap

/-- Of rows that an ordering tells apart, one that does not compare greater is the same or before. -/
theorem SortsApart.not_gt_iff (h : SortsApart order rows) {a b : Row} (ha : a ∈ rows) (hb : b ∈ rows) :
    compareRows order a b ≠ some .gt ↔ a = b ∨ Before order a b := by
  obtain ⟨result, hresult, heq⟩ := h a ha b hb
  rw [Before, hresult]
  cases result with
  | eq => simp [heq rfl]
  | lt => simp
  | gt =>
    have hne : a ≠ b := by
      rintro rfl
      rw [h.self ha] at hresult
      cases hresult
    simp [hne]

end Apart

/-- Lists sorted by an ordering are determined by their members. -/
theorem eq_of_sorted {l l' : List Row} (hl : l.Pairwise (Before order))
    (hl' : l'.Pairwise (Before order)) (h : ∀ row, row ∈ l ↔ row ∈ l') : l = l' := by
  have hne : ∀ {a b : Row}, Before order a b → a ≠ b := by
    rintro a _ hab rfl
    exact not_before_self order a hab
  have hperm : l.Perm l' := (List.perm_ext_iff_of_nodup (hl.imp hne) (hl'.imp hne)).mpr h
  refine hperm.eq_of_pairwise (fun a b _ _ hab hba => ?_) hl hl'
  exact absurd (hab.trans hba) (not_before_self order a)

end ZeroCache.Zql
