import Mathlib.Data.List.Induction
import Mathlib.Tactic.Linarith

/-!
# Tallies that restart at nothing

Counts of things are changed by amounts, one change after another, and whenever no count is positive
the tally is thrown away and starts again at nothing. What is kept is never below the total of the
changes, and it is the total exactly when no tally was thrown away that counted something below zero.
-/

namespace ZeroCache.Tally

open List

variable {ι : Type}

/-- Something is counted. -/
def Positive (f : ι → ℤ) : Prop := ∃ i, 0 < f i

/-- Something is counted, or nothing is left. -/
def Clean (f : ι → ℤ) : Prop := Positive f ∨ f = 0

open Classical in
/-- A tally without a positive count is thrown away. -/
noncomputable def clip (f : ι → ℤ) : ι → ℤ := if Positive f then f else 0

/-- What is kept after some changes. -/
noncomputable def kept (base : ι → ℤ) (changes : List (ι → ℤ)) : ι → ℤ :=
  changes.foldl (fun f g => clip (f + g)) base

/-- The total of some changes. -/
def total (base : ι → ℤ) (changes : List (ι → ℤ)) : ι → ℤ := changes.foldl (· + ·) base

variable {f : ι → ℤ}

theorem clip_of_positive (h : Positive f) : clip f = f := if_pos h

theorem clip_of_not_positive (h : ¬ Positive f) : clip f = 0 := if_neg h

theorem not_positive_zero : ¬ Positive (0 : ι → ℤ) := by
  rintro ⟨i, hi⟩
  simp at hi

theorem positive_clip_iff : Positive (clip f) ↔ Positive f := by
  by_cases h : Positive f
  · rw [clip_of_positive h]
  · rw [clip_of_not_positive h]
    exact ⟨fun hzero => absurd hzero not_positive_zero, fun hf => absurd hf h⟩

theorem clip_eq_zero_iff : clip f = 0 ↔ ¬ Positive f := by
  constructor
  · intro hzero hpos
    rw [clip_of_positive hpos] at hzero
    exact not_positive_zero (hzero ▸ hpos)
  · exact clip_of_not_positive

theorem le_clip (f : ι → ℤ) (i : ι) : f i ≤ clip f i := by
  by_cases h : Positive f
  · rw [clip_of_positive h]
  · rw [clip_of_not_positive h]
    exact not_lt.mp fun hpos => h ⟨i, hpos⟩

theorem clip_eq_self_iff : clip f = f ↔ Clean f := by
  constructor
  · intro heq
    by_cases h : Positive f
    · exact .inl h
    · exact .inr (heq ▸ clip_of_not_positive h)
  · rintro (h | rfl)
    · exact clip_of_positive h
    · exact clip_of_not_positive not_positive_zero

theorem Clean.eq_zero_iff (h : Clean f) : f = 0 ↔ ¬ Positive f := by
  rw [← clip_eq_self_iff.mpr h, clip_eq_zero_iff, positive_clip_iff]

section Changes

variable (base : ι → ℤ)

section

variable (changes : List (ι → ℤ)) (change : ι → ℤ)

@[simp]
theorem kept_append : kept base (changes ++ [change]) = clip (kept base changes + change) := by
  simp [kept]

@[simp]
theorem total_append : total base (changes ++ [change]) = total base changes + change := by
  simp [total]

theorem total_le_kept (i : ι) : total base changes i ≤ kept base changes i := by
  induction changes using reverseRecOn with
  | nil => exact le_rfl
  | append_singleton changes change =>
    rw [kept_append, total_append]
    have hclip := le_clip (kept base changes + change) i
    simp only [Pi.add_apply] at hclip ⊢
    linarith

/-- The total is kept over a last change exactly when it was kept before and is clean. -/
theorem kept_eq_total_append_iff : kept base (changes ++ [change]) = total base (changes ++ [change]) ↔
      kept base changes = total base changes ∧ Clean (total base (changes ++ [change])) := by
  rw [kept_append, total_append]
  constructor
  · intro heq
    have hbefore : kept base changes = total base changes := by
      funext i
      have hlast := congrFun heq i
      have hclip := le_clip (kept base changes + change) i
      have hle := total_le_kept base changes i
      simp only [Pi.add_apply] at hlast hclip
      linarith
    rw [hbefore] at heq
    exact ⟨hbefore, clip_eq_self_iff.mp heq⟩
  · rintro ⟨hbefore, hclean⟩
    rw [hbefore, clip_eq_self_iff.mpr hclean]

/-- The total is kept exactly when it is clean after every change. -/
theorem kept_eq_total_iff : kept base changes = total base changes ↔
    ∀ front, front ≠ [] → List.IsPrefix front changes → Clean (total base front) := by
  induction changes using reverseRecOn with
  | nil =>
    refine ⟨fun _ front hne hfront => absurd (prefix_nil.mp hfront) hne, fun _ => rfl⟩
  | append_singleton changes change ih =>
    rw [kept_eq_total_append_iff, ih]
    constructor
    · rintro ⟨hbefore, hlast⟩ front hne hfront
      rcases prefix_concat_iff.mp hfront with rfl | hfront
      · exact hlast
      · exact hbefore front hne hfront
    · intro h
      exact ⟨fun front hne hfront => h front hne (hfront.trans (prefix_append _ _)), h _ (by simp) prefix_rfl⟩

end

/-- What is kept is clean once something has changed. -/
theorem clean_kept {changes : List (ι → ℤ)} (hne : changes ≠ []) : Clean (kept base changes) := by
  induction changes using reverseRecOn with
  | nil => exact absurd rfl hne
  | append_singleton changes change =>
    rw [kept_append]
    by_cases h : Positive (kept base changes + change)
    · exact .inl (positive_clip_iff.mpr h)
    · exact .inr (clip_of_not_positive h)

end Changes

end ZeroCache.Tally
