import Mathlib.Data.List.Perm.Basic

/-!
# Lists related member by member

Rules for lists of which each member is related to the member at the same place of another list:
how such relations follow from each other, and what they say of members.
-/

namespace ZeroCache.Lib

open List

variable {α β γ δ : Type} {R : α → β → Prop} {l : List α} {l' : List β}

/-- A relation of two lists follows from one that implies it for the members. -/
theorem forall₂_imp_of_mem {S : α → β → Prop} (h : List.Forall₂ R l l')
    (himp : ∀ a ∈ l, ∀ b ∈ l', R a b → S a b) : List.Forall₂ S l l' := by
  induction h with
  | nil => exact .nil
  | cons hhead _ ih =>
    refine .cons (himp _ mem_cons_self _ mem_cons_self hhead) (ih (fun a ha b hb => ?_))
    exact himp a (mem_cons_of_mem _ ha) b (mem_cons_of_mem _ hb)

/-- Two relations of lists in a row give one that follows for the members. -/
theorem forall₂_trans_of_mem {S : β → γ → Prop} {T : α → γ → Prop} {m : List β} {r : List γ}
    (h : List.Forall₂ R l m) (h' : List.Forall₂ S m r)
    (htrans : ∀ a ∈ l, ∀ b c, R a b → S b c → T a c) : List.Forall₂ T l r := by
  induction h generalizing r with
  | nil =>
    cases h'
    exact .nil
  | cons hhead _ ih =>
    cases h' with
    | cons hhead' hrest' =>
      refine .cons (htrans _ mem_cons_self _ _ hhead hhead') (ih hrest' (fun a ha => ?_))
      exact htrans a (mem_cons_of_mem _ ha)

/-- Every member of the second list is related to one of the first. -/
theorem forall₂_exists_left (h : List.Forall₂ R l l') {b : β} (hb : b ∈ l') : ∃ a ∈ l, R a b := by
  induction h with
  | nil => cases hb
  | cons hhead _ ih =>
    rcases mem_cons.mp hb with rfl | hmem
    · exact ⟨_, mem_cons_self, hhead⟩
    · obtain ⟨a, ha, hab⟩ := ih hmem
      exact ⟨a, mem_cons_of_mem _ ha, hab⟩

/-- Every member of the first list is related to one of the second. -/
theorem forall₂_exists_right (h : List.Forall₂ R l l') {a : α} (ha : a ∈ l) : ∃ b ∈ l', R a b :=
  forall₂_exists_left h.flip ha

/-- What holds of the pairs of one list holds of the pairs of a list related to it. -/
theorem pairwise_of_forall₂ {S : β → β → Prop} {T : α → α → Prop} (h : List.Forall₂ R l l') (hS : l'.Pairwise S)
    (hST : ∀ a b a' b', R a a' → R b b' → S a' b' → T a b) : l.Pairwise T := by
  induction h with
  | nil => exact List.Pairwise.nil
  | @cons a a' rest rest' ha hrest ih =>
    obtain ⟨hhead, htail⟩ := pairwise_cons.mp hS
    refine pairwise_cons.mpr ⟨fun b hb => ?_, ih htail⟩
    obtain ⟨b', hb', hR⟩ := forall₂_exists_right hrest hb
    exact hST a b a' b' ha hR (hhead b' hb')

/-- A list related to one with a marked member is split at the same place. -/
theorem forall₂_split {before after : List β} {b : β} (h : List.Forall₂ R l (before ++ b :: after)) :
    ∃ l₁ a l₂, l = l₁ ++ a :: l₂ ∧ List.Forall₂ R l₁ before ∧ R a b ∧ List.Forall₂ R l₂ after := by
  induction before generalizing l with
  | nil =>
    obtain ⟨a, l₂, ha, h₂, rfl⟩ := forall₂_cons_right_iff.mp h
    exact ⟨[], a, l₂, rfl, .nil, ha, h₂⟩
  | cons c rest ih =>
    obtain ⟨d, tail, hd, htail, rfl⟩ := forall₂_cons_right_iff.mp h
    obtain ⟨l₁, a, l₂, rfl, h₁, ha, h₂⟩ := ih htail
    exact ⟨d :: l₁, a, l₂, rfl, .cons hd h₁, ha, h₂⟩

/-- Members that each have a partner have a list of partners. -/
theorem exists_forall₂ (h : ∀ a ∈ l, ∃ b, R a b) : ∃ l', List.Forall₂ R l l' := by
  induction l with
  | nil => exact ⟨[], .nil⟩
  | cons a rest ih =>
    obtain ⟨b, hb⟩ := h a mem_cons_self
    obtain ⟨l', hl'⟩ := ih (fun x hx => h x (mem_cons_of_mem _ hx))
    exact ⟨b :: l', .cons hb hl'⟩

/-- Two lists are mapped to one list when their members are mapped alike. -/
theorem map_eq_map_iff {f : α → γ} {g : β → γ} : l.map f = l'.map g ↔ List.Forall₂ (fun a b => f a = g b) l l' := by
  rw [← forall₂_eq_eq_eq, forall₂_map_left_iff, forall₂_map_right_iff]

/-- Lists that are related up to order are so when they are joined. -/
theorem forall₂_flatMap_perm {R : γ → δ → Prop} {f : α → List γ} {g : β → List δ}
    (h : List.Forall₂ (fun a b => ∃ mapped, List.Forall₂ R (f a) mapped ∧ mapped.Perm (g b)) l l') :
    ∃ mapped, List.Forall₂ R (l.flatMap f) mapped ∧ mapped.Perm (l'.flatMap g) := by
  induction h with
  | nil => exact ⟨[], .nil, .refl _⟩
  | cons hhead _ ih =>
    obtain ⟨mapped, hmapped, hperm⟩ := hhead
    obtain ⟨rest, hrest, hrestperm⟩ := ih
    refine ⟨mapped ++ rest, ?_, ?_⟩
    · exact rel_append hmapped hrest
    · exact hperm.append hrestperm

end ZeroCache.Lib
