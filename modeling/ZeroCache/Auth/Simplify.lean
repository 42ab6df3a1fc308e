import ZeroCache.Auth.ReadAuthorizer
import ZeroCache.Zql.Naming

/-!
# Simplified conditions

Simplifying a condition keeps what it says and adds neither comparisons nor subqueries. What it
leaves has no disjunction with an arm that is always true, so that stripping the correlated
subqueries off it drops no arm.
-/

namespace ZeroCache.Auth

open Zql List Bool Formula

variable {β : Type}

@[simp]
theorem simplifyConditions_eq (conditions : List Condition) :
    simplifyConditions conditions = conditions.map simplifyCondition := by
  induction conditions with
  | nil => rfl
  | cons condition rest ih => rw [simplifyConditions, ih, map_cons]

/-- What a conjunction of simplified conditions becomes. -/
theorem simplifyAnd_cases (conditions : List Condition) : (∃ c, conditions = [c] ∧ simplifyAnd conditions = c) ∨
      (falseCondition ∈ conditions.flatMap andArms ∧ simplifyAnd conditions = falseCondition) ∨
      simplifyAnd conditions = .and (conditions.flatMap andArms) := by
  unfold simplifyAnd
  split
  · next c => exact .inl ⟨c, rfl, rfl⟩
  · dsimp only
    split_ifs with hfalse
    · obtain ⟨c, hc, hnever⟩ := any_eq_true.mp hfalse
      unfold isAlwaysFalse at hnever
      split at hnever
      · exact .inr (.inl ⟨hc, rfl⟩)
      · cases hnever
    · exact .inr (.inr rfl)

/-- What a disjunction of simplified conditions becomes. -/
theorem simplifyOr_cases (conditions : List Condition) : (∃ c, conditions = [c] ∧ simplifyOr conditions = c) ∨
      (trueCondition ∈ conditions.flatMap orArms ∧ simplifyOr conditions = trueCondition) ∨
      trueCondition ∉ conditions.flatMap orArms ∧ simplifyOr conditions = .or (conditions.flatMap orArms) := by
  unfold simplifyOr
  split
  · next c => exact .inl ⟨c, rfl, rfl⟩
  · dsimp only
    split_ifs with htrue
    · obtain ⟨c, hc, halways⟩ := any_eq_true.mp htrue
      unfold isAlwaysTrue at halways
      split at halways
      · exact .inr (.inl ⟨hc, rfl⟩)
      · cases halways
    · exact .inr (.inr ⟨fun hc => htrue (any_eq_true.mpr ⟨_, hc, rfl⟩), rfl⟩)

/-! ## What a simplified condition says -/

section Holds

variable (exist : ExistsOp → Subquery Ast → Row → Bool) (row : Row)

/-- A condition holds of a row, given what its existence tests say. -/
def passes (condition : Condition) : Bool := (formulaOf condition).holdsWith exist row

theorem passes_and (conditions : List Condition) : passes exist row (.and conditions) = conditions.all (passes exist row) := by
  rw [passes, formulaOf, formulasOf_eq, holdsWith, allHold_eq, all_map]
  rfl

theorem passes_or (conditions : List Condition) : passes exist row (.or conditions) = conditions.any (passes exist row) := by
  rw [passes, formulaOf, formulasOf_eq, holdsWith, anyHolds_eq, any_map]
  rfl

theorem all_andArms (condition : Condition) : (andArms condition).all (passes exist row) = passes exist row condition := by
  cases condition with
  | and conditions => exact (passes_and exist row conditions).symm
  | or | simple | correlatedSubquery => simp [andArms]

theorem any_orArms (condition : Condition) : (orArms condition).any (passes exist row) = passes exist row condition := by
  cases condition with
  | and | simple | correlatedSubquery => simp [orArms]
  | or conditions => exact (passes_or exist row conditions).symm

theorem passes_simplifyAnd (conditions : List Condition) :
    passes exist row (simplifyAnd conditions) = conditions.all (passes exist row) := by
  have hflat : (conditions.flatMap andArms).all (passes exist row) = conditions.all (passes exist row) := by
    rw [all_flatMap]
    exact Lib.all_congr_mem (fun c _ => all_andArms exist row c)
  rcases simplifyAnd_cases conditions with ⟨c, rfl, heq⟩ | ⟨hc, heq⟩ | heq
  · simp [heq]
  · rw [heq, ← hflat, eq_comm]
    exact all_eq_false.mpr ⟨_, hc, Bool.false_ne_true⟩
  · rw [heq, passes_and, hflat]

theorem passes_simplifyOr (conditions : List Condition) :
    passes exist row (simplifyOr conditions) = conditions.any (passes exist row) := by
  have hflat : (conditions.flatMap orArms).any (passes exist row) = conditions.any (passes exist row) := by
    rw [any_flatMap]
    exact Lib.any_congr_mem (fun c _ => any_orArms exist row c)
  rcases simplifyOr_cases conditions with ⟨c, rfl, heq⟩ | ⟨hc, heq⟩ | ⟨-, heq⟩
  · simp [heq]
  · rw [heq, ← hflat, eq_comm]
    exact any_eq_true.mpr ⟨_, hc, rfl⟩
  · rw [heq, passes_or, hflat]

/-- Simplifying keeps what a condition says. -/
theorem passes_simplifyCondition (condition : Condition) :
    passes exist row (simplifyCondition condition) = passes exist row condition := by
  induction condition with
  | simple | exist => rfl
  | and conditions ih =>
    rw [simplifyCondition, simplifyConditions_eq, passes_simplifyAnd, passes_and, all_map]
    exact Lib.all_congr_mem ih
  | or conditions ih =>
    rw [simplifyCondition, simplifyConditions_eq, passes_simplifyOr, passes_or, any_map]
    exact Lib.any_congr_mem ih

end Holds

/-! ## What a simplified condition is made of -/

section Parts

variable {γ : Type} {parts : Formula Ast → List γ}
  (hand : ∀ formulas, parts (.and formulas) = formulas.flatMap parts)
  (hor : ∀ formulas, parts (.or formulas) = formulas.flatMap parts)

include hand hor

theorem parts_arms (condition : Condition) {arms : List Condition}
    (h : arms = andArms condition ∨ arms = orArms condition) :
    arms.flatMap (fun c => parts (formulaOf c)) = parts (formulaOf condition) := by
  rcases h with rfl | rfl
  · cases condition with
    | and => rw [andArms, formulaOf, formulasOf_eq, hand, flatMap_map]
    | or | simple | correlatedSubquery => simp [andArms]
  · cases condition with
    | and | simple | correlatedSubquery => simp [orArms]
    | or => rw [orArms, formulaOf, formulasOf_eq, hor, flatMap_map]

theorem parts_simplifyAnd (conditions : List Condition) :
    parts (formulaOf (simplifyAnd conditions)) ⊆ conditions.flatMap (fun c => parts (formulaOf c)) := by
  rcases simplifyAnd_cases conditions with ⟨c, rfl, heq⟩ | ⟨-, heq⟩ | heq
  · simp [heq]
  · rw [heq, falseCondition, formulaOf, hor]
    exact nil_subset _
  · rw [heq, formulaOf, formulasOf_eq, hand, flatMap_map, flatMap_assoc]
    rw [flatMap_congr (fun c _ => parts_arms hand hor c (.inl rfl))]
    exact List.Subset.refl _

theorem parts_simplifyOr (conditions : List Condition) :
    parts (formulaOf (simplifyOr conditions)) ⊆ conditions.flatMap (fun c => parts (formulaOf c)) := by
  rcases simplifyOr_cases conditions with ⟨c, rfl, heq⟩ | ⟨-, heq⟩ | ⟨-, heq⟩
  · simp [heq]
  · rw [heq, trueCondition, formulaOf, hand]
    exact nil_subset _
  · rw [heq, formulaOf, formulasOf_eq, hor, flatMap_map, flatMap_assoc]
    rw [flatMap_congr (fun c _ => parts_arms hand hor c (.inr rfl))]
    exact List.Subset.refl _

/-- Simplifying adds no part to a condition. -/
theorem parts_simplifyCondition (condition : Condition) :
    parts (formulaOf (simplifyCondition condition)) ⊆ parts (formulaOf condition) := by
  have harms : ∀ conditions : List Condition,
      (∀ c ∈ conditions, parts (formulaOf (simplifyCondition c)) ⊆ parts (formulaOf c)) →
      ∀ l ⊆ (conditions.map simplifyCondition).flatMap (fun c => parts (formulaOf c)),
        l ⊆ conditions.flatMap (fun c => parts (formulaOf c)) := by
    intro conditions ih l hl part hpart
    obtain ⟨c, hc, hmem⟩ := mem_flatMap.mp (hl hpart)
    obtain ⟨original, horiginal, rfl⟩ := mem_map.mp hc
    exact mem_flatMap.mpr ⟨original, horiginal, ih original horiginal hmem⟩
  induction condition with
  | simple | exist related op flip scalar planId _ => exact List.Subset.refl _
  | and conditions ih =>
    rw [simplifyCondition, simplifyConditions_eq, formulaOf, formulasOf_eq, hand, flatMap_map]
    exact harms conditions ih _ (parts_simplifyAnd hand hor _)
  | or conditions ih =>
    rw [simplifyCondition, simplifyConditions_eq, formulaOf, formulasOf_eq, hor, flatMap_map]
    exact harms conditions ih _ (parts_simplifyOr hand hor _)

end Parts

/-! ## Arms that are kept -/

/-- A condition of which stripping leaves something, unless it has a correlated subquery. -/
def Solid (condition : Condition) : Prop :=
  (formulaOf condition).hasCorrelated = true ∨ (formulaOf condition).strip.isSome

/-- A conjunction. -/
def IsAnd : Condition → Prop
  | .and _ => True
  | _ => False

variable {condition : Condition}

theorem solid_of_not_isAnd (h : ¬ IsAnd condition) : Solid condition := by
  cases condition with
  | simple | or => exact .inr rfl
  | and => exact absurd trivial h
  | correlatedSubquery related =>
    cases related
    exact .inl rfl

variable {conditions : List Condition}

/-- A conjunction with a solid arm is solid. -/
theorem solid_and (hmem : condition ∈ conditions) (h : Solid condition) : Solid (.and conditions) := by
  rw [Solid, formulaOf, formulasOf_eq]
  rcases h with hcorrelated | hstrip
  · refine .inl ?_
    rw [hasCorrelated, anyCorrelated_eq, any_map]
    exact any_eq_true.mpr ⟨condition, hmem, hcorrelated⟩
  · refine .inr ?_
    obtain ⟨stripped, hstripped⟩ := Option.isSome_iff_exists.mp hstrip
    have hin : stripped ∈ (conditions.map formulaOf).filterMap strip :=
      mem_filterMap.mpr ⟨formulaOf condition, mem_map_of_mem hmem, hstripped⟩
    rw [strip, stripAll_eq]
    split
    · next hnil =>
      rw [hnil] at hin
      cases hin
    · rfl
    · rfl

/-- What simplified conditions look like: disjunctions keep their arms when stripped, conjunctions
are flat. -/
structure Settled (condition : Condition) : Prop where
  kept : (formulaOf condition).armsKept = true
  flat : ∀ conditions, condition = .and conditions → ∀ c ∈ conditions, ¬ IsAnd c
  solid : ∀ conditions, condition = .or conditions → ∀ c ∈ conditions, Solid c

theorem armsKept_and :
    (formulaOf (.and conditions)).armsKept = true ↔ ∀ c ∈ conditions, (formulaOf c).armsKept = true := by
  rw [formulaOf, formulasOf_eq, armsKept, allArmsKept_eq, all_map, all_eq_true]
  rfl

theorem armsKept_of_or (h : (formulaOf (.or conditions)).armsKept = true) :
    ∀ c ∈ conditions, (formulaOf c).armsKept = true := by
  rw [formulaOf, formulasOf_eq, armsKept, allArmsKept_eq, all_map, and_eq_true, all_eq_true] at h
  exact h.1

theorem armsKept_or (hkept : ∀ c ∈ conditions, (formulaOf c).armsKept = true)
    (hsolid : ∀ c ∈ conditions, Solid c) : (formulaOf (.or conditions)).armsKept = true := by
  rw [formulaOf, formulasOf_eq, armsKept, allArmsKept_eq, anyCorrelated_eq,
    allStripped_eq, all_map, any_map, all_map, and_eq_true, all_eq_true]
  refine ⟨hkept, ?_⟩
  by_cases hany : conditions.any (fun c => (formulaOf c).hasCorrelated) = true
  · rw [or_eq_true]
    exact .inl hany
  · rw [or_eq_true, all_eq_true]
    refine .inr (fun c hc => (hsolid c hc).resolve_left (fun hcorrelated => hany ?_))
    exact any_eq_true.mpr ⟨c, hc, hcorrelated⟩

theorem settled_simplifyAnd (h : ∀ c ∈ conditions, Settled c) : Settled (simplifyAnd conditions) := by
  rcases simplifyAnd_cases conditions with ⟨c, rfl, heq⟩ | ⟨-, heq⟩ | heq
  · exact h c mem_cons_self
  · rw [heq]
    refine ⟨rfl, fun _ heq => (by cases heq), fun _ heq c hc => ?_⟩
    cases heq
    cases hc
  · have harms : ∀ d ∈ conditions.flatMap andArms, (formulaOf d).armsKept = true ∧ ¬ IsAnd d := by
      intro d hd
      obtain ⟨c, hc, hmem⟩ := mem_flatMap.mp hd
      have hsettled := h c hc
      cases c with
      | and inner => exact ⟨armsKept_and.mp hsettled.kept d hmem, hsettled.flat inner rfl d hmem⟩
      | or | simple | correlatedSubquery =>
        obtain rfl := mem_singleton.mp hmem
        exact ⟨hsettled.kept, id⟩
    rw [heq]
    refine ⟨armsKept_and.mpr (fun d hd => (harms d hd).1), fun inner heq d hd => ?_, fun _ heq => (by cases heq)⟩
    cases heq
    exact (harms d hd).2

theorem settled_simplifyOr (h : ∀ c ∈ conditions, Settled c) : Settled (simplifyOr conditions) := by
  rcases simplifyOr_cases conditions with ⟨c, rfl, heq⟩ | ⟨-, heq⟩ | ⟨hnever, heq⟩
  · exact h c mem_cons_self
  · rw [heq]
    refine ⟨rfl, fun _ heq c hc => ?_, fun _ heq => (by cases heq)⟩
    cases heq
    cases hc
  · have harms : ∀ d ∈ conditions.flatMap orArms, (formulaOf d).armsKept = true ∧ Solid d := by
      intro d hd
      obtain ⟨c, hc, hmem⟩ := mem_flatMap.mp hd
      have hsettled := h c hc
      cases c with
      | or inner => exact ⟨armsKept_of_or hsettled.kept d hmem, hsettled.solid inner rfl d hmem⟩
      | and inner =>
        obtain rfl := mem_singleton.mp hmem
        refine ⟨hsettled.kept, ?_⟩
        -- An empty conjunction would be always true; any other has an arm that is no conjunction.
        cases inner with
        | nil => exact absurd hd hnever
        | cons first =>
          exact solid_and mem_cons_self (solid_of_not_isAnd (hsettled.flat _ rfl first mem_cons_self))
      | simple | correlatedSubquery =>
        obtain rfl := mem_singleton.mp hmem
        exact ⟨hsettled.kept, solid_of_not_isAnd id⟩
    rw [heq]
    refine ⟨armsKept_or (fun d hd => (harms d hd).1) (fun d hd => (harms d hd).2), fun _ heq => (by cases heq),
      fun inner heq d hd => ?_⟩
    cases heq
    exact (harms d hd).2

/-- Simplified conditions are settled. -/
theorem settled_simplifyCondition (condition : Condition) : Settled (simplifyCondition condition) := by
  induction condition with
  | simple => exact ⟨rfl, fun _ h => (by cases h), fun _ h => (by cases h)⟩
  | exist related =>
    cases related
    exact ⟨rfl, fun _ h => (by cases h), fun _ h => (by cases h)⟩
  | and conditions ih =>
    rw [simplifyCondition, simplifyConditions_eq]
    exact settled_simplifyAnd (forall_mem_map.mpr ih)
  | or conditions ih =>
    rw [simplifyCondition, simplifyConditions_eq]
    exact settled_simplifyOr (forall_mem_map.mpr ih)

end ZeroCache.Auth
