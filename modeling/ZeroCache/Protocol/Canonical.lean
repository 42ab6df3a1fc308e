import ZeroCache.Protocol.NormalForm

/-!
# Queries with one normal form

A query is tidy if the conditions of all its levels are: every junction has at least two arms, no
three junctions of a type are nested in each other, no parameter is left, and the comparison of
conditions orders what has to be sorted. A tidy query is normalized to one query, whichever way its
junctions are ordered and grouped, and normalizing that query changes nothing.
-/

namespace ZeroCache.Protocol

open Lib Zql List Option Bool

/-! ## Arms of junctions -/

/-- A junction of a type. -/
def isJunction (isAnd : Bool) : Condition → Bool
  | .and _ => isAnd
  | .or _ => !isAnd
  | _ => false

/-- The arms of a junction of a type; any other condition is its own arm. -/
def armsOf (isAnd : Bool) (condition : Condition) : List Condition :=
  match isAnd, condition with
  | true, .and inner => inner
  | false, .or inner => inner
  | _, condition => [condition]

/-- What is flattened into a junction. -/
def operands (isAnd : Bool) (conditions : List Condition) : List Condition := conditions.flatMap (armsOf isAnd)

theorem armsOf_junction (isAnd kind : Bool) (conditions : List Condition) :
    armsOf isAnd (junction kind conditions) = if isAnd = kind then conditions else [junction kind conditions] := by
  cases isAnd <;> cases kind <;> rfl

@[simp]
theorem isJunction_junction (isAnd kind : Bool) (conditions : List Condition) :
    isJunction isAnd (junction kind conditions) = decide (isAnd = kind) := by
  cases isAnd <;> cases kind <;> rfl

variable {condition : Condition} {conditions : List Condition}

variable {isAnd : Bool} {flats : List Condition} {display : ℚ → String}

theorem armsOf_of_not (h : isJunction isAnd condition = false) : armsOf isAnd condition = [condition] := by
  cases isAnd <;> cases condition <;> simp_all [isJunction, armsOf]

theorem exists_of_isJunction (h : isJunction isAnd condition = true) :
    ∃ conditions, condition = junction isAnd conditions := by
  cases isAnd <;> cases condition <;> simp_all [isJunction, junction]

theorem not_isJunction_of_leaf (h : isLeaf condition = true) (isAnd : Bool) : isJunction isAnd condition = false := by
  cases condition <;> simp_all [isLeaf, isJunction]

theorem armOf_eq (isAnd : Bool) (condition : Condition) :
    armOf isAnd condition = (armsOf isAnd condition).flatMap (fun arm => (flatten arm).toList) := by
  cases isAnd <;> cases condition <;> simp [armOf, armsOf]

theorem leaves_armsOf (isAnd : Bool) (condition : Condition) :
    (armsOf isAnd condition).flatMap leaves = leaves condition := by
  cases hjunction : isJunction isAnd condition with
  | false => rw [armsOf_of_not hjunction, flatMap_singleton]
  | true =>
    obtain ⟨conditions, rfl⟩ := exists_of_isJunction hjunction
    rw [armsOf_junction, if_pos rfl, leaves_junction]

theorem leaves_operands (isAnd : Bool) (conditions : List Condition) :
    (operands isAnd conditions).flatMap leaves = conditions.flatMap leaves := by
  rw [operands, flatMap_assoc]
  exact flatMap_congr (fun c _ => leaves_armsOf isAnd c)

theorem flatten_junction_operands (isAnd : Bool) (conditions : List Condition) : flatten (junction isAnd conditions) =
      collapse isAnd ((operands isAnd conditions).flatMap (fun arm => (flatten arm).toList)) := by
  rw [flatten_junction, operands, flatMap_assoc]
  exact congrArg _ (flatMap_congr (fun c _ => armOf_eq isAnd c))

/-- Induction over conditions, with the hypothesis for what is flattened into a junction. -/
@[elab_as_elim]
theorem Condition.inductOperands {P : Condition → Prop} (leaf : ∀ condition, isLeaf condition = true → P condition)
    (junction : ∀ isAnd conditions, (∀ c ∈ conditions, P c) → (∀ c ∈ operands isAnd conditions, P c) →
      P (junction isAnd conditions)) (condition : Condition) : P condition := by
  have harms : P condition ∧ ∀ isAnd, ∀ c ∈ armsOf isAnd condition, P c := by
    induction condition using Condition.induct with
    | simple op left right =>
      have hleaf := leaf (.simple op left right) rfl
      refine ⟨hleaf, fun isAnd c hc => ?_⟩
      rw [armsOf_of_not (not_isJunction_of_leaf rfl isAnd), mem_singleton] at hc
      exact hc ▸ hleaf
    | correlated related op flip scalar planId =>
      have hleaf := leaf (.correlatedSubquery related op flip scalar planId) rfl
      refine ⟨hleaf, fun isAnd c hc => ?_⟩
      rw [armsOf_of_not (not_isJunction_of_leaf rfl isAnd), mem_singleton] at hc
      exact hc ▸ hleaf
    | junction kind conditions ih =>
      have hjunction := junction kind conditions (fun c hc => (ih c hc).1) (fun c hc => by
        obtain ⟨arm, harm, hc⟩ := mem_flatMap.mp hc
        exact (ih arm harm).2 kind c hc)
      refine ⟨hjunction, fun isAnd c hc => ?_⟩
      rw [armsOf_junction] at hc
      split at hc
      · exact (ih c hc).1
      · exact mem_singleton.mp hc ▸ hjunction
  exact harms.1

/-! ## Tidy conditions -/

mutual
/-- Every junction has at least two arms. -/
def wide : Condition → Bool
  | .simple _ _ _ => true
  | .and conditions => 2 ≤ conditions.length && allWide conditions
  | .or conditions => 2 ≤ conditions.length && allWide conditions
  | .correlatedSubquery _ _ _ _ _ => true

/-- Every junction of the conditions has at least two arms. -/
def allWide : List Condition → Bool
  | [] => true
  | condition :: rest => wide condition && allWide rest
end

mutual
/-- No three junctions of a type are nested in each other. -/
def shallow : Condition → Bool
  | .simple _ _ _ => true
  | .and conditions => allShallow true conditions
  | .or conditions => allShallow false conditions
  | .correlatedSubquery _ _ _ _ _ => true

/-- No three junctions of a type are nested in a junction with the conditions as its arms. -/
def allShallow (isAnd : Bool) : List Condition → Bool
  | [] => true
  | condition :: rest =>
    (armsOf isAnd condition).all (fun arm => !isJunction isAnd arm) && shallow condition && allShallow isAnd rest
end

/-- Nothing but leaves is flattened into a condition. -/
def isLevel : Condition → Bool
  | .and conditions => (operands true conditions).all isLeaf
  | .or conditions => (operands false conditions).all isLeaf
  | _ => true

section

variable (isAnd : Bool) (conditions : List Condition)

theorem wide_junction :
    wide (junction isAnd conditions) = true ↔ 2 ≤ conditions.length ∧ ∀ c ∈ conditions, wide c = true := by
  have hall : allWide conditions = conditions.all wide := by
    induction conditions with
    | nil => rfl
    | cons condition rest ih => rw [allWide, ih, all_cons]
  cases isAnd <;> simp [junction, wide, hall]

theorem shallow_junction : shallow (junction isAnd conditions) = true ↔
    ∀ c ∈ conditions, (∀ arm ∈ armsOf isAnd c, isJunction isAnd arm = false) ∧ shallow c = true := by
  have hall : ∀ isAnd, allShallow isAnd conditions =
      conditions.all (fun c => (armsOf isAnd c).all (fun arm => !isJunction isAnd arm) && shallow c) := by
    intro isAnd
    induction conditions with
    | nil => rfl
    | cons condition rest ih => rw [allShallow, ih, all_cons]
  cases isAnd <;> simp [junction, shallow, hall]

theorem isLevel_junction :
    isLevel (junction isAnd conditions) = true ↔ ∀ c ∈ operands isAnd conditions, isLeaf c = true := by
  cases isAnd <;> exact all_eq_true

end

/-- The condition of a level has one normal form. -/
structure TidyCondition (display : ℚ → String) (condition : Condition) : Prop where
  isWide : wide condition = true
  isShallow : shallow condition = true
  bound : BoundCondition condition
  apart : ToldApart display (leaves condition) (leaves condition)
  ordered : Plain condition ∨ isLevel condition = true

theorem leaves_subset_of_operand {c : Condition}
    (hc : c ∈ operands isAnd conditions) : leaves c ⊆ leaves (junction isAnd conditions) := by
  intro leaf hleaf
  rw [leaves_junction, ← leaves_operands isAnd]
  exact mem_flatMap.mpr ⟨c, hc, hleaf⟩

namespace TidyCondition

variable {display : ℚ → String} {isAnd : Bool} {conditions : List Condition}

theorem operand_spec (h : TidyCondition display (junction isAnd conditions)) {c : Condition}
    (hc : c ∈ operands isAnd conditions) : isJunction isAnd c = false ∧ TidyCondition display c := by
  obtain ⟨arm, harm, hmem⟩ := mem_flatMap.mp hc
  have hwide := ((wide_junction ..).mp h.isWide).2 arm harm
  have hshallow := (shallow_junction ..).mp h.isShallow arm harm
  have hsubset := leaves_subset_of_operand hc
  have hown : wide c = true ∧ shallow c = true := by
    cases hjunction : isJunction isAnd arm with
    | false =>
      rw [armsOf_of_not hjunction, mem_singleton] at hmem
      exact hmem ▸ ⟨hwide, hshallow.2⟩
    | true =>
      obtain ⟨inner, rfl⟩ := exists_of_isJunction hjunction
      rw [armsOf_junction, if_pos rfl] at hmem
      exact ⟨((wide_junction ..).mp hwide).2 c hmem, ((shallow_junction ..).mp hshallow.2 c hmem).2⟩
  refine ⟨hshallow.1 c hmem, hown.1, hown.2, ?_, ?_, ?_⟩
  · exact fun op left right hleaf => h.bound op left right (hsubset hleaf)
  · exact fun a ha b hb => h.apart a (hsubset ha) b (hsubset hb)
  · rcases h.ordered with hplain | hlevel
    · exact .inl (fun leaf hleaf => hplain leaf (hsubset hleaf))
    · have hleaf := (isLevel_junction ..).mp hlevel c hc
      cases c <;> simp_all [isLeaf, isLevel]

theorem length_operands (h : TidyCondition display (junction isAnd conditions)) :
    2 ≤ (operands isAnd conditions).length := by
  have hwide := (wide_junction ..).mp h.isWide
  have harms : ∀ c ∈ conditions, 1 ≤ (armsOf isAnd c).length := by
    intro c hc
    cases hjunction : isJunction isAnd c with
    | false => rw [armsOf_of_not hjunction, length_singleton]
    | true =>
      obtain ⟨inner, rfl⟩ := exists_of_isJunction hjunction
      have hinner := (wide_junction ..).mp (hwide.2 _ hc)
      rw [armsOf_junction, if_pos rfl]
      omega
  have hlength : conditions.length ≤ (operands isAnd conditions).length := by
    clear h hwide
    rw [operands]
    induction conditions with
    | nil => simp
    | cons c rest ih =>
      have hhead := harms c mem_cons_self
      have hrest := ih (fun d hd => harms d (mem_cons_of_mem _ hd))
      rw [flatMap_cons, length_append, length_cons]
      omega
  omega

end TidyCondition

/-! ## What flattening leaves -/

mutual
/-- Flattening leaves a condition as it is: junctions have two arms or more, none of their own
type. -/
def isFlat : Condition → Bool
  | .simple _ _ _ => true
  | .and conditions => 2 ≤ conditions.length && allFlat true conditions
  | .or conditions => 2 ≤ conditions.length && allFlat false conditions
  | .correlatedSubquery _ _ _ _ _ => true

/-- Flattening leaves the arms of a junction as they are. -/
def allFlat (isAnd : Bool) : List Condition → Bool
  | [] => true
  | condition :: rest => !isJunction isAnd condition && isFlat condition && allFlat isAnd rest
end

theorem isFlat_junction (isAnd : Bool) (conditions : List Condition) : isFlat (junction isAnd conditions) = true ↔
    2 ≤ conditions.length ∧ ∀ c ∈ conditions, isJunction isAnd c = false ∧ isFlat c = true := by
  have hall : ∀ isAnd, allFlat isAnd conditions = conditions.all (fun c => !isJunction isAnd c && isFlat c) := by
    intro isAnd
    induction conditions with
    | nil => rfl
    | cons condition rest ih => rw [allFlat, ih, all_cons]
  cases isAnd <;> simp [junction, isFlat, hall]

theorem collapse_of_length (h : 2 ≤ conditions.length) :
    collapse isAnd conditions = some (junction isAnd conditions) := by
  match conditions with
  | [] | [c] => simp at h
  | c :: d :: rest => rfl

theorem flatMap_flatten (h : List.Forall₂ (fun c flat => flatten c = some flat) conditions flats) :
    conditions.flatMap (fun c => (flatten c).toList) = flats := by
  induction h with
  | nil => rfl
  | cons hhead _ ih => rw [flatMap_cons, hhead, ih, toList_some, singleton_append]

theorem flatten_of_isFlat (h : isFlat condition = true) : flatten condition = some condition := by
  induction condition using Condition.induct with
  | simple | correlated => rfl
  | junction isAnd conditions ih =>
    obtain ⟨hlength, harms⟩ := (isFlat_junction ..).mp h
    have hoperands : operands isAnd conditions = conditions := by
      rw [operands, flatMap_congr (fun c hc => armsOf_of_not (harms c hc).1)]
      exact flatMap_singleton' _
    have hflats : List.Forall₂ (fun c flat => flatten c = some flat) conditions conditions :=
      forall₂_same.mpr (fun c hc => ih c hc (harms c hc).2)
    rw [flatten_junction_operands, hoperands, flatMap_flatten hflats, collapse_of_length hlength]

/-- The operands of a tidy junction are flattened one by one. -/
theorem flatten_tidy_junction (h : TidyCondition display (junction isAnd conditions))
    (hflats : List.Forall₂ (fun c flat => flatten c = some flat) (operands isAnd conditions) flats) :
    flatten (junction isAnd conditions) = some (junction isAnd flats) := by
  rw [flatten_junction_operands, flatMap_flatten hflats, collapse_of_length]
  rw [← hflats.length_eq]
  exact h.length_operands

/-- Flattening a tidy condition leaves a flat one of the same type. -/
theorem flatten_tidy (h : TidyCondition display condition) :
    ∃ flat, flatten condition = some flat ∧ isFlat flat = true ∧
      ∀ isAnd, isJunction isAnd flat = isJunction isAnd condition := by
  induction condition using Condition.inductOperands with
  | leaf condition hleaf =>
    cases condition with
    | simple | correlatedSubquery => exact ⟨_, rfl, rfl, fun _ => rfl⟩
    | _ => simp [isLeaf] at hleaf
  | junction kind conditions _ ih =>
    obtain ⟨flats, hflats⟩ := exists_forall₂ (fun c hc => ih c hc (h.operand_spec hc).2)
    have hflatten := flatten_tidy_junction h (hflats.imp (fun _ _ hflat => hflat.1))
    refine ⟨_, hflatten, ?_, fun isAnd => by simp⟩
    rw [isFlat_junction, ← hflats.length_eq]
    refine ⟨h.length_operands, fun flat hflat => ?_⟩
    obtain ⟨c, hc, -, hown, hkind⟩ := forall₂_exists_left hflats hflat
    exact ⟨(hkind kind).trans (h.operand_spec hc).1, hown⟩

/-! ## Normal forms of tidy conditions -/

section NormalForm

variable (sorter : Sorter) (display : ℚ → String)

/-- What normalizing makes of a condition, unless nothing is left of it. -/
def normalFormOf (condition : Condition) : Option Condition :=
  (flatten condition).bind (normalizeWhere sorter display)

variable {sorter display} {condition normal : Condition} {conditions : List Condition}

theorem normalizedWhere_eq {flat : Condition} (h : flatten condition = some flat) :
    normalizedWhere sorter display (some condition) = (normalFormOf sorter display condition).map some := by
  simp only [normalizedWhere, normalFormOf, bind_some, h]

theorem normalFormOf_leaf (h : isLeaf condition = true) :
    normalFormOf sorter display condition = normalizeWhere sorter display condition := by
  cases condition with
  | simple | correlatedSubquery => rfl
  | _ => simp [isLeaf] at h

variable {leaf : Condition}

/-- Normalizing a leaf keeps what it is compared by. -/
theorem normalizeWhere_leaf (hleaf : isLeaf leaf = true) (h : normalizeWhere sorter display leaf = some normal) :
    isLeaf normal = true ∧ conditionKey display normal = conditionKey display leaf ∧
      ∀ op left right, normal = .simple op left right ↔ leaf = .simple op left right := by
  cases leaf with
  | simple =>
    rw [normalizeWhere_simple] at h
    cases h
    exact ⟨rfl, rfl, fun _ _ _ => Iff.rfl⟩
  | correlatedSubquery =>
    rw [normalizeWhere_correlated, map_eq_some_iff] at h
    obtain ⟨csq, hcsq, rfl⟩ := h
    obtain ⟨-, halias, -⟩ := normalizeSubquery_spec hcsq
    refine ⟨rfl, ?_, fun _ _ _ => by simp⟩
    simp only [conditionKey, correlatedKey, relatedAlias, halias]
  | _ => simp [isLeaf] at hleaf

theorem isLeaf_of_mem_leaves (h : leaf ∈ leaves condition) : isLeaf leaf = true := by
  induction condition using Condition.induct with
  | simple | correlated => exact mem_singleton.mp h ▸ rfl
  | junction isAnd conditions ih =>
    rw [leaves_junction] at h
    obtain ⟨c, hc, hleaf⟩ := mem_flatMap.mp h
    exact ih c hc hleaf

/-- The leaves of the normal form of a condition are the normal forms of its leaves. -/
theorem leaves_normalFormOf (h : normalFormOf sorter display condition = some normal) :
    ∃ mapped, List.Forall₂ (fun leaf leaf' => normalizeWhere sorter display leaf = some leaf') (leaves condition) mapped ∧
      mapped.Perm (leaves normal) := by
  obtain ⟨flat, hflat, hnormal⟩ := bind_eq_some_iff.mp h
  have hleaves := (leaves_flatten condition).1
  rw [hflat, toList_some, flatMap_singleton] at hleaves
  rw [← hleaves]
  exact leaves_normalizeWhere hnormal

theorem mem_leaves_normalFormOf (h : normalFormOf sorter display condition = some normal)
    (hleaf : leaf ∈ leaves normal) : ∃ own ∈ leaves condition, normalizeWhere sorter display own = some leaf := by
  obtain ⟨mapped, hmapped, hperm⟩ := leaves_normalFormOf h
  exact forall₂_exists_left hmapped (hperm.mem_iff.mpr hleaf)

/-- What every comparison of a condition has, every comparison of its normal form has. -/
theorem comparisons_normalFormOf {P : SimpleOperator → ValuePosition → ValuePosition → Prop}
    (hall : ∀ op left right, Condition.simple op left right ∈ leaves condition → P op left right)
    (h : normalFormOf sorter display condition = some normal) :
    ∀ op left right, Condition.simple op left right ∈ leaves normal → P op left right := by
  intro op left right hleaf
  obtain ⟨own, hown, hnormal⟩ := mem_leaves_normalFormOf h hleaf
  have heq := ((normalizeWhere_leaf (isLeaf_of_mem_leaves hown) hnormal).2.2 op left right).mp rfl
  exact hall op left right (heq ▸ hown)

theorem bound_normalFormOf (hbound : BoundCondition condition)
    (h : normalFormOf sorter display condition = some normal) : BoundCondition normal :=
  comparisons_normalFormOf hbound h

/-- The comparisons of a condition without subqueries stay what they are. -/
theorem leaves_subset_of_plain (hplain : Plain condition)
    (h : normalFormOf sorter display condition = some normal) : leaves normal ⊆ leaves condition := by
  intro leaf hleaf
  obtain ⟨own, hown, hnormal⟩ := mem_leaves_normalFormOf h hleaf
  obtain ⟨op, left, right, rfl⟩ := hplain own hown
  rw [normalizeWhere_simple] at hnormal
  exact some.inj hnormal ▸ hown

theorem mapM_congr_forall₂ {α β γ : Type} {f : α → Option γ} {g : β → Option γ} {l : List α} {l' : List β}
    (h : List.Forall₂ (fun a b => f a = g b) l l') : l.mapM f = l'.mapM g := by
  induction h with
  | nil => rfl
  | cons hhead _ ih => rw [mapM_cons, mapM_cons, hhead, ih]

variable {isAnd : Bool}

/-- The normal form of a tidy junction sorts the normal forms of its operands. -/
theorem normalFormOf_junction (h : TidyCondition display (junction isAnd conditions)) :
    normalFormOf sorter display (junction isAnd conditions) =
      ((operands isAnd conditions).mapM (normalFormOf sorter display)).bind
        (fun arms => (sorter.sortBy (cmpCondition display) arms).map (junction isAnd)) := by
  obtain ⟨flats, hflats⟩ := exists_forall₂ (fun c hc => flatten_tidy (h.operand_spec hc).2)
  have hflats := hflats.imp (fun _ _ hflat => hflat.1)
  have hmap : flats.mapM (normalizeWhere sorter display) = (operands isAnd conditions).mapM (normalFormOf sorter display) := by
    refine mapM_congr_forall₂ (hflats.flip.imp (fun flat c hflat => ?_))
    rw [normalFormOf, hflat, bind_some]
  rw [normalFormOf, flatten_tidy_junction h hflats, bind_some, normalizeWhere_junction, hmap]
  simp only [map_eq_bind]
  rfl

/-- The comparison orders the normal forms of the operands of a tidy junction and tells them apart. -/
theorem arms_compare {arms : List Condition} (h : TidyCondition display (junction isAnd conditions))
    (harms : List.Forall₂ (fun c arm => normalFormOf sorter display c = some arm) (operands isAnd conditions) arms) :
    ComparesBy (conditionKey display) (cmpCondition display) arms ∧
      ∀ a ∈ arms, ∀ b ∈ arms, conditionKey display a = conditionKey display b → a = b := by
  have hbound : ∀ arm ∈ arms, BoundCondition arm := by
    intro arm harm
    obtain ⟨c, hc, hnormal⟩ := forall₂_exists_left harms harm
    exact bound_normalFormOf (h.operand_spec hc).2.bound hnormal
  rcases h.ordered with hplain | hlevel
  · have hleaves : ∀ arm ∈ arms, leaves arm ⊆ leaves (junction isAnd conditions) := by
      intro arm harm
      obtain ⟨c, hc, hnormal⟩ := forall₂_exists_left harms harm
      have hown : Plain c := fun leaf hleaf => hplain leaf (leaves_subset_of_operand hc hleaf)
      exact fun leaf hleaf => leaves_subset_of_operand hc (leaves_subset_of_plain hown hnormal hleaf)
    have harm : ∀ arm ∈ arms, Plain arm := fun arm harm leaf hleaf => hplain leaf (hleaves arm harm hleaf)
    refine ⟨fun a ha b hb => ?_, fun a ha b hb hkey => ?_⟩
    · exact (comparesAs_plain (harm a ha) (harm b hb) (hbound a ha) (hbound b hb)).cmp_eq
    · refine (conditionKey_inj (harm a ha) (harm b hb) ?_ (s := []) (t := []) (by rw [hkey])).1
      exact fun x hx y hy => h.apart x (hleaves a ha hx) y (hleaves b hb hy)
  · rw [isLevel_junction] at hlevel
    have hleaf : ∀ arm ∈ arms, ∃ c ∈ leaves (junction isAnd conditions), normalizeWhere sorter display c = some arm ∧
        isLeaf arm = true ∧ conditionKey display arm = conditionKey display c := by
      intro arm harm
      obtain ⟨c, hc, hnormal⟩ := forall₂_exists_left harms harm
      have hown := hlevel c hc
      rw [normalFormOf_leaf hown] at hnormal
      obtain ⟨hisLeaf, hkey, -⟩ := normalizeWhere_leaf hown hnormal
      refine ⟨c, leaves_subset_of_operand hc ?_, hnormal, hisLeaf, hkey⟩
      cases c <;> simp_all [isLeaf, leaves]
    refine ⟨fun a ha b hb => ?_, fun a ha b hb hkey => ?_⟩
    · obtain ⟨-, -, -, hisLeaf, -⟩ := hleaf a ha
      obtain ⟨-, -, -, hisLeaf', -⟩ := hleaf b hb
      exact (comparesAs_leaf hisLeaf hisLeaf' (hbound a ha) (hbound b hb)).cmp_eq
    · obtain ⟨c, hc, hnormal, -, hown⟩ := hleaf a ha
      obtain ⟨c', hc', hnormal', -, hown'⟩ := hleaf b hb
      have heq := h.apart c hc c' hc' (hown ▸ hown' ▸ hkey)
      rw [heq, hnormal'] at hnormal
      exact (some.inj hnormal).symm

theorem normalizeSubquery_of {csq : CorrelatedSubquery} {normal : Ast}
    (h : normalizeAst sorter display csq.subquery = some normal) :
    normalizeSubquery sorter display csq = some (.mk csq.correlation normal csq.system csq.hidden) := by
  rw [normalizeSubquery_eq, h, map_some]

theorem hop_of_operand {c : Condition} (hc : c ∈ operands isAnd conditions)
    {hop : ExistsOp × Subquery Ast} (hhop : hop ∈ hopsOf c) : hop ∈ hopsOf (junction isAnd conditions) := by
  rw [hopsOf_eq] at hhop ⊢
  obtain ⟨leaf, hleaf, hhop⟩ := mem_flatMap.mp hhop
  exact mem_flatMap.mpr ⟨leaf, leaves_subset_of_operand hc hleaf, hhop⟩

/-- A tidy condition has a normal form if its subqueries have one, and that one is normalized to
itself if those of the subqueries are. -/
theorem normalFormOf_tidy (h : TidyCondition display condition)
    (hsubs : ∀ hop ∈ hopsOf condition, ∃ normal, normalizeAst sorter display hop.2.query = some normal ∧
      normalizeAst sorter display normal = some normal) :
    ∃ normal, normalFormOf sorter display condition = some normal ∧ isFlat normal = true ∧
      (∀ isAnd, isJunction isAnd normal = isJunction isAnd condition) ∧
      normalizeWhere sorter display normal = some normal := by
  induction condition using Condition.inductOperands with
  | leaf condition hleaf =>
    rw [normalFormOf_leaf hleaf]
    cases condition with
    | simple =>
      exact ⟨_, normalizeWhere_simple .., rfl, fun _ => rfl, normalizeWhere_simple ..⟩
    | correlatedSubquery related op flip scalar planId =>
      obtain ⟨normal, hnormal, hidem⟩ := hsubs (op, subOf related) (by rw [hopsOf_correlated]; exact mem_singleton_self _)
      refine ⟨.correlatedSubquery (.mk related.correlation normal related.system related.hidden) op flip scalar planId,
        ?_, rfl, fun _ => rfl, ?_⟩
      · rw [normalizeWhere_correlated, normalizeSubquery_of hnormal, map_some]
      · rw [normalizeWhere_correlated, normalizeSubquery_of hidem]
        rfl
    | _ => simp [isLeaf] at hleaf
  | junction isAnd conditions _ ih =>
    obtain ⟨arms, harms⟩ := exists_forall₂ (fun c hc => ih c hc (h.operand_spec hc).2
      (fun hop hhop => hsubs hop (hop_of_operand hc hhop)))
    have hforms := harms.imp (fun _ _ harm => harm.1)
    obtain ⟨hcompare, -⟩ := arms_compare h hforms
    obtain ⟨sorted, hsort, hperm, hsorted⟩ := hcompare.sortBy_eq sorter
    have harm : ∀ arm ∈ sorted, isJunction isAnd arm = false ∧ isFlat arm = true ∧
        normalizeWhere sorter display arm = some arm := by
      intro arm hmem
      obtain ⟨c, hc, -, hflat, hkind, hidem⟩ := forall₂_exists_left harms (hperm.mem_iff.mp hmem)
      exact ⟨(hkind isAnd).trans (h.operand_spec hc).1, hflat, hidem⟩
    refine ⟨junction isAnd sorted, ?_, ?_, fun _ => by simp, ?_⟩
    · rw [normalFormOf_junction h, mapM_eq_some_iff.mpr hforms, bind_some, hsort, map_some]
    · rw [isFlat_junction, hperm.length_eq, ← harms.length_eq]
      exact ⟨h.length_operands, fun arm hmem => ⟨(harm arm hmem).1, (harm arm hmem).2.1⟩⟩
    · have hmap : sorted.mapM (normalizeWhere sorter display) = some sorted :=
        mapM_eq_some_iff.mpr (forall₂_same.mpr (fun arm hmem => (harm arm hmem).2.2))
      have hstays := (hcompare.subset hperm.subset).sortBy_of_sorted sorter hsorted
      rw [normalizeWhere_junction, hmap]
      exact congrArg (fun sorted => sorted.bind (fun sorted => some (junction isAnd sorted))) hstays

end NormalForm

/-! ## Tidy queries -/

section Queries

variable (display : ℚ → String)

/-- The condition of a level is tidy. -/
def TidyLevel (ast : Ast) : Prop := ∀ condition ∈ ast.where_, TidyCondition display condition

variable {display} {sorter : Sorter}

theorem related_compare (related : List CorrelatedSubquery) :
    ComparesBy relatedAlias (fun a b => some (cmpRelated a b)) related := fun _ _ _ _ => rfl

/-- The condition of a tidy level is normalized, and its normal form to itself. -/
theorem normalizedWhere_tidy {where_ : Option Condition} (h : ∀ condition ∈ where_, TidyCondition display condition)
    (hsubs : ∀ condition ∈ where_, ∀ hop ∈ hopsOf condition, ∃ normal,
      normalizeAst sorter display hop.2.query = some normal ∧ normalizeAst sorter display normal = some normal) :
    ∃ normalized, normalizedWhere sorter display where_ = some normalized ∧
      normalizedWhere sorter display normalized = some normalized := by
  cases where_ with
  | none => exact ⟨none, rfl, rfl⟩
  | some condition =>
    obtain ⟨flat, hflat, -⟩ := flatten_tidy (h condition rfl)
    obtain ⟨normal, hnormal, hisFlat, -, hidem⟩ := normalFormOf_tidy (h condition rfl) (hsubs condition rfl)
    refine ⟨some normal, ?_, ?_⟩
    · rw [normalizedWhere_eq hflat, hnormal, map_some]
    · rw [normalizedWhere_eq (flatten_of_isFlat hisFlat), normalFormOf, flatten_of_isFlat hisFlat, bind_some, hidem,
        map_some]

/-- A tidy query has a normal form, which is normalized to itself. -/
theorem normalizeAst_tidy {ast : Ast} (h : Everywhere (TidyLevel display) ast) :
    ∃ normal, normalizeAst sorter display ast = some normal ∧ normalizeAst sorter display normal = some normal := by
  induction ast with
  | level ast ih =>
    obtain ⟨normalized, hwhere, hidem⟩ := normalizedWhere_tidy h.level
      (fun condition hcondition hop hhop =>
        ih hop.2 (hop_mem_subs hcondition hhop) (h.sub (hop_mem_subs hcondition hhop)))
    have hmember : ∀ csq ∈ ast.related, ∃ csq', normalizeSubquery sorter display csq = some csq' ∧
        normalizeSubquery sorter display csq' = some csq' := by
      intro csq hcsq
      obtain ⟨normal, hnormal, hidem⟩ := ih (subOf csq) (subOf_mem_subs hcsq) (h.sub (subOf_mem_subs hcsq))
      exact ⟨_, normalizeSubquery_of hnormal, normalizeSubquery_of hidem⟩
    obtain ⟨mapped, hmapped⟩ := exists_forall₂ hmember
    obtain ⟨sorted, hsort, hperm, hsorted⟩ := (related_compare mapped).sortBy_eq sorter
    have hstays : ∀ csq ∈ sorted, normalizeSubquery sorter display csq = some csq := by
      intro csq hcsq
      obtain ⟨-, -, -, hidem⟩ := forall₂_exists_left hmapped (hperm.mem_iff.mp hcsq)
      exact hidem
    refine ⟨.mk ast.schema ast.table ast.alias_ normalized sorted ast.start ast.limit ast.orderBy, ?_, ?_⟩
    · exact normalizeAst_of hwhere (hmapped.imp (fun _ _ hcsq => hcsq.1)) hsort
    · exact @normalizeAst_of sorter display (.mk ast.schema ast.table ast.alias_ normalized sorted ast.start ast.limit
        ast.orderBy) normalized sorted sorted hidem (forall₂_same.mpr hstays)
        (((related_compare mapped).subset hperm.subset).sortBy_of_sorted sorter hsorted)

end Queries

/-! ## Reordering and regrouping -/

mutual
/-- One reordering or regrouping of arms somewhere in a condition. -/
inductive Rearranged : Condition → Condition → Prop where
  | order (isAnd : Bool) (conditions conditions' : List Condition) (perm : conditions.Perm conditions') :
    Rearranged (junction isAnd conditions) (junction isAnd conditions')
  | group (isAnd : Bool) (before arms after : List Condition) :
    Rearranged (junction isAnd (before ++ junction isAnd arms :: after)) (junction isAnd (before ++ arms ++ after))
  | arm (isAnd : Bool) (before after : List Condition) (c c' : Condition) (step : Rearranged c c') :
    Rearranged (junction isAnd (before ++ c :: after)) (junction isAnd (before ++ c' :: after))
  | subquery (correlation : Correlation) (ast ast' : Ast) (system : Option System) (hidden : Option Bool) (op : ExistsOp)
    (flip scalar : Option Bool) (planId : Option ℤ) (step : RearrangedAst ast ast') :
    Rearranged (.correlatedSubquery (.mk correlation ast system hidden) op flip scalar planId)
      (.correlatedSubquery (.mk correlation ast' system hidden) op flip scalar planId)

/-- One reordering or regrouping of arms somewhere in a query. -/
inductive RearrangedAst : Ast → Ast → Prop where
  | condition (schema : Option String) (table : String) (alias_ : Option String) (c c' : Condition)
    (related : List CorrelatedSubquery) (start : Option Bound) (limit : Option ℚ) (orderBy : Option QueryOrdering)
    (step : Rearranged c c') :
    RearrangedAst (.mk schema table alias_ (some c) related start limit orderBy)
      (.mk schema table alias_ (some c') related start limit orderBy)
  | related (schema : Option String) (table : String) (alias_ : Option String) (where_ : Option Condition)
    (before after : List CorrelatedSubquery) (correlation : Correlation) (ast ast' : Ast) (system : Option System)
    (hidden : Option Bool) (start : Option Bound) (limit : Option ℚ) (orderBy : Option QueryOrdering)
    (step : RearrangedAst ast ast') :
    RearrangedAst
      (.mk schema table alias_ where_ (before ++ .mk correlation ast system hidden :: after) start limit orderBy)
      (.mk schema table alias_ where_ (before ++ .mk correlation ast' system hidden :: after) start limit orderBy)
end

section Rearranging

variable {sorter : Sorter} {display : ℚ → String} {condition : Condition}

/-- Two lists have the same normal forms, in some order. -/
def Alike (sorter : Sorter) (display : ℚ → String) (a b : List Condition) : Prop :=
  ∃ m, a.Perm m ∧ List.Forall₂ (fun c c' => normalFormOf sorter display c = normalFormOf sorter display c') m b

theorem alike_refl (a : List Condition) : Alike sorter display a a := ⟨a, .refl a, forall₂_same.mpr (fun _ _ => rfl)⟩

theorem Alike.append {a b c d : List Condition} (hab : Alike sorter display a b) (hcd : Alike sorter display c d) :
    Alike sorter display (a ++ c) (b ++ d) := by
  obtain ⟨m, hperm, hm⟩ := hab
  obtain ⟨n, hperm', hn⟩ := hcd
  exact ⟨m ++ n, hperm.append hperm', rel_append hm hn⟩

variable {conditions : List Condition} {isAnd : Bool} {conditions' : List Condition} {c : Condition} {ast : Ast}

/-- Tidy junctions over alike operands have the same normal form. -/
theorem normalFormOf_alike
    (h : TidyCondition display (junction isAnd conditions)) (h' : TidyCondition display (junction isAnd conditions'))
    (halike : Alike sorter display (operands isAnd conditions) (operands isAnd conditions'))
    (hreturns : ∀ c ∈ operands isAnd conditions, ∃ normal, normalFormOf sorter display c = some normal) :
    normalFormOf sorter display (junction isAnd conditions) = normalFormOf sorter display (junction isAnd conditions') := by
  obtain ⟨m, hperm, hm⟩ := halike
  obtain ⟨arms, harms⟩ := exists_forall₂ hreturns
  obtain ⟨arms', harms', hperm'⟩ := perm_comp_forall₂ hperm.symm harms
  have hforms : List.Forall₂ (fun c arm => normalFormOf sorter display c = some arm) (operands isAnd conditions') arms' :=
    forall₂_trans_of_mem hm.flip harms' (fun _ _ _ _ heq harm => heq ▸ harm)
  obtain ⟨hcompare, hapart⟩ := arms_compare h harms
  rw [normalFormOf_junction h, normalFormOf_junction h', mapM_eq_some_iff.mpr harms, mapM_eq_some_iff.mpr hforms,
    bind_some, bind_some, hcompare.sortBy_perm sorter hperm'.symm hapart]

/-- A tidy condition over tidy subqueries. -/
structure TidyAll (display : ℚ → String) (condition : Condition) : Prop where
  tidy : TidyCondition display condition
  subs : ∀ hop ∈ hopsOf condition, Everywhere (TidyLevel display) hop.2.query

theorem TidyAll.operand (h : TidyAll display (junction isAnd conditions))
    (hc : c ∈ operands isAnd conditions) : TidyAll display c :=
  ⟨(h.tidy.operand_spec hc).2, fun hop hhop => h.subs hop (hop_of_operand hc hhop)⟩

theorem TidyAll.returns (h : TidyAll display condition) : ∃ normal, normalFormOf sorter display condition = some normal := by
  obtain ⟨normal, hnormal, -⟩ := normalFormOf_tidy h.tidy (fun hop hhop => normalizeAst_tidy (h.subs hop hhop))
  exact ⟨normal, hnormal⟩

/-- What rearranging does to a condition: it keeps the type and the normal form, and the normal forms
of the arms if no arm is a junction of the type. -/
structure Rearranges (sorter : Sorter) (display : ℚ → String) (c c' : Condition) : Prop where
  kind : ∀ isAnd, isJunction isAnd c = isJunction isAnd c'
  form : TidyAll display c → TidyAll display c' → normalFormOf sorter display c = normalFormOf sorter display c'
  arms : ∀ isAnd, (∀ a ∈ armsOf isAnd c, isJunction isAnd a = false ∧ TidyAll display a) →
    (∀ a ∈ armsOf isAnd c', isJunction isAnd a = false ∧ TidyAll display a) →
    Alike sorter display (armsOf isAnd c) (armsOf isAnd c')

variable {c' : Condition}

theorem alike_of_form (hkind : isJunction isAnd c = isJunction isAnd c') (hnot : isJunction isAnd c = false)
    (hform : TidyAll display c → TidyAll display c' → normalFormOf sorter display c = normalFormOf sorter display c')
    (hc : ∀ a ∈ armsOf isAnd c, isJunction isAnd a = false ∧ TidyAll display a)
    (hc' : ∀ a ∈ armsOf isAnd c', isJunction isAnd a = false ∧ TidyAll display a) :
    Alike sorter display (armsOf isAnd c) (armsOf isAnd c') := by
  rw [armsOf_of_not hnot] at hc ⊢
  rw [armsOf_of_not (hkind ▸ hnot)] at hc' ⊢
  exact ⟨_, .refl _, .cons (hform (hc c mem_cons_self).2 (hc' c' mem_cons_self).2) .nil⟩

theorem rearranges_leaf (hc : isLeaf c = true) (hc' : isLeaf c' = true)
    (hform : TidyAll display c → TidyAll display c' → normalFormOf sorter display c = normalFormOf sorter display c') :
    Rearranges sorter display c c' := by
  have hkind : ∀ isAnd, isJunction isAnd c = isJunction isAnd c' :=
    fun isAnd => (not_isJunction_of_leaf hc isAnd).trans (not_isJunction_of_leaf hc' isAnd).symm
  exact ⟨hkind, hform, fun isAnd => alike_of_form (hkind isAnd) (not_isJunction_of_leaf hc isAnd) hform⟩

/-- Junctions over alike operands are rearranged, if their arms are alike. -/
theorem rearranges_junction
    (hoperands : TidyAll display (junction isAnd conditions) → TidyAll display (junction isAnd conditions') →
      Alike sorter display (operands isAnd conditions) (operands isAnd conditions'))
    (harms : (∀ a ∈ conditions, isJunction isAnd a = false ∧ TidyAll display a) →
      (∀ a ∈ conditions', isJunction isAnd a = false ∧ TidyAll display a) → Alike sorter display conditions conditions') :
    Rearranges sorter display (junction isAnd conditions) (junction isAnd conditions') := by
  have hform := fun (h : TidyAll display (junction isAnd conditions)) (h' : TidyAll display (junction isAnd conditions')) =>
    normalFormOf_alike h.tidy h'.tidy (hoperands h h') (fun c hc => (h.operand hc).returns)
  refine ⟨fun _ => by simp, hform, fun kind hc hc' => ?_⟩
  by_cases heq : kind = isAnd
  · rw [armsOf_junction, if_pos heq] at hc hc'
    rw [armsOf_junction, armsOf_junction, if_pos heq, if_pos heq]
    subst heq
    exact harms hc hc'
  · exact alike_of_form (by simp) (by simpa using heq) hform hc hc'

theorem rearranges_group (isAnd : Bool) (before arms after : List Condition) :
    Rearranges sorter display (junction isAnd (before ++ junction isAnd arms :: after))
      (junction isAnd (before ++ arms ++ after)) := by
  refine rearranges_junction (fun h _ => ?_) (fun hc _ => ?_)
  · have hoperands : operands isAnd (before ++ junction isAnd arms :: after) =
        operands isAnd before ++ arms ++ operands isAnd after := by
      simp [operands, armsOf_junction]
    have harms : operands isAnd arms = arms := by
      refine (flatMap_congr (fun arm harm => armsOf_of_not ?_)).trans (flatMap_singleton' arms)
      refine (h.tidy.operand_spec ?_).1
      rw [hoperands]
      exact mem_append_left _ (mem_append_right _ harm)
    rw [hoperands]
    have hsplit : operands isAnd (before ++ arms ++ after) = operands isAnd before ++ operands isAnd arms ++ operands isAnd after := by
      simp [operands]
    rw [hsplit, harms]
    exact alike_refl _
  · -- an arm of the same type is not allowed here
    have hnot := (hc (junction isAnd arms) (by simp)).1
    simp at hnot

theorem rearranges_arm (before after : List Condition) (h : Rearranges sorter display c c') :
    Rearranges sorter display (junction isAnd (before ++ c :: after)) (junction isAnd (before ++ c' :: after)) := by
  refine rearranges_junction (fun htidy htidy' => ?_) (fun hc hc' => ?_)
  · have hsplit : ∀ d, operands isAnd (before ++ d :: after) = operands isAnd before ++ (armsOf isAnd d ++ operands isAnd after) := by
      simp [operands]
    have hmem : ∀ {d a}, a ∈ armsOf isAnd d → a ∈ operands isAnd (before ++ d :: after) := by
      intro d a ha
      rw [hsplit]
      exact mem_append_right _ (mem_append_left _ ha)
    rw [hsplit, hsplit]
    refine (alike_refl _).append ((h.arms isAnd ?_ ?_).append (alike_refl _))
    · exact fun a ha => ⟨(htidy.tidy.operand_spec (hmem ha)).1, htidy.operand (hmem ha)⟩
    · exact fun a ha => ⟨(htidy'.tidy.operand_spec (hmem ha)).1, htidy'.operand (hmem ha)⟩
  · have hform := h.form (hc c (by simp)).2 (hc' c' (by simp)).2
    exact (alike_refl before).append ⟨_, .refl _, .cons hform (forall₂_same.mpr (fun _ _ => rfl))⟩

variable {ast' : Ast}

theorem rearranges_subquery {correlation : Correlation} {system : Option System} {hidden : Option Bool}
    {op : ExistsOp} {flip scalar : Option Bool} {planId : Option ℤ}
    (h : Everywhere (TidyLevel display) ast → Everywhere (TidyLevel display) ast' →
      normalizeAst sorter display ast = normalizeAst sorter display ast') :
    Rearranges sorter display (.correlatedSubquery (.mk correlation ast system hidden) op flip scalar planId)
      (.correlatedSubquery (.mk correlation ast' system hidden) op flip scalar planId) := by
  refine rearranges_leaf rfl rfl (fun htidy htidy' => ?_)
  have heq := h (htidy.subs _ mem_cons_self) (htidy'.subs _ mem_cons_self)
  rw [normalFormOf_leaf rfl, normalFormOf_leaf rfl, normalizeWhere_correlated, normalizeWhere_correlated,
    normalizeSubquery_eq, normalizeSubquery_eq]
  simp only [CorrelatedSubquery.subquery, CorrelatedSubquery.correlation, CorrelatedSubquery.system,
    CorrelatedSubquery.hidden, heq]

theorem tidyAll_of_level (h : Everywhere (TidyLevel display) ast) (hc : c ∈ ast.where_) : TidyAll display c :=
  ⟨h.level c hc, fun _ hhop => h.sub (hop_mem_subs hc hhop)⟩

/-- Rearranging a tidy query to a tidy one keeps its normal form. -/
theorem normalizeAst_rearranged (hstep : RearrangedAst ast ast')
    (h : Everywhere (TidyLevel display) ast) (h' : Everywhere (TidyLevel display) ast') :
    normalizeAst sorter display ast = normalizeAst sorter display ast' := by
  revert h h'
  refine @RearrangedAst.rec (fun c c' _ => Rearranges sorter display c c')
    (fun a b _ => Everywhere (TidyLevel display) a → Everywhere (TidyLevel display) b →
      normalizeAst sorter display a = normalizeAst sorter display b)
    ?order ?group ?arm ?subquery ?condition ?related ast ast' hstep
  case order =>
    intro isAnd conditions conditions' hperm
    refine rearranges_junction (fun _ _ => ?_) (fun _ _ => ?_)
    · exact ⟨_, hperm.flatMap_right _, forall₂_same.mpr (fun _ _ => rfl)⟩
    · exact ⟨_, hperm, forall₂_same.mpr (fun _ _ => rfl)⟩
  case group => exact fun isAnd before arms after => rearranges_group isAnd before arms after
  case arm => exact fun isAnd before after c c' _ ih => rearranges_arm before after ih
  case subquery => exact fun correlation a b system hidden op flip scalar planId _ ih => rearranges_subquery ih
  case condition =>
    intro schema table alias_ c c' related start limit orderBy _ ih h h'
    have hform := ih.form (tidyAll_of_level h rfl) (tidyAll_of_level h' rfl)
    obtain ⟨flat, hflat, -⟩ := flatten_tidy (tidyAll_of_level h rfl).tidy
    obtain ⟨flat', hflat', -⟩ := flatten_tidy (tidyAll_of_level h' rfl).tidy
    rw [normalizeAst_eq, normalizeAst_eq]
    simp only [Ast.where_, Ast.related, Ast.schema, Ast.table, Ast.alias_, Ast.start, Ast.limit, Ast.orderBy,
      normalizedWhere_eq hflat, normalizedWhere_eq hflat', hform]
  case related =>
    intro schema table alias_ where_ before after correlation a b system hidden start limit orderBy _ ih h h'
    have hquery : normalizeAst sorter display a = normalizeAst sorter display b :=
      ih (everywhere_related h (mem_append_right _ mem_cons_self))
        (everywhere_related h' (mem_append_right _ mem_cons_self))
    have hcsq : normalizeSubquery sorter display (.mk correlation a system hidden) =
        normalizeSubquery sorter display (.mk correlation b system hidden) := by
      rw [normalizeSubquery_eq, normalizeSubquery_eq]
      exact congrArg (Option.map _) hquery
    rw [normalizeAst_eq, normalizeAst_eq]
    simp only [Ast.where_, Ast.related, Ast.schema, Ast.table, Ast.alias_, Ast.start, Ast.limit, Ast.orderBy,
      mapM_append, mapM_cons, hcsq]

/-- Any number of reorderings and regroupings, each of them to a tidy query. -/
def Rearrangements (display : ℚ → String) : Ast → Ast → Prop :=
  Relation.ReflTransGen (fun a b => Everywhere (TidyLevel display) b ∧ (RearrangedAst a b ∨ RearrangedAst b a))

theorem normalizeAst_rearrangements {other : Ast} (h : Everywhere (TidyLevel display) ast)
    (hsteps : Rearrangements display ast other) : Everywhere (TidyLevel display) other ∧
      normalizeAst sorter display other = normalizeAst sorter display ast := by
  induction hsteps with
  | refl => exact ⟨h, rfl⟩
  | tail _ hstep ih =>
    obtain ⟨htidy, heq⟩ := ih
    refine ⟨hstep.1, heq ▸ ?_⟩
    rcases hstep.2 with hstep' | hstep'
    · exact (normalizeAst_rearranged hstep' htidy hstep.1).symm
    · exact normalizeAst_rearranged hstep' hstep.1 htidy

end Rearranging

/-! ## Bound normal forms -/

section Bound

variable {sorter : Sorter} {display : ℚ → String} {normal : Condition}

theorem hop_normalizeWhere_leaf {leaf : Condition} (hleaf : isLeaf leaf = true)
    (h : normalizeWhere sorter display leaf = some normal) {hop' : ExistsOp × Subquery Ast}
    (hhop : hop' ∈ hopsOf normal) :
    ∃ hop ∈ hopsOf leaf, normalizeAst sorter display hop.2.query = some hop'.2.query := by
  cases leaf with
  | simple =>
    rw [normalizeWhere_simple] at h
    cases h
    cases hhop
  | correlatedSubquery related op =>
    rw [normalizeWhere_correlated, map_eq_some_iff] at h
    obtain ⟨csq, hcsq, rfl⟩ := h
    rw [hopsOf_correlated, mem_singleton] at hhop
    subst hhop
    refine ⟨(op, subOf related), ?_, (normalizeSubquery_spec hcsq).2.2⟩
    rw [hopsOf_correlated]
    exact mem_singleton_self _
  | _ => simp [isLeaf] at hleaf

/-- A condition in a normal form is the normal form of a condition. -/
theorem normalFormOf_of_normalizedWhere {where_ : Option Condition}
    (h : normalizedWhere sorter display where_ = some (some normal)) :
    ∃ condition, where_ = some condition ∧ normalFormOf sorter display condition = some normal := by
  cases where_ with
  | none => cases h
  | some condition =>
    cases hflat : flatten condition with
    | none =>
      rw [normalizedWhere, bind_some, hflat] at h
      cases h
    | some =>
      rw [normalizedWhere_eq hflat] at h
      obtain ⟨own, hown, heq⟩ := map_eq_some_iff.mp h
      exact ⟨condition, rfl, some.inj heq ▸ hown⟩

variable {normal : Ast} {ast : Ast}

/-- The subqueries of a normal form are normal forms of the subqueries. -/
theorem subs_normalizeAst (h : normalizeAst sorter display ast = some normal) :
    ∀ sub' ∈ (queryOf normal).subs, ∃ sub ∈ (queryOf ast).subs,
      normalizeAst sorter display sub.query = some sub'.query := by
  obtain ⟨normalized, mapped, sorted, hwhere, hmapped, hsorted, rfl⟩ := normalizeAst_spec h
  intro sub' hsub'
  rcases mem_append.mp hsub' with hrelated | hexist
  · obtain ⟨csq', hcsq', rfl⟩ := mem_map.mp hrelated
    obtain ⟨csq, hcsq, hnormal⟩ := forall₂_exists_left hmapped ((sorter.perm hsorted).mem_iff.mp hcsq')
    exact ⟨subOf csq, subOf_mem_subs hcsq, (normalizeSubquery_spec hnormal).2.2⟩
  · obtain ⟨hop', hhop', rfl⟩ := mem_map.mp hexist
    cases normalized with
    | none => cases hhop'
    | some normal =>
      obtain ⟨condition, hcondition, hform⟩ := normalFormOf_of_normalizedWhere hwhere
      have hhop : hop' ∈ hopsOf normal := hhop'
      rw [hopsOf_eq] at hhop
      obtain ⟨leaf', hleaf', hhop⟩ := mem_flatMap.mp hhop
      obtain ⟨leaf, hleaf, hnormal⟩ := mem_leaves_normalFormOf hform hleaf'
      obtain ⟨hop, hmem, hquery⟩ := hop_normalizeWhere_leaf (isLeaf_of_mem_leaves hleaf) hnormal hhop
      refine ⟨hop.2, hop_mem_subs hcondition ?_, hquery⟩
      rw [hopsOf_eq]
      exact mem_flatMap.mpr ⟨leaf, hleaf, hmem⟩

/-- What every comparison of a query has, every comparison of its normal form has. -/
theorem comparisons_normalizeAst {P : SimpleOperator → ValuePosition → ValuePosition → Prop}
    (hall : Everywhere (fun ast => ∀ condition ∈ ast.where_, ∀ op left right,
      Condition.simple op left right ∈ leaves condition → P op left right) ast)
    (h : normalizeAst sorter display ast = some normal) :
    Everywhere (fun ast => ∀ condition ∈ ast.where_, ∀ op left right,
      Condition.simple op left right ∈ leaves condition → P op left right) normal := by
  induction ast generalizing normal with
  | level ast ih =>
    refine .intro _ (fun own hown => ?_) (fun sub' hsub' => ?_)
    · obtain ⟨normalized, mapped, sorted, hwhere, -, -, rfl⟩ := normalizeAst_spec h
      obtain rfl : normalized = some own := hown
      obtain ⟨condition, hcondition, hform⟩ := normalFormOf_of_normalizedWhere hwhere
      exact comparisons_normalFormOf (hall.level condition hcondition) hform
    · obtain ⟨sub, hsub, hnormal⟩ := subs_normalizeAst h sub' hsub'
      exact ih sub hsub (hall.sub hsub) hnormal

/-- No parameter comes into a normal form. -/
theorem bound_normalizeAst (hbound : Everywhere BoundLevel ast)
    (h : normalizeAst sorter display ast = some normal) : Everywhere BoundLevel normal :=
  comparisons_normalizeAst hbound h

end Bound

/-- A condition whose junctions have arms has no empty junction. -/
theorem not_hollow_of_wide (h : wide condition = true) : hollow condition = false := by
  induction condition using Condition.induct with
  | simple | correlated => rfl
  | junction isAnd conditions ih =>
    rw [wide_junction] at h
    rw [hollow_junction, List.all_eq_false]
    cases conditions with
    | nil => simp at h
    | cons c => exact ⟨c, mem_cons_self, by simp [ih c mem_cons_self (h.2 c mem_cons_self)]⟩

theorem neutral_of_wide (h : wide condition = true) :
    neutral condition = true ∧ ∀ isAnd, fits isAnd condition = true := by
  induction condition using Condition.induct with
  | simple | correlated => exact ⟨rfl, fun _ => rfl⟩
  | junction kind conditions ih =>
    have hhollow := not_hollow_of_wide h
    rw [hollow_junction] at hhollow
    rw [wide_junction] at h
    refine ⟨?_, fun isAnd => ?_⟩
    · rw [neutral_junction, List.all_eq_true]
      intro c hc
      obtain ⟨hneutral, hfits⟩ := ih c hc (h.2 c hc)
      rw [hneutral, hfits kind]
      rfl
    · rw [fits_junction, hhollow]
      simp

/-- The issues that satisfy a condition. -/
def issuesWhere (condition : Condition) : Ast := .mk none "issue" none (some condition) [] none none none

/-- A column holds a text. -/
def holdsText (column text : String) : Condition := .simple .eq (.column column) (.literal (.string text))

/-- One issue. -/
def oneIssue : Source := Source.ofTables (fun _ => [[("id", .string "i")]])

theorem everywhere_issuesWhere {P : Ast → Prop} (h : P (issuesWhere condition))
    (hhops : hopsOf condition = []) : Everywhere P (issuesWhere condition) := by
  refine .intro _ h (fun sub hsub => ?_)
  have hsubs : (queryOf (issuesWhere condition)).subs = (hopsOf condition).map Prod.snd := rfl
  rw [hsubs, hhops] at hsub
  cases hsub

theorem tidyLevel_texts (first second : String) (h : first ≠ second) :
    TidyLevel (fun _ => "") (issuesWhere (.and [holdsText first "x", holdsText second "x"])) := by
  intro condition hcondition
  obtain rfl : Condition.and [holdsText first "x", holdsText second "x"] = condition := some.inj hcondition
  have hleaves : leaves (.and [holdsText first "x", holdsText second "x"]) =
      [holdsText first "x", holdsText second "x"] := rfl
  refine ⟨rfl, rfl, ?_, ?_, .inr rfl⟩
  · intro op left right hleaf
    rw [hleaves, mem_cons, mem_singleton] at hleaf
    rcases hleaf with heq | heq
    · cases heq
      exact ⟨rfl, rfl⟩
    · cases heq
      exact ⟨rfl, rfl⟩
  · intro a ha b hb hkey
    rw [hleaves, mem_cons, mem_singleton] at ha hb
    rcases ha with rfl | rfl <;> rcases hb with rfl | rfl
    · rfl
    · simp [holdsText, conditionKey, simpleKey, positionText, h] at hkey
    · simp [holdsText, conditionKey, simpleKey, positionText, Ne.symm h] at hkey
    · rfl

-- a third nested conjunction is left where it stands, and merged when the result is normalized again
example : flatten (.and [.and [.and [holdsText "a" "x", holdsText "b" "x"], holdsText "c" "x"], holdsText "d" "x"]) =
    some (.and [.and [holdsText "a" "x", holdsText "b" "x"], holdsText "c" "x", holdsText "d" "x"]) := rfl

end ZeroCache.Protocol
