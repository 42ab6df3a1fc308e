import ZeroCache.Zql.Query
import ZeroCache.Lib.Result
import ZeroCache.Lib.Sorting
import Mathlib.Algebra.Order.Ring.Rat

/-!
# Normal forms of queries

`normalize_ast` (`zero-cache-protocol/src/ast.rs`) flattens and sorts the conditions of a query and
sorts its related subqueries; the text of the result is what `hash_of_ast` hashes. Comparing two
conditions panics on a parameter, so comparing and normalizing are optional here: `none` is a panic.
How a double that is not a small integer is displayed is a parameter of the comparison.
-/

namespace ZeroCache

open List Option

/-- The wire text of an operator. -/
def SimpleOperator.asStr : SimpleOperator → String
  | .eq => "="
  | .ne => "!="
  | .is => "IS"
  | .isNot => "IS NOT"
  | .lt => "<"
  | .gt => ">"
  | .le => "<="
  | .ge => ">="
  | .like => "LIKE"
  | .notLike => "NOT LIKE"
  | .iLike => "ILIKE"
  | .notILike => "NOT ILIKE"
  | .inList => "IN"
  | .notInList => "NOT IN"

/-- The wire text of an existence operator. -/
def ExistsOp.asStr : ExistsOp → String
  | .exist => "EXISTS"
  | .notExist => "NOT EXISTS"

namespace Protocol

open Lib

/-! ## Comparing conditions -/

/-- The text of a number as JavaScript prints it. -/
def numberToString (display : ℚ → String) (n : ℚ) : String :=
  if n.den = 1 ∧ n.num.natAbs < 10 ^ 21 then toString n.num else display n

mutual
/-- Renders a literal for comparison (`literal_to_string`). -/
def literalToString (display : ℚ → String) : LiteralValue → String
  | .string s => s
  | .bool b => if b then "true" else "false"
  | .null => "null"
  | .number n => numberToString display n
  | .array items => ",".intercalate (literalsToStrings display items)

/-- Renders literals. -/
def literalsToStrings (display : ℚ → String) : List LiteralValue → List String
  | [] => []
  | item :: rest => literalToString display item :: literalsToStrings display rest
end

/-- The kind of a side of a comparison. -/
def typeStr : ValuePosition → String
  | .column _ => "column"
  | .literal _ => "literal"
  | .parameter _ => "static"

/-- Compare two sides; two parameters cannot be compared (`cmp_value_position`). -/
def cmpValuePosition (display : ℚ → String) (a b : ValuePosition) : Option Ordering :=
  if typeStr a ≠ typeStr b then some (compare (typeStr a) (typeStr b))
  else match a, b with
    | .literal av, .literal bv => some (compare (literalToString display av) (literalToString display bv))
    | .column ac, .column bc => some (compare ac bc)
    | _, _ => none

/-- An absent flag comes first, then `false`. -/
def optionalBoolToNum : Option Bool → ℕ
  | none => 0
  | some false => 1
  | some true => 2

/-- Compare two optional flags (`cmp_optional_bool`). -/
def cmpOptionalBool (a b : Option Bool) : Ordering := compare (optionalBoolToNum a) (optionalBoolToNum b)

/-- The alias a subquery is sorted by. -/
def relatedAlias (csq : CorrelatedSubquery) : String := csq.subquery.alias_.getD ""

/-- Compare two subqueries by alias (`cmp_related`). -/
def cmpRelated (a b : CorrelatedSubquery) : Ordering := compare (relatedAlias a) (relatedAlias b)

/-- Compare two comparisons: by the left side, the operator and the right side. -/
def cmpSimple (display : ℚ → String) (ao bo : SimpleOperator) (al ar bl br : ValuePosition) : Option Ordering := do
  match ← cmpValuePosition display al bl with
  | .eq =>
    match compare ao.asStr bo.asStr with
    | .eq => cmpValuePosition display ar br
    | o => return o
  | o => return o

mutual
/-- Compare two conditions: comparisons first, then subqueries. A subquery is before a junction and a
junction before a subquery (`cmp_condition`). -/
def cmpCondition (display : ℚ → String) : Condition → Condition → Option Ordering
  | .simple ao al ar, .simple bo bl br => cmpSimple display ao bo al ar bl br
  | .simple _ _ _, _ => some .lt
  | _, .simple _ _ _ => some .gt
  | .correlatedSubquery ar ao af asc _, .correlatedSubquery br bo bf bsc _ =>
    some ((cmpRelated ar br).then ((compare ao.asStr bo.asStr).then
      ((cmpOptionalBool af bf).then (cmpOptionalBool asc bsc))))
  | .correlatedSubquery _ _ _ _ _, _ => some .lt
  | _, .correlatedSubquery _ _ _ _ _ => some .lt
  | .and as, .and bs => cmpConditions display as bs
  | .or as, .or bs => cmpConditions display as bs
  | .and _, .or _ => some .lt
  | .or _, .and _ => some .gt

/-- Compare two lists of conditions, the shorter one first if it begins the longer one. -/
def cmpConditions (display : ℚ → String) : List Condition → List Condition → Option Ordering
  | [], [] => some .eq
  | [], _ :: _ => some .lt
  | _ :: _, [] => some .gt
  | a :: as, b :: bs => do
    match ← cmpCondition display a b with
    | .eq => cmpConditions display as bs
    | o => return o
end

/-! ## Flattening -/

/-- A conjunction or a disjunction. -/
def junction (isAnd : Bool) (conditions : List Condition) : Condition :=
  if isAnd then .and conditions else .or conditions

/-- Nothing is left of no conditions, and a single one stands for itself. -/
def collapse (isAnd : Bool) : List Condition → Option Condition
  | [] => none
  | [condition] => some condition
  | flat => some (junction isAnd flat)

mutual
/-- Flattens nested junctions of one type, drops empty ones and collapses singletons (`flatten`). -/
def flatten : Condition → Option Condition
  | .simple op left right => some (.simple op left right)
  | .correlatedSubquery related op flip scalar planId =>
    some (.correlatedSubquery related op flip scalar planId)
  | .and conditions => collapse true (flattenArms true conditions)
  | .or conditions => collapse false (flattenArms false conditions)

/-- The flattened arms of a junction, with the arms of those of its own type in their place. -/
def flattenArms (isAnd : Bool) : List Condition → List Condition
  | [] => []
  | condition :: rest =>
    (match isAnd, condition with
      | true, .and inner => flattenEach inner
      | false, .or inner => flattenEach inner
      | _, condition => (flatten condition).toList) ++ flattenArms isAnd rest

/-- The conditions flattened one by one. -/
def flattenEach : List Condition → List Condition
  | [] => []
  | condition :: rest => (flatten condition).toList ++ flattenEach rest
end

/-- What an arm adds to the flattened arms of a junction. -/
def armOf (isAnd : Bool) (condition : Condition) : List Condition :=
  match isAnd, condition with
  | true, .and inner => inner.flatMap (fun arm => (flatten arm).toList)
  | false, .or inner => inner.flatMap (fun arm => (flatten arm).toList)
  | _, condition => (flatten condition).toList

variable (conditions : List Condition)

theorem flattenEach_eq : flattenEach conditions = conditions.flatMap (fun arm => (flatten arm).toList) := by
  induction conditions with
  | nil => rfl
  | cons condition rest ih => rw [flattenEach, ih, flatMap_cons]

variable (isAnd : Bool)

theorem flattenArms_eq : flattenArms isAnd conditions = conditions.flatMap (armOf isAnd) := by
  induction conditions with
  | nil => rfl
  | cons condition rest ih =>
    rw [flatMap_cons, ← ih]
    cases isAnd <;> cases condition <;> simp [flattenArms, armOf, flattenEach_eq]

theorem flatten_junction :
    flatten (junction isAnd conditions) = collapse isAnd (conditions.flatMap (armOf isAnd)) := by
  cases isAnd with
  | true => rw [junction, if_pos rfl, flatten, flattenArms_eq]
  | false => rw [junction, if_neg (by decide), flatten, flattenArms_eq]

theorem armOf_junction (isAnd kind : Bool) (conditions : List Condition) :
    armOf isAnd (junction kind conditions) = if isAnd = kind then conditions.flatMap (fun arm => (flatten arm).toList)
      else (flatten (junction kind conditions)).toList := by
  cases isAnd <;> cases kind <;> rfl

/-- Induction over conditions: leaves, and junctions whose arms are known. -/
@[elab_as_elim]
theorem Condition.induct {P : Condition → Prop} (simple : ∀ op left right, P (.simple op left right))
    (correlated : ∀ related op flip scalar planId, P (.correlatedSubquery related op flip scalar planId))
    (junction : ∀ isAnd conditions, (∀ c ∈ conditions, P c) → P (junction isAnd conditions))
    (condition : Condition) : P condition :=
  Zql.conditionInduct simple (fun cs ih => junction true cs ih) (fun cs ih => junction false cs ih)
    (fun related op flip scalar planId _ => correlated related op flip scalar planId) condition

mutual
/-- The comparisons and subqueries of a condition, from left to right. -/
def leaves : Condition → List Condition
  | .simple op left right => [.simple op left right]
  | .and conditions => allLeaves conditions
  | .or conditions => allLeaves conditions
  | .correlatedSubquery related op flip scalar planId => [.correlatedSubquery related op flip scalar planId]

/-- The comparisons and subqueries of conditions. -/
def allLeaves : List Condition → List Condition
  | [] => []
  | condition :: rest => leaves condition ++ allLeaves rest
end

theorem allLeaves_eq : allLeaves conditions = conditions.flatMap leaves := by
  induction conditions with
  | nil => rfl
  | cons condition rest ih => rw [allLeaves, ih, flatMap_cons]

theorem leaves_junction : leaves (junction isAnd conditions) = conditions.flatMap leaves := by
  cases isAnd <;> simp [junction, leaves, allLeaves_eq]

theorem leaves_collapse (flat : List Condition) :
    (collapse isAnd flat).toList.flatMap leaves = flat.flatMap leaves := by
  match flat with
  | [] | [c] => rfl
  | c :: d :: rest => simp [collapse, leaves_junction]

variable (condition : Condition)

/-- Flattening keeps the leaves of a condition in place, and so do the arms it leaves of it. -/
theorem leaves_flatten : (flatten condition).toList.flatMap leaves = leaves condition ∧
    ∀ isAnd, (armOf isAnd condition).flatMap leaves = leaves condition := by
  induction condition using Condition.induct with
  | simple => exact ⟨rfl, fun isAnd => by cases isAnd <;> rfl⟩
  | correlated => exact ⟨rfl, fun isAnd => by cases isAnd <;> rfl⟩
  | junction kind conditions ih =>
    have hflat : (flatten (junction kind conditions)).toList.flatMap leaves = leaves (junction kind conditions) := by
      rw [flatten_junction, leaves_collapse, leaves_junction, flatMap_assoc]
      exact flatMap_congr (fun c hc => (ih c hc).2 kind)
    refine ⟨hflat, fun isAnd => ?_⟩
    rw [armOf_junction]
    split
    · rw [leaves_junction, flatMap_assoc]
      exact flatMap_congr (fun c hc => (ih c hc).1)
    · exact hflat

/-! ## Normalizing -/

section Size

theorem sizeOf_junction : sizeOf (junction isAnd conditions) = 1 + sizeOf conditions := by
  cases isAnd <;> simp [junction]

theorem sizeOf_append {α : Type} [SizeOf α] (a b : List α) : sizeOf (a ++ b) + 1 = sizeOf a + sizeOf b := by
  induction a with
  | nil | cons => simp; omega

theorem sizeOf_collapse {isAnd : Bool} {flat : List Condition} {condition : Condition}
    (h : collapse isAnd flat = some condition) : sizeOf condition ≤ 1 + sizeOf flat := by
  match flat with
  | [] => cases h
  | [c] =>
    obtain rfl : c = condition := some.inj h
    simp
    omega
  | c :: d :: rest =>
    obtain rfl : junction isAnd (c :: d :: rest) = condition := some.inj h
    rw [sizeOf_junction]

theorem sizeOf_flatMap_le {f : Condition → List Condition} {conditions : List Condition}
    (h : ∀ c ∈ conditions, sizeOf (f c) ≤ 2 + sizeOf c) : sizeOf (conditions.flatMap f) ≤ sizeOf conditions := by
  induction conditions with
  | nil => simp
  | cons c rest ih =>
    have hhead := h c mem_cons_self
    have hrest := ih (fun d hd => h d (mem_cons_of_mem _ hd))
    have happend := sizeOf_append (f c) (rest.flatMap f)
    rw [flatMap_cons, cons.sizeOf_spec]
    omega

theorem sizeOf_toList_le {c : Condition} (h : ∀ flat ∈ flatten c, sizeOf flat ≤ sizeOf c) :
    sizeOf (flatten c).toList ≤ 2 + sizeOf c := by
  cases hflat : flatten c with
  | none =>
    rw [toList_none, nil.sizeOf_spec]
    omega
  | some flat =>
    have hle := h flat hflat
    simp only [toList_some, cons.sizeOf_spec, nil.sizeOf_spec]
    omega

/-- Flattening does not make a condition larger, nor do the arms it leaves of it. -/
theorem sizeOf_flatten : (∀ flat ∈ flatten condition, sizeOf flat ≤ sizeOf condition) ∧
      ∀ isAnd, sizeOf (armOf isAnd condition) ≤ 2 + sizeOf condition := by
  induction condition using Condition.induct with
  | simple | correlated =>
    refine ⟨fun flat hflat => ?_, fun isAnd => ?_⟩
    · cases hflat
      exact le_refl _
    · cases isAnd <;> simp [armOf, flatten] <;> omega
  | junction kind conditions ih =>
    have hflatten : ∀ flat ∈ flatten (junction kind conditions), sizeOf flat ≤ sizeOf (junction kind conditions) := by
      intro flat hflat
      rw [flatten_junction] at hflat
      have hcollapse := sizeOf_collapse hflat
      have harms := sizeOf_flatMap_le (fun c hc => (ih c hc).2 kind)
      rw [sizeOf_junction]
      omega
    refine ⟨hflatten, fun isAnd => ?_⟩
    rw [armOf_junction]
    split
    · have harms := sizeOf_flatMap_le (fun c hc => sizeOf_toList_le (ih c hc).1)
      rw [sizeOf_junction]
      omega
    · exact sizeOf_toList_le hflatten

end Size

mutual
/-- A canonical copy of a query: its condition flattened and sorted, its related subqueries sorted by
alias, and its subqueries normalized (`normalize_ast`). -/
def normalizeAst (sorter : Sorter) (display : ℚ → String) : Ast → Option Ast
  | .mk schema table alias_ where_ related start limit orderBy => do
    let normalized ← match _h : where_.bind flatten with
      | some condition => (normalizeWhere sorter display condition).map some
      | none => some none
    let mapped ← normalizeRelated sorter display related
    let sorted ← sorter.sortBy (fun a b => some (cmpRelated a b)) mapped
    return .mk schema table alias_ normalized sorted start limit orderBy
termination_by ast => sizeOf ast
decreasing_by
  · simp only [Ast.mk.sizeOf_spec]
    omega
  · obtain ⟨condition', hwhere, hflat⟩ := Option.bind_eq_some_iff.mp _h
    have hle := (sizeOf_flatten condition').1 condition hflat
    rw [hwhere]
    simp only [Ast.mk.sizeOf_spec, Option.some.sizeOf_spec]
    omega

/-- Normalizes a condition: sorts the arms of junctions and normalizes subqueries
(`normalize_where`). -/
def normalizeWhere (sorter : Sorter) (display : ℚ → String) : Condition → Option Condition
  | .simple op left right => some (.simple op left right)
  | .correlatedSubquery related op flip scalar planId => do
    return .correlatedSubquery (← normalizeSubquery sorter display related) op flip scalar planId
  | .and conditions => do
    return .and (← sorter.sortBy (cmpCondition display) (← normalizeEach sorter display conditions))
  | .or conditions => do
    return .or (← sorter.sortBy (cmpCondition display) (← normalizeEach sorter display conditions))
termination_by condition => sizeOf condition

/-- Normalizes the query of a subquery. -/
def normalizeSubquery (sorter : Sorter) (display : ℚ → String) : CorrelatedSubquery → Option CorrelatedSubquery
  | .mk correlation subquery system hidden => do
    return .mk correlation (← normalizeAst sorter display subquery) system hidden
termination_by related => sizeOf related

/-- Normalizes conditions one by one. -/
def normalizeEach (sorter : Sorter) (display : ℚ → String) : List Condition → Option (List Condition)
  | [] => some []
  | condition :: rest => do
    return (← normalizeWhere sorter display condition) :: (← normalizeEach sorter display rest)
termination_by conditions => sizeOf conditions

/-- Normalizes subqueries one by one. -/
def normalizeRelated (sorter : Sorter) (display : ℚ → String) :
    List CorrelatedSubquery → Option (List CorrelatedSubquery)
  | [] => some []
  | related :: rest => do
    return (← normalizeSubquery sorter display related) :: (← normalizeRelated sorter display rest)
termination_by related => sizeOf related
end

section Equations

variable (sorter : Sorter) (display : ℚ → String)

theorem normalizeEach_eq :
    normalizeEach sorter display conditions = conditions.mapM (normalizeWhere sorter display) := by
  induction conditions with
  | nil => rw [normalizeEach, mapM_nil]; rfl
  | cons condition rest ih => rw [normalizeEach, ih, mapM_cons]

theorem normalizeRelated_eq (related : List CorrelatedSubquery) :
    normalizeRelated sorter display related = related.mapM (normalizeSubquery sorter display) := by
  induction related with
  | nil => rw [normalizeRelated, mapM_nil]; rfl
  | cons csq rest ih => rw [normalizeRelated, ih, mapM_cons]

theorem normalizeWhere_junction : normalizeWhere sorter display (junction isAnd conditions) = (do
      let arms ← conditions.mapM (normalizeWhere sorter display)
      return junction isAnd (← sorter.sortBy (cmpCondition display) arms)) := by
  cases isAnd with
  | true =>
    rw [← normalizeEach_eq]
    simp only [junction, if_true, normalizeWhere]
  | false =>
    rw [← normalizeEach_eq]
    simp only [junction, Bool.false_eq_true, if_false, normalizeWhere]

theorem normalizeWhere_simple (op : SimpleOperator) (left right : ValuePosition) :
    normalizeWhere sorter display (.simple op left right) = some (.simple op left right) := by
  rw [normalizeWhere]

theorem normalizeWhere_correlated (related : CorrelatedSubquery) (op : ExistsOp) (flip scalar : Option Bool)
    (planId : Option ℤ) : normalizeWhere sorter display (.correlatedSubquery related op flip scalar planId) =
      (normalizeSubquery sorter display related).map (fun csq => .correlatedSubquery csq op flip scalar planId) := by
  rw [normalizeWhere]
  cases normalizeSubquery sorter display related <;> rfl

theorem normalizeSubquery_eq (csq : CorrelatedSubquery) : normalizeSubquery sorter display csq =
    (normalizeAst sorter display csq.subquery).map (fun ast => .mk csq.correlation ast csq.system csq.hidden) := by
  obtain ⟨correlation, subquery, system, hidden⟩ := csq
  rw [normalizeSubquery]
  change _ = (normalizeAst sorter display subquery).map _
  cases normalizeAst sorter display subquery <;> rfl

/-- The normal form of the condition of a query: what is left of it, flattened and sorted. -/
def normalizedWhere (where_ : Option Condition) : Option (Option Condition) :=
  match where_.bind flatten with
  | some condition => (normalizeWhere sorter display condition).map some
  | none => some none

theorem normalizeAst_eq (ast : Ast) : normalizeAst sorter display ast = (do
    let normalized ← normalizedWhere sorter display ast.where_
    let mapped ← ast.related.mapM (normalizeSubquery sorter display)
    let sorted ← sorter.sortBy (fun a b => some (cmpRelated a b)) mapped
    return .mk ast.schema ast.table ast.alias_ normalized sorted ast.start ast.limit ast.orderBy) := by
  obtain ⟨schema, table, alias_, where_, related, start, limit, orderBy⟩ := ast
  rw [normalizeAst, normalizeRelated_eq]
  simp only [Ast.where_, normalizedWhere]
  cases where_.bind flatten <;> rfl

variable {sorter display}

/-- A query is normalized part by part. -/
theorem normalizeAst_of {ast : Ast} {normalized : Option Condition} {mapped sorted : List CorrelatedSubquery}
    (hwhere : normalizedWhere sorter display ast.where_ = some normalized)
    (hmapped : List.Forall₂ (fun csq csq' => normalizeSubquery sorter display csq = some csq') ast.related mapped)
    (hsorted : sorter.sortBy (fun a b => some (cmpRelated a b)) mapped = some sorted) :
    normalizeAst sorter display ast =
      some (.mk ast.schema ast.table ast.alias_ normalized sorted ast.start ast.limit ast.orderBy) := by
  rw [normalizeAst_eq, hwhere, mapM_eq_some_iff.mpr hmapped]
  exact congrArg (fun sorted => sorted.bind (fun sorted =>
    some (Ast.mk ast.schema ast.table ast.alias_ normalized sorted ast.start ast.limit ast.orderBy))) hsorted

/-- What a normal form of a query is made of. -/
theorem normalizeAst_spec {ast normal : Ast} (h : normalizeAst sorter display ast = some normal) :
    ∃ normalized mapped sorted, normalizedWhere sorter display ast.where_ = some normalized ∧
      List.Forall₂ (fun csq csq' => normalizeSubquery sorter display csq = some csq') ast.related mapped ∧
      sorter.sortBy (fun a b => some (cmpRelated a b)) mapped = some sorted ∧
      normal = .mk ast.schema ast.table ast.alias_ normalized sorted ast.start ast.limit ast.orderBy := by
  rw [normalizeAst_eq] at h
  obtain ⟨normalized, hnormalized, h⟩ := bind_eq_some_iff.mp h
  obtain ⟨mapped, hmapped, h⟩ := bind_eq_some_iff.mp h
  obtain ⟨sorted, hsorted, h⟩ := bind_eq_some_iff.mp h
  exact ⟨normalized, mapped, sorted, hnormalized, mapM_eq_some_iff.mp hmapped, hsorted, (some.inj h).symm⟩

/-- The normal form of a subquery has the alias and the correlation of the subquery. -/
theorem normalizeSubquery_spec {csq csq' : CorrelatedSubquery} (h : normalizeSubquery sorter display csq = some csq') :
    csq.correlation = csq'.correlation ∧ csq.subquery.alias_ = csq'.subquery.alias_ ∧
      normalizeAst sorter display csq.subquery = some csq'.subquery := by
  rw [normalizeSubquery_eq, map_eq_some_iff] at h
  obtain ⟨normal, hnormal, rfl⟩ := h
  obtain ⟨normalized, mapped, sorted, -, -, -, rfl⟩ := normalizeAst_spec hnormal
  exact ⟨rfl, rfl, hnormal⟩

/-- The leaves of a normal form are the normal forms of the leaves, in some order. -/
theorem leaves_normalizeWhere {condition normal : Condition} (h : normalizeWhere sorter display condition = some normal) :
    ∃ mapped, List.Forall₂ (fun leaf leaf' => normalizeWhere sorter display leaf = some leaf') (leaves condition) mapped ∧
      mapped.Perm (leaves normal) := by
  induction condition using Condition.induct generalizing normal with
  | simple =>
    have hnormal := h
    rw [normalizeWhere_simple] at hnormal
    cases hnormal
    exact ⟨_, .cons h .nil, .refl _⟩
  | correlated =>
    have hnormal := h
    rw [normalizeWhere_correlated, map_eq_some_iff] at hnormal
    obtain ⟨csq, -, rfl⟩ := hnormal
    exact ⟨_, .cons h .nil, .refl _⟩
  | junction isAnd conditions ih =>
    rw [normalizeWhere_junction] at h
    obtain ⟨arms, harms, h⟩ := bind_eq_some_iff.mp h
    obtain ⟨sorted, hsorted, h⟩ := bind_eq_some_iff.mp h
    cases h
    rw [leaves_junction, leaves_junction]
    have hperm : (arms.flatMap leaves).Perm (sorted.flatMap leaves) := (sorter.perm hsorted).symm.flatMap_right leaves
    have harms := forall₂_imp_of_mem (mapM_eq_some_iff.mp harms) (fun c hc arm _ harm => ih c hc harm)
    obtain ⟨mapped, hforall, hmapped⟩ := forall₂_flatMap_perm harms
    exact ⟨mapped, hforall, hmapped.trans hperm⟩

end Equations

end Protocol

end ZeroCache
