import ZeroCache.Zql.Build

/-!
# What a query means

The recursive meaning of a query over the rows of the tables: the rows that satisfy its condition,
from its start and up to its limit, and with each of them the rows of its related subqueries and of
the subqueries it must have a row of. A comparison that cannot be evaluated holds of no row.
-/

namespace ZeroCache.Zql

open List Formula

variable {α β : Type}

/-- What a query returns for a constraint, and all rows reached from there with their tables. -/
structure Meaning where
  rows : Option Constraint → List Row
  reached : Option Constraint → List (String × Row)

/-- The constraint a subquery is under for a row of its parent. -/
def Subquery.constraint (sub : Subquery α) (row : Row) : Option Constraint :=
  some (childConstraint sub.correlation.parentField sub.correlation.childField row)

/-- A comparison holds of a row. -/
def simpleHolds (op : SimpleOperator) (left right : ValuePosition) (row : Row) : Bool :=
  (createSimplePredicate op left right).bind (fun test => test row) = some true

/-- An existence test holds of a row. -/
def existHolds (op : ExistsOp) (sub : Subquery Meaning) (row : Row) : Bool :=
  match op with
  | .exist => !(sub.query.rows (sub.constraint row)).isEmpty
  | .notExist => (sub.query.rows (sub.constraint row)).isEmpty

namespace Formula

mutual
/-- A condition holds of a row, given what its existence tests say. -/
def holdsWith (exist : ExistsOp → Subquery α → Row → Bool) (row : Row) : Formula α → Bool
  | .simple op left right => simpleHolds op left right row
  | .and formulas => allHold exist row formulas
  | .or formulas => anyHolds exist row formulas
  | .exist op sub => exist op sub row

/-- All conditions hold of a row. -/
def allHold (exist : ExistsOp → Subquery α → Row → Bool) (row : Row) : List (Formula α) → Bool
  | [] => true
  | formula :: rest => holdsWith exist row formula && allHold exist row rest

/-- One of the conditions holds of a row. -/
def anyHolds (exist : ExistsOp → Subquery α → Row → Bool) (row : Row) : List (Formula α) → Bool
  | [] => false
  | formula :: rest => holdsWith exist row formula || anyHolds exist row rest
end

section

variable (exist : ExistsOp → Subquery α → Row → Bool) (row : Row) (formulas : List (Formula α))

@[simp]
theorem allHold_eq : allHold exist row formulas = formulas.all (holdsWith exist row) := by
  induction formulas with
  | nil => rfl
  | cons formula rest ih => rw [allHold, ih, all_cons]

@[simp]
theorem anyHolds_eq : anyHolds exist row formulas = formulas.any (holdsWith exist row) := by
  induction formulas with
  | nil => rfl
  | cons formula rest ih => rw [anyHolds, ih, any_cons]

end

/-- A condition holds of a row. -/
def holds (row : Row) (formula : Formula Meaning) : Bool := formula.holdsWith existHolds row

end Formula

/-- The subqueries whose rows belong to the result: the related ones and those that must have a
row. -/
def Query.hops (q : Query α) : List (Subquery α) :=
  q.related ++ (q.existHops.filter (fun hop => hop.1 = .exist)).map Prod.snd

/-- The start of a read at a bound. -/
def startOf (bound : Bound) : Start :=
  ⟨(skipBound bound).row, if bound.exclusive then .after else .at⟩

/-- The first rows, up to a limit if there is one. -/
def limited {γ : Type} (limit : Option ℚ) (rows : List γ) : List γ :=
  match limit with
  | some limit => rows.take (limitOf limit)
  | none => rows

/-- The rows of one level. -/
def levelRows (source : Source) (sourceOrder : String → Option QueryOrdering → QueryOrdering)
    (q : Query Meaning) (constraint : Option Constraint) : List Row :=
  limited q.limit
    ((source.fetch q.table (sourceOrder q.table q.orderBy) constraint (q.start.map startOf)).filter
      (fun row => q.where_.all (Formula.holds row)))

/-- The meaning of one level. -/
def meaningLevel (source : Source) (sourceOrder : String → Option QueryOrdering → QueryOrdering)
    (q : Query Meaning) : Meaning :=
  { rows := levelRows source sourceOrder q
    reached := fun constraint =>
      (levelRows source sourceOrder q constraint).map (fun row => (q.table, row)) ++
        (levelRows source sourceOrder q constraint).flatMap (fun row =>
          q.hops.flatMap (fun sub => sub.query.reached (sub.constraint row))) }

/-- The meaning of a query. -/
def meaning (source : Source) (sourceOrder : String → Option QueryOrdering → QueryOrdering) (ast : Ast) :
    Meaning := foldAst (meaningLevel source sourceOrder) ast

/-! ## Conditions that can be evaluated -/

namespace Formula

mutual
/-- The comparisons of a condition. -/
def simples : Formula α → List (SimpleOperator × ValuePosition × ValuePosition)
  | .simple op left right => [(op, left, right)]
  | .and formulas => allSimples formulas
  | .or formulas => allSimples formulas
  | .exist _ _ => []

/-- The comparisons of a list of conditions. -/
def allSimples : List (Formula α) → List (SimpleOperator × ValuePosition × ValuePosition)
  | [] => []
  | formula :: rest => simples formula ++ allSimples rest
end

@[simp]
theorem allSimples_eq (formulas : List (Formula α)) : allSimples formulas = formulas.flatMap simples := by
  induction formulas with
  | nil => rfl
  | cons formula rest ih => rw [allSimples, ih, flatMap_cons]

/-- Every comparison of a condition can be evaluated on every row of a list. -/
def EvaluableOn (formula : Formula α) (rows : List Row) : Prop :=
  ∀ simple ∈ formula.simples, ∃ test, createSimplePredicate simple.1 simple.2.1 simple.2.2 = some test ∧
    ∀ row ∈ rows, (test row).isSome

mutual
/-- A condition without its correlated subqueries holds of a row. -/
def residual (row : Row) : Formula α → Bool
  | .simple op left right => simpleHolds op left right row
  | .and formulas => allResidual row formulas
  | .or formulas => anyResidual row formulas
  | .exist _ _ => true

/-- All conditions hold without their correlated subqueries. -/
def allResidual (row : Row) : List (Formula α) → Bool
  | [] => true
  | formula :: rest => residual row formula && allResidual row rest

/-- One of the conditions holds without its correlated subqueries. -/
def anyResidual (row : Row) : List (Formula α) → Bool
  | [] => false
  | formula :: rest => residual row formula || anyResidual row rest
end

@[simp]
theorem allResidual_eq (row : Row) (formulas : List (Formula α)) :
    allResidual row formulas = formulas.all (residual row) := by
  induction formulas with
  | nil => rfl
  | cons formula rest ih => rw [allResidual, ih, all_cons]

@[simp]
theorem anyResidual_eq (row : Row) (formulas : List (Formula α)) :
    anyResidual row formulas = formulas.any (residual row) := by
  induction formulas with
  | nil => rfl
  | cons formula rest ih => rw [anyResidual, ih, any_cons]

end Formula

/-! ## Predicates of conditions without correlated subqueries -/

/-- The predicate of a condition can be built, and on the rows of a list it tests a property. -/
def Tests (rows : List Row) (condition : Condition) (property : Row → Bool) : Prop :=
  ∃ test, createPredicate condition = some test ∧ ∀ row ∈ rows, test row = some (property row)

variable {properties : List (Row → Bool)} {conditions : List Condition}

section

variable {rows : List Row} (h : List.Forall₂ (Tests rows) conditions properties)

include h

theorem tests_all_any : ∃ tests, createPredicatesWithExists (fun _ _ => none) conditions = some tests ∧
      ∀ row ∈ rows, allOf tests row = some (properties.all (fun property => property row)) ∧
        anyOf tests row = some (properties.any (fun property => property row)) := by
  induction h with
  | nil => exact ⟨[], rfl, fun _ _ => ⟨rfl, rfl⟩⟩
  | @cons condition property conditions properties hhead htail ih =>
    obtain ⟨test, hbuild, htest⟩ := hhead
    obtain ⟨tests, hbuilds, htests⟩ := ih
    refine ⟨test :: tests, ?_, fun row hrow => ?_⟩
    · rw [createPredicatesWithExists, hbuilds]
      rw [createPredicate] at hbuild
      rw [hbuild]
      rfl
    · obtain ⟨hall, hany⟩ := htests row hrow
      rw [allOf, anyOf, htest row hrow, hall, hany]
      cases hproperty : property row with
      | true | false => simp [hproperty]

theorem tests_and : Tests rows (.and conditions) (fun row => properties.all (fun property => property row)) := by
  obtain ⟨tests, hbuild, htests⟩ := tests_all_any h
  refine ⟨allOf tests, ?_, fun row hrow => (htests row hrow).1⟩
  rw [createPredicate, createPredicateWithExists, hbuild]
  rfl

theorem tests_or : Tests rows (.or conditions) (fun row => properties.any (fun property => property row)) := by
  obtain ⟨tests, hbuild, htests⟩ := tests_all_any h
  refine ⟨anyOf tests, ?_, fun row hrow => (htests row hrow).2⟩
  rw [createPredicate, createPredicateWithExists, hbuild]
  rfl

end

namespace Formula

variable {rows : List Row} {formula : Formula α}

theorem underOr_of_not_hasCorrelated (h : formula.hasCorrelated = false) : formula.underOr = false := by
  induction formula with
  | simple | exist => rfl
  | and formulas ih =>
    rw [hasCorrelated, anyCorrelated_eq, any_eq_false] at h
    rw [underOr, anyUnderOr_eq, any_eq_false]
    intro f hf
    simpa using ih f hf (by simpa using h f hf)
  | or => exact h

theorem gather_of_not_hasCorrelated (h : formula.hasCorrelated = false) : formula.gather = [] := by
  induction formula with
  | simple => rfl
  | exist => simp [hasCorrelated] at h
  | and formulas ih | or formulas ih =>
    rw [hasCorrelated, anyCorrelated_eq, any_eq_false] at h
    rw [gather, gatherAll_eq, flatMap_eq_nil_iff]
    exact fun f hf => ih f hf (by simpa using h f hf)

theorem EvaluableOn.arm {formulas : List (Formula α)} (h : EvaluableOn (.and formulas) rows)
    (hmem : formula ∈ formulas) : EvaluableOn formula rows := by
  intro simple hsimple
  refine h simple ?_
  rw [simples, allSimples_eq]
  exact mem_flatMap.mpr ⟨formula, hmem, hsimple⟩

theorem tests_simple {op : SimpleOperator} {left right : ValuePosition}
    (h : EvaluableOn (.simple op left right : Formula α) rows) :
    Tests rows (.simple op left right) (simpleHolds op left right) := by
  obtain ⟨test, hbuild, htest⟩ := h (op, left, right) (by simp [simples])
  refine ⟨test, by rw [createPredicate, createPredicateWithExists, hbuild], fun row hrow => ?_⟩
  obtain ⟨value, hvalue⟩ := Option.isSome_iff_exists.mp (htest row hrow)
  simp only [simpleHolds, hbuild, Option.bind_some, hvalue]
  cases value with
  | true | false => rfl

/-- A condition without correlated subqueries is tested as it stands. -/
theorem tests_plain (formula : Formula α) (hcorrelated : formula.hasCorrelated = false)
    (h : formula.EvaluableOn rows) : Tests rows formula.plain (fun row => formula.residual row) := by
  induction formula with
  | simple => exact tests_simple h
  | exist => simp [hasCorrelated] at hcorrelated
  | and formulas ih | or formulas ih =>
    have harms : List.Forall₂ (Tests rows) (formulas.map plain)
        (formulas.map (fun f row => f.residual row)) := by
      rw [forall₂_map_left_iff, forall₂_map_right_iff, forall₂_same]
      intro f hf
      rw [hasCorrelated, anyCorrelated_eq, any_eq_false] at hcorrelated
      exact ih f hf (by simpa using hcorrelated f hf) (EvaluableOn.arm (h : EvaluableOn (.and formulas) rows) hf)
    rw [plain]
    first
    | simpa [residual, all_map, Function.comp_def] using tests_and harms
    | simpa [residual, any_map, Function.comp_def] using tests_or harms

mutual
/-- No disjunction without correlated subqueries has an arm that stripping would drop, that is, an
empty conjunction. -/
def armsKept : Formula α → Bool
  | .simple _ _ _ => true
  | .and formulas => allArmsKept formulas
  | .or formulas => allArmsKept formulas && (anyCorrelated formulas || allStripped formulas)
  | .exist _ _ => true

/-- The same of each of a list of conditions. -/
def allArmsKept : List (Formula α) → Bool
  | [] => true
  | formula :: rest => armsKept formula && allArmsKept rest

/-- Stripping leaves something of each of a list of conditions. -/
def allStripped : List (Formula α) → Bool
  | [] => true
  | formula :: rest => (strip formula).isSome && allStripped rest
end

@[simp]
theorem allArmsKept_eq (formulas : List (Formula α)) : allArmsKept formulas = formulas.all armsKept := by
  induction formulas with
  | nil => rfl
  | cons formula rest ih => rw [allArmsKept, ih, all_cons]

@[simp]
theorem allStripped_eq (formulas : List (Formula α)) :
    allStripped formulas = formulas.all (fun formula => formula.strip.isSome) := by
  induction formulas with
  | nil => rfl
  | cons formula rest ih => rw [allStripped, ih, all_cons]

/-- What stripping leaves of a condition tests its residual; if nothing is left, that is true. -/
def StripTests (rows : List Row) (formula : Formula α) : Prop :=
  (formula.strip = none → ∀ row, formula.residual row = true) ∧
    ∀ condition, formula.strip = some condition → Tests rows condition (fun row => formula.residual row)

section

variable {formulas : List (Formula α)} (h : ∀ f ∈ formulas, StripTests rows f)

include h

theorem stripTests_all : ∃ properties, List.Forall₂ (Tests rows) (formulas.filterMap strip) properties ∧
      (∀ row, properties.all (fun property => property row) = formulas.all (residual row)) ∧
      ((∀ f ∈ formulas, f.strip.isSome) → ∀ row, properties.any (fun property => property row) =
        formulas.any (residual row)) := by
  induction formulas with
  | nil => exact ⟨[], .nil, fun _ => rfl, fun _ _ => rfl⟩
  | cons formula rest ih =>
    obtain ⟨properties, hforall, hall, hany⟩ := ih (fun f hf => h f (mem_cons_of_mem _ hf))
    obtain ⟨hnone, hsome⟩ := h formula mem_cons_self
    cases hstrip : formula.strip with
    | none =>
      refine ⟨properties, ?_, fun row => ?_, fun hkept => ?_⟩
      · rwa [filterMap_cons_none hstrip]
      · rw [hall, all_cons, hnone hstrip, Bool.true_and]
      · have hhead := hkept formula mem_cons_self
        simp [hstrip] at hhead
    | some condition =>
      refine ⟨(fun row => formula.residual row) :: properties, ?_, fun row => ?_, fun hkept row => ?_⟩
      · rw [filterMap_cons_some hstrip]
        exact .cons (hsome condition hstrip) hforall
      · rw [all_cons, all_cons, hall]
      · rw [any_cons, any_cons, hany (fun f hf => hkept f (mem_cons_of_mem _ hf))]

theorem stripTests_and : StripTests rows (.and formulas) := by
  obtain ⟨properties, hforall, hall, -⟩ := stripTests_all h
  have hresidual : ∀ row, residual row (.and formulas) = properties.all (fun property => property row) := by
    intro row
    rw [residual, allResidual_eq, hall]
  rw [StripTests, strip, stripAll_eq]
  simp only [hresidual]
  generalize formulas.filterMap strip = conditions at hforall ⊢
  cases hforall with
  | nil => exact ⟨fun _ _ => rfl, fun condition hsome => by simp at hsome⟩
  | @cons condition property conditions properties hhead htail =>
    cases htail with
    | nil =>
      refine ⟨fun hnone => by simp at hnone, fun c hsome => ?_⟩
      obtain rfl : condition = c := by simpa using hsome
      simpa using hhead
    | @cons condition' property' conditions properties hhead' htail =>
      refine ⟨fun hnone => by simp at hnone, fun c hsome => ?_⟩
      obtain rfl : Condition.and (condition :: condition' :: conditions) = c := by simpa using hsome
      exact tests_and (.cons hhead (.cons hhead' htail))

theorem stripTests_or (hkept : ∀ f ∈ formulas, f.strip.isSome) : StripTests rows (.or formulas) := by
  obtain ⟨properties, hforall, -, hany⟩ := stripTests_all h
  refine ⟨fun hnone => by simp [strip] at hnone, fun condition hsome => ?_⟩
  rw [strip, Option.some.injEq] at hsome
  subst hsome
  have htests := tests_or hforall
  simp only [hany hkept] at htests
  simpa [residual] using htests

end

/-- Stripping a condition without correlated subqueries below a disjunction keeps what it tests. -/
theorem stripTests (formula : Formula α) (hunder : formula.underOr = false)
    (hkept : formula.armsKept = true) (h : formula.EvaluableOn rows) : StripTests rows formula := by
  induction formula with
  | simple op left right =>
    refine ⟨fun hnone => by simp [strip] at hnone, fun condition hsome => ?_⟩
    obtain rfl : Condition.simple op left right = condition := by simpa [strip] using hsome
    exact tests_simple h
  | exist => exact ⟨fun _ _ => rfl, fun condition hsome => by simp [strip] at hsome⟩
  | and formulas ih =>
    rw [underOr, anyUnderOr_eq, any_eq_false] at hunder
    rw [armsKept, allArmsKept_eq, all_eq_true] at hkept
    exact stripTests_and (fun f hf => ih f hf (by simpa using hunder f hf) (hkept f hf) (h.arm hf))
  | or formulas ih =>
    rw [underOr, anyCorrelated_eq] at hunder
    rw [armsKept, anyCorrelated_eq, hunder, allArmsKept_eq, allStripped_eq, Bool.false_or,
      Bool.and_eq_true, all_eq_true, all_eq_true] at hkept
    rw [any_eq_false] at hunder
    refine stripTests_or (fun f hf => ?_) hkept.2
    exact ih f hf (underOr_of_not_hasCorrelated (by simpa using hunder f hf)) (hkept.1 f hf)
      (EvaluableOn.arm (h : EvaluableOn (.and formulas) rows) hf)

/-- A condition without correlated subqueries below a disjunction holds when its residual does and
every existence test does. -/
theorem holdsWith_eq_residual (exist : ExistsOp → Subquery α → Row → Bool) (formula : Formula α)
    (hunder : formula.underOr = false) (row : Row) : formula.holdsWith exist row =
      (formula.residual row && formula.gather.all (fun hop => exist hop.1 hop.2 row)) := by
  induction formula with
  | simple | exist => simp [holdsWith, residual, gather]
  | and formulas ih =>
    rw [underOr, anyUnderOr_eq, any_eq_false] at hunder
    have harm : ∀ f ∈ formulas, f.holdsWith exist row =
        (f.residual row && f.gather.all (fun hop => exist hop.1 hop.2 row)) :=
      fun f hf => ih f hf (by simpa using hunder f hf)
    rw [holdsWith, residual, gather, allHold_eq, allResidual_eq, gatherAll_eq, all_flatMap]
    clear ih hunder
    induction formulas with
    | nil => rfl
    | cons f rest ihrest =>
      rw [all_cons, all_cons, all_cons, harm f mem_cons_self, ihrest (fun g hg => harm g (mem_cons_of_mem _ hg))]
      ac_rfl
  | or formulas ih =>
    rw [underOr, anyCorrelated_eq, any_eq_false] at hunder
    have hgather : ∀ f ∈ formulas, f.gather = [] :=
      fun f hf => gather_of_not_hasCorrelated (by simpa using hunder f hf)
    have harm : ∀ f ∈ formulas, f.holdsWith exist row = f.residual row := by
      intro f hf
      rw [ih f hf (underOr_of_not_hasCorrelated (by simpa using hunder f hf)), hgather f hf]
      simp
    have hnone : formulas.flatMap gather = [] := by
      rw [flatMap_eq_nil_iff]
      exact hgather
    rw [holdsWith, residual, gather, anyHolds_eq, anyResidual_eq, gatherAll_eq, hnone, all_nil, Bool.and_true,
      Bool.eq_iff_iff, any_eq_true, any_eq_true]
    exact exists_congr (fun f => and_congr_right (fun hf => by rw [harm f hf]))

end Formula

end ZeroCache.Zql
