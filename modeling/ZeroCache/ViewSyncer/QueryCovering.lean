import ZeroCache.Protocol.AstEquality
import ZeroCache.Protocol.Canonical
import Mathlib.Data.Rat.Floor

/-!
# Queries that cover queries

A query covers another when it produces every row the other produces (`query_covering.rs`). The test
is conservative: it compares normal forms and knows a few rules for conditions, starts, limits and
subqueries. Every rule is sound but one: a column that equals a value is taken to differ from NULL,
while a comparison `!= NULL` is never true. `isQueryCoveredBy_sound` says that the test is right for
queries without such a comparison and without empty disjunctions, which normalizing drops.
-/

namespace ZeroCache.ViewSyncer

open Zql Protocol Lib List Ast Condition

/-! ## Comparisons -/

/-- A column compared with a literal. -/
def columnLiteral : ValuePosition → ValuePosition → Option (String × LiteralValue)
  | .column name, .literal value => some (name, value)
  | _, _ => none

def isEqualityOp (op : SimpleOperator) : Bool := op = .eq || op = .is

def isNumericOrderOp (op : SimpleOperator) : Bool := op = .lt || op = .gt || op = .le || op = .ge

def isNonNullScalar : LiteralValue → Bool
  | .null => false
  | .array _ => false
  | _ => true

def literalArrayIncludes (values : List LiteralValue) (value : LiteralValue) : Bool := values.any (· = value)

/-- A comparison of two numbers; other literals do not compare. -/
def numCmp (a b : LiteralValue) (cmp : ℚ → ℚ → Bool) : Bool :=
  match a, b with
  | .number a, .number b => cmp a b
  | _, _ => false

/-- A column that equals a value satisfies another comparison. -/
def equalityImplies (value : LiteralValue) (coveringOp : SimpleOperator) (coveringValue : LiteralValue) : Bool :=
  match coveringOp with
  | .eq => value = coveringValue
  | .is => value = coveringValue
  | .ne => value ≠ coveringValue
  | .isNot => value ≠ coveringValue
  | .inList => match coveringValue with
    | .array values => literalArrayIncludes values value
    | _ => false
  | .lt => numCmp value coveringValue (fun a b => a < b)
  | .le => numCmp value coveringValue (fun a b => a ≤ b)
  | .gt => numCmp value coveringValue (fun a b => a > b)
  | .ge => numCmp value coveringValue (fun a b => a ≥ b)
  | .notInList => false
  | .like => false
  | .notLike => false
  | .iLike => false
  | .notILike => false

/-- A bound on a column implies another bound. -/
def orderConditionImplies (coveredOp : SimpleOperator) (coveredValue : LiteralValue) (coveringOp : SimpleOperator)
    (coveringValue : LiteralValue) : Bool :=
  match coveredValue, coveringValue with
  | .number c, .number g =>
    match coveredOp with
    | .gt => (coveringOp = .gt || coveringOp = .ge) && c ≥ g
    | .ge => (coveringOp = .gt && c > g) || (coveringOp = .ge && c ≥ g)
    | .lt => (coveringOp = .lt || coveringOp = .le) && c ≤ g
    | .le => (coveringOp = .lt && c < g) || (coveringOp = .le && c ≤ g)
    | _ => false
  | _, _ => false

/-- A list of allowed values is part of another. -/
def inImplies (coveredValue coveringValue : LiteralValue) : Option Bool :=
  match coveredValue, coveringValue with
  | .array values, .array others => some (values.all (literalArrayIncludes others))
  | _, _ => none

/-- A comparison of a column with a literal implies another. -/
def literalImplies (coveredOp : SimpleOperator) (coveredValue : LiteralValue) (coveringOp : SimpleOperator)
    (coveringValue : LiteralValue) : Bool :=
  if isEqualityOp coveredOp && isNonNullScalar coveredValue then equalityImplies coveredValue coveringOp coveringValue
  else
    match if coveredOp = .inList ∧ coveringOp = .inList then inImplies coveredValue coveringValue else none with
    | some included => included
    | none =>
      if isNumericOrderOp coveredOp && isNumericOrderOp coveringOp then
        orderConditionImplies coveredOp coveredValue coveringOp coveringValue
      else false

/-- A comparison implies another (`simple_condition_implies`). -/
def simpleConditionImplies (coveredOp : SimpleOperator) (coveredLeft coveredRight : ValuePosition)
    (coveringOp : SimpleOperator) (coveringLeft coveringRight : ValuePosition) : Bool :=
  match columnLiteral coveredLeft coveredRight, columnLiteral coveringLeft coveringRight with
  | some (column, value), some (column', value') => column = column' && literalImplies coveredOp value coveringOp value'
  | _, _ => false

/-! ## Queries -/

/-- Two subqueries hang on their parents in the same way. -/
def sameRelatedEdge (a b : CorrelatedSubquery) : Bool :=
  a.correlation = b.correlation && a.hidden = b.hidden && a.system = b.system &&
    a.subquery.alias_ = b.subquery.alias_

/-- The start and the limit of a query allow it to cover another. -/
def boundsCoveredBy (equivalent : Bool) (covered covering : Ast) : Bool :=
  match covering.limit with
  | none => match covering.start with
    | none => true
    | some _ => covered.start = covering.start && covered.orderBy = covering.orderBy
  | some coveringLimit => match covered.limit with
    | none => false
    | some coveredLimit =>
      if coveringLimit < coveredLimit then false
      else equivalent && covered.start = covering.start && covered.orderBy = covering.orderBy

theorem sizeOf_subquery_lt (csq : CorrelatedSubquery) : sizeOf csq.subquery < sizeOf csq := by
  cases csq
  simp only [CorrelatedSubquery.subquery, CorrelatedSubquery.mk.sizeOf_spec]
  omega

mutual
/-- A query in normal form is covered by another (`ast_covered_by`). -/
def astCoveredBy (covered covering : Ast) : Bool :=
  match covered, covering with
  | .mk schema table alias_ where_ related start limit orderBy,
    .mk schema' table' alias_' where_' related' start' limit' orderBy' =>
    schema = schema' && table = table' && alias_ = alias_' && whereImplies where_ where_' &&
      related.attach.all (fun c => related'.attach.any (fun g =>
        sameRelatedEdge c.1 g.1 && astCoveredBy c.1.subquery g.1.subquery)) &&
      boundsCoveredBy (whereImplies where_ where_' && whereImplies where_' where_)
        (.mk schema table alias_ where_ related start limit orderBy)
        (.mk schema' table' alias_' where_' related' start' limit' orderBy')
termination_by sizeOf covered + sizeOf covering
decreasing_by
  · simp only [Ast.mk.sizeOf_spec]
    omega
  · have hc := List.sizeOf_lt_of_mem c.2
    have hg := List.sizeOf_lt_of_mem g.2
    have hsub := sizeOf_subquery_lt c.1
    have hsub' := sizeOf_subquery_lt g.1
    simp only [Ast.mk.sizeOf_spec]
    omega
  · simp only [Ast.mk.sizeOf_spec]
    omega

/-- A condition that may be absent implies another. -/
def whereImplies (covered covering : Option Condition) : Bool :=
  match covered, covering with
  | _, none => true
  | none, some _ => false
  | some covered, some covering => conditionImplies covered covering
termination_by sizeOf covered + sizeOf covering

/-- A condition implies another (`condition_implies`). -/
def conditionImplies (covered covering : Condition) : Bool :=
  if covered = covering then true
  else
    match covered, covering with
    | .or conditions, covering => conditions.attach.all (fun c => conditionImplies c.1 covering)
    | covered, .or conditions => conditions.attach.any (fun g => conditionImplies covered g.1)
    | covered, .and conditions => conditions.attach.all (fun g => conditionImplies covered g.1)
    | .and conditions, covering => conditions.attach.any (fun c => conditionImplies c.1 covering)
    | .simple op left right, .simple op' left' right' => simpleConditionImplies op left right op' left' right'
    | .correlatedSubquery related op _ scalar _, .correlatedSubquery related' op' _ scalar' _ =>
      op = op' && scalar = scalar' && sameRelatedEdge related related' && match op with
        | .exist => astCoveredBy related.subquery related'.subquery
        | .notExist => astCoveredBy related'.subquery related.subquery
    | _, _ => false
termination_by sizeOf covered + sizeOf covering
decreasing_by
  all_goals simp only [Condition.or.sizeOf_spec, Condition.and.sizeOf_spec, Condition.correlatedSubquery.sizeOf_spec]
  · have hc := List.sizeOf_lt_of_mem c.2
    omega
  · have hg := List.sizeOf_lt_of_mem g.2
    omega
  · have hg := List.sizeOf_lt_of_mem g.2
    omega
  · have hc := List.sizeOf_lt_of_mem c.2
    omega
  all_goals
    have hsub := sizeOf_subquery_lt related
    have hsub' := sizeOf_subquery_lt related'
    omega
end

/-- Every row one query produces is taken to be produced by another (`is_query_covered_by`); sorting
may panic. -/
def isQueryCoveredBy (sorter : Sorter) (display : ℚ → String) (covered covering : Ast) : Option Bool := do
  return astCoveredBy (← normalizeAst sorter display covered) (← normalizeAst sorter display covering)

/-! ## What the test says -/

theorem astCoveredBy_iff {covered covering : Ast} : astCoveredBy covered covering = true ↔
    covered.schema = covering.schema ∧ covered.table = covering.table ∧ covered.alias_ = covering.alias_ ∧
      whereImplies covered.where_ covering.where_ = true ∧
      (∀ c ∈ covered.related, ∃ g ∈ covering.related, sameRelatedEdge c g = true ∧
        astCoveredBy c.subquery g.subquery = true) ∧
      boundsCoveredBy (whereImplies covered.where_ covering.where_ && whereImplies covering.where_ covered.where_)
        covered covering = true := by
  cases covered
  cases covering
  rw [astCoveredBy]
  simp [Ast.schema, Ast.table, Ast.alias_, Ast.where_, Ast.related, and_assoc]

open Bool

/-- The ways in which the test finds an implication. -/
theorem conditionImplies_cases {covered covering : Condition} (h : conditionImplies covered covering = true) :
    covered = covering ∨
      (∃ conditions, covered = .or conditions ∧ ∀ c ∈ conditions, conditionImplies c covering = true) ∨
      (∃ conditions, covering = .or conditions ∧ ∃ g ∈ conditions, conditionImplies covered g = true) ∨
      (∃ conditions, covering = .and conditions ∧ ∀ g ∈ conditions, conditionImplies covered g = true) ∨
      (∃ conditions, covered = .and conditions ∧ ∃ c ∈ conditions, conditionImplies c covering = true) ∨
      (∃ op left right op' left' right', covered = .simple op left right ∧ covering = .simple op' left' right' ∧
        simpleConditionImplies op left right op' left' right' = true) ∨
      ∃ related op flip scalar planId related' flip' planId',
        covered = .correlatedSubquery related op flip scalar planId ∧
        covering = .correlatedSubquery related' op flip' scalar planId' ∧ sameRelatedEdge related related' = true ∧
        (op = .exist → astCoveredBy related.subquery related'.subquery = true) ∧
        (op = .notExist → astCoveredBy related'.subquery related.subquery = true) := by
  rw [conditionImplies.eq_def] at h
  split at h
  · next heq => exact .inl heq
  · refine .inr ?_
    split at h
    · refine .inl ⟨_, rfl, ?_⟩
      simpa using h
    · refine .inr (.inl ⟨_, rfl, ?_⟩)
      simpa using h
    · refine .inr (.inr (.inl ⟨_, rfl, ?_⟩))
      simpa using h
    · refine .inr (.inr (.inr (.inl ⟨_, rfl, ?_⟩)))
      simpa using h
    · exact .inr (.inr (.inr (.inr (.inl ⟨_, _, _, _, _, _, rfl, rfl, h⟩))))
    · simp only [and_eq_true, decide_eq_true_eq] at h
      obtain ⟨⟨⟨rfl, rfl⟩, hedge⟩, hcovered⟩ := h
      refine .inr (.inr (.inr (.inr (.inr ⟨_, _, _, _, _, _, _, _, rfl, rfl, hedge, ?_, ?_⟩))))
      · rintro rfl
        exact hcovered
      · rintro rfl
        exact hcovered
    · cases h

/-! ## Comparisons that hold -/

variable {op : SimpleOperator} {value : LiteralValue} {name : String} {row : Row}

/-- A comparison of a column with a literal, other than `IS` and `IS NOT`, holds of values that are
not null. -/
theorem simpleHolds_column (his : op ≠ .is) (hnot : op ≠ .isNot) : simpleHolds op (.column name)
    (.literal value) row = true ↔ literalToValue value ≠ .null ∧ row.get name ≠ .null ∧
        evalNonNullOp op (row.get name) (literalToValue value) = some true := by
  by_cases hvalue : literalToValue value = .null
  · simp [simpleHolds, createSimplePredicate, his, hnot, hvalue]
  · by_cases hrow : row.get name = .null
    · simp [simpleHolds, createSimplePredicate, his, hnot, hvalue, hrow]
    · simp [simpleHolds, createSimplePredicate, his, hnot, hvalue, hrow]

theorem simpleHolds_is :
    simpleHolds .is (.column name) (.literal value) row = true ↔ row.get name = literalToValue value := by
  simp [simpleHolds, createSimplePredicate]

theorem simpleHolds_isNot :
    simpleHolds .isNot (.column name) (.literal value) row = true ↔ row.get name ≠ literalToValue value := by
  simp [simpleHolds, createSimplePredicate]

theorem literalToValue_eq_null : literalToValue value = .null ↔ value = .null := by
  cases value <;> simp [literalToValue]

/-- A bound holds of a number. -/
def orderHolds (op : SimpleOperator) (m n : ℚ) : Prop :=
  match op with
  | .lt => m < n
  | .le => m ≤ n
  | .gt => n < m
  | .ge => n ≤ m
  | _ => False

/-- Comparing values by order, as a test of the order. -/
theorem evalNonNullOp_order (hop : isNumericOrderOp op = true) :
    ∃ test : Ordering → Bool, (∀ m n : ℚ, test (compare m n) = true ↔ orderHolds op m n) ∧
      ∀ lhs rhs, evalNonNullOp op lhs rhs = (compareValues lhs rhs).map test := by
  cases op with
  | lt => exact ⟨(· == .lt), fun m n => by rw [beq_iff_eq, compare_lt_iff_lt, orderHolds], fun _ _ => rfl⟩
  | le => exact ⟨(· != .gt), fun m n => by rw [bne_iff_ne, compare_le_iff_le, orderHolds], fun _ _ => rfl⟩
  | gt => exact ⟨(· == .gt), fun m n => by rw [beq_iff_eq, compare_gt_iff_gt, orderHolds], fun _ _ => rfl⟩
  | ge => exact ⟨(· != .lt), fun m n => by rw [bne_iff_ne, compare_ge_iff_ge, orderHolds], fun _ _ => rfl⟩
  | _ => cases hop

/-- A bound by a number holds of numbers within it. -/
theorem simpleHolds_order (hop : isNumericOrderOp op = true) {n : ℚ} :
    simpleHolds op (.column name) (.literal (.number n)) row = true ↔
      ∃ m, row.get name = .number m ∧ orderHolds op m n := by
  have his : op ≠ .is := by
    rintro rfl
    cases hop
  have hnot : op ≠ .isNot := by
    rintro rfl
    cases hop
  obtain ⟨test, htest, heval⟩ := evalNonNullOp_order hop
  rw [simpleHolds_column his hnot, heval]
  cases hvalue : row.get name with
  | number => simp [literalToValue, compareValues, htest]
  | _ => simp [literalToValue, compareValues]

variable {op' : SimpleOperator}

theorem orderConditionImplies_sound {c g m : ℚ}
    (h : orderConditionImplies op (.number c) op' (.number g) = true) (hm : orderHolds op m c) : orderHolds op' m g := by
  cases op with
  | lt =>
    simp only [orderConditionImplies, and_eq_true, or_eq_true, decide_eq_true_eq] at h
    obtain ⟨rfl | rfl, hle⟩ := h
    · exact lt_of_lt_of_le hm hle
    · exact (lt_of_lt_of_le hm hle).le
  | le =>
    simp only [orderConditionImplies, and_eq_true, or_eq_true, decide_eq_true_eq] at h
    rcases h with ⟨rfl, hlt⟩ | ⟨rfl, hle⟩
    · exact lt_of_le_of_lt hm hlt
    · exact le_trans hm hle
  | gt =>
    simp only [orderConditionImplies, and_eq_true, or_eq_true, decide_eq_true_eq] at h
    obtain ⟨rfl | rfl, hle⟩ := h
    · exact lt_of_le_of_lt hle hm
    · exact (lt_of_le_of_lt hle hm).le
  | ge =>
    simp only [orderConditionImplies, and_eq_true, or_eq_true, decide_eq_true_eq] at h
    rcases h with ⟨rfl, hlt⟩ | ⟨rfl, hle⟩
    · exact lt_of_lt_of_le hlt hm
    · exact le_trans hle hm
  | _ => cases hm

/-! ## Implications between comparisons -/

theorem numbers_of_numCmp {a b : LiteralValue} {cmp : ℚ → ℚ → Bool} (h : numCmp a b cmp = true) :
    ∃ m n, a = .number m ∧ b = .number n ∧ cmp m n = true := by
  unfold numCmp at h
  split at h
  · exact ⟨_, _, rfl, rfl, h⟩
  · cases h

/-- A column that equals a scalar satisfies what the test says it does, unless that is `!= NULL`. -/
theorem equalityImplies_sound {coveringValue : LiteralValue} {coveringOp : SimpleOperator}
    (h : equalityImplies value coveringOp coveringValue = true) (hscalar : isNonNullScalar value = true)
    (hnull : ¬ (coveringOp = .ne ∧ coveringValue = .null)) (hrow : row.get name = literalToValue value) :
    simpleHolds coveringOp (.column name) (.literal coveringValue) row = true := by
  have hvalue : literalToValue value ≠ .null := by
    rw [Ne, literalToValue_eq_null]
    rintro rfl
    cases hscalar
  have hnonNull : row.get name ≠ .null := hrow ▸ hvalue
  have horder : ∀ {op : SimpleOperator} {cmp : ℚ → ℚ → Bool}, isNumericOrderOp op = true →
      (∀ m n, cmp m n = true → orderHolds op m n) → numCmp value coveringValue cmp = true →
      simpleHolds op (.column name) (.literal coveringValue) row = true := by
    intro op cmp hop hcmp hnum
    obtain ⟨m, n, rfl, rfl, hmn⟩ := numbers_of_numCmp hnum
    exact (simpleHolds_order hop).mpr ⟨m, hrow, hcmp m n hmn⟩
  cases coveringOp with
  | eq =>
    obtain rfl : value = coveringValue := by simpa [equalityImplies] using h
    rw [simpleHolds_column (by simp) (by simp)]
    exact ⟨hvalue, hnonNull, by simp [evalNonNullOp, hrow]⟩
  | is =>
    obtain rfl : value = coveringValue := by simpa [equalityImplies] using h
    exact simpleHolds_is.mpr hrow
  | ne =>
    have hne : value ≠ coveringValue := by simpa [equalityImplies] using h
    rw [simpleHolds_column (by simp) (by simp)]
    refine ⟨fun heq => hnull ⟨rfl, literalToValue_eq_null.mp heq⟩, hnonNull, ?_⟩
    simp [evalNonNullOp, hrow, literalToValue_injective.eq_iff, hne]
  | isNot =>
    have hne : value ≠ coveringValue := by simpa [equalityImplies] using h
    rw [simpleHolds_isNot, hrow]
    exact fun heq => hne (literalToValue_injective heq)
  | inList =>
    cases coveringValue with
    | array values =>
      have hmem : value ∈ values := by simpa [equalityImplies, literalArrayIncludes] using h
      rw [simpleHolds_column (by simp) (by simp)]
      refine ⟨by simp [literalToValue], hnonNull, ?_⟩
      simp only [evalNonNullOp, literalToValue, inSet, literalsToValues_eq, hrow, Option.some.injEq, any_eq_true,
        decide_eq_true_eq]
      exact ⟨_, mem_map_of_mem hmem, rfl⟩
    | _ => cases h
  | lt | le | gt | ge => exact horder rfl (fun m n hmn => by simpa [orderHolds] using hmn) h
  | _ => cases h

theorem get_of_equality (hop : isEqualityOp op = true)
    (h : simpleHolds op (.column name) (.literal value) row = true) : row.get name = literalToValue value := by
  cases op with
  | eq =>
    rw [simpleHolds_column (by simp) (by simp)] at h
    simpa [evalNonNullOp] using h.2.2
  | is => exact simpleHolds_is.mp h
  | _ => cases hop

theorem inImplies_sound {values others : List LiteralValue}
    (hincluded : values.all (literalArrayIncludes others) = true)
    (h : simpleHolds .inList (.column name) (.literal (.array values)) row = true) :
    simpleHolds .inList (.column name) (.literal (.array others)) row = true := by
  rw [simpleHolds_column (by simp) (by simp)] at h ⊢
  obtain ⟨-, hnonNull, hin⟩ := h
  refine ⟨by simp [literalToValue], hnonNull, ?_⟩
  simp only [evalNonNullOp, literalToValue, inSet, literalsToValues_eq, Option.some.injEq, any_eq_true,
    mem_map, exists_exists_and_eq_and] at hin ⊢
  obtain ⟨value, hmem, hvalue⟩ := hin
  have hother := all_eq_true.mp hincluded value hmem
  rw [literalArrayIncludes, any_eq_true] at hother
  obtain ⟨other, hother, heq⟩ := hother
  exact ⟨other, hother, (of_decide_eq_true heq) ▸ hvalue⟩

/-- The rules for a column and two literals are sound, but for `!= NULL`. -/
theorem literalImplies_sound {value' : LiteralValue} (himplies : literalImplies op value op' value' = true)
    (hnull : ¬ (op' = .ne ∧ value' = .null)) (h : simpleHolds op (.column name) (.literal value) row = true) :
    simpleHolds op' (.column name) (.literal value') row = true := by
  rw [literalImplies] at himplies
  split at himplies
  · next hequality =>
    rw [and_eq_true] at hequality
    exact equalityImplies_sound himplies hequality.2 hnull (get_of_equality hequality.1 h)
  · split at himplies
    · next included hincluded =>
      split at hincluded
      · next hin =>
        obtain ⟨rfl, rfl⟩ := hin
        unfold inImplies at hincluded
        split at hincluded
        · cases hincluded
          exact inImplies_sound himplies h
        · cases hincluded
      · cases hincluded
    · split at himplies
      · next horder =>
        rw [and_eq_true] at horder
        cases value with
        | number =>
          cases value' with
          | number =>
            obtain ⟨m, hm, hholds⟩ := (simpleHolds_order horder.1).mp h
            exact (simpleHolds_order horder.2).mpr ⟨m, hm, orderConditionImplies_sound himplies hholds⟩
          | _ => cases himplies
        | _ => cases himplies
      · cases himplies

/-! ## Covering -/

/-- A comparison other than `!= NULL`. -/
def NotNeNull (op : SimpleOperator) (_left right : ValuePosition) : Prop := ¬ (op = .ne ∧ right = .literal .null)

/-- No comparison of a level is `!= NULL`. -/
def NoNeNull (ast : Ast) : Prop := ∀ condition ∈ ast.where_, ∀ op left right,
  Condition.simple op left right ∈ leaves condition → NotNeNull op left right

/-- No comparison of a condition and of its subqueries is `!= NULL`. -/
def NoNeNullIn (condition : Condition) : Prop :=
  (∀ op left right, Condition.simple op left right ∈ leaves condition → NotNeNull op left right) ∧
    ∀ hop ∈ hopsOf condition, Everywhere NoNeNull hop.2.query

section Database

variable (source : Source) (sourceOrder : String → Option QueryOrdering → QueryOrdering)

/-- A query produces the rows of another: under every constraint every row of the other is a row of
the query, and every related subquery of the other has one of the query, under the same alias and
correlation, that produces its rows. -/
inductive Covers : Ast → Ast → Prop where
  | intro (covered covering : Ast)
      (rows : ∀ constraint, (meaning source sourceOrder covered).rows constraint ⊆
        (meaning source sourceOrder covering).rows constraint)
      (matched : CorrelatedSubquery → CorrelatedSubquery)
      (mem : ∀ c ∈ covered.related, matched c ∈ covering.related)
      (named : ∀ c ∈ covered.related, c.correlation = (matched c).correlation ∧
        c.subquery.alias_ = (matched c).subquery.alias_)
      (subqueries : ∀ c ∈ covered.related, Covers c.subquery (matched c).subquery) : Covers covered covering

variable {source sourceOrder} {covered covering : Ast} {conditions : List Condition}

theorem covers_iff : Covers source sourceOrder covered covering ↔
    (∀ constraint, (meaning source sourceOrder covered).rows constraint ⊆
        (meaning source sourceOrder covering).rows constraint) ∧
      ∀ c ∈ covered.related, ∃ g ∈ covering.related, c.correlation = g.correlation ∧
        c.subquery.alias_ = g.subquery.alias_ ∧ Covers source sourceOrder c.subquery g.subquery := by
  constructor
  · rintro ⟨_, _, rows, matched, mem, named, subqueries⟩
    exact ⟨rows, fun c hc => ⟨matched c, mem c hc, (named c hc).1, (named c hc).2, subqueries c hc⟩⟩
  · rintro ⟨rows, related⟩
    choose! matched hmatched using related
    exact .intro covered covering rows matched (fun c hc => (hmatched c hc).1)
      (fun c hc => ⟨(hmatched c hc).2.1, (hmatched c hc).2.2.1⟩) (fun c hc => (hmatched c hc).2.2.2)

/-- Covering depends on the meaning of the two queries only. -/
theorem Covers.of_sameMeaning {covered' covering' : Ast} (hcovered : SameMeaning source sourceOrder covered covered')
    (hcovering : SameMeaning source sourceOrder covering covering')
    (h : Covers source sourceOrder covered' covering') : Covers source sourceOrder covered covering := by
  induction covered generalizing covering covered' covering' with
  | level covered ih =>
    obtain ⟨hrows, hrelated⟩ := covers_iff.mp h
    obtain ⟨hsame, matched, hmatched, hperm⟩ := sameMeaning_iff.mp hcovered
    obtain ⟨hsame', matched', hmatched', hperm'⟩ := sameMeaning_iff.mp hcovering
    refine covers_iff.mpr ⟨fun constraint => ?_, fun c hc => ?_⟩
    · rw [← hsame, ← hsame']
      exact hrows constraint
    · obtain ⟨c', hc', hcorrelation, halias, hmeaning⟩ := forall₂_exists_right hmatched hc
      obtain ⟨g', hg', hcorrelation', halias', hcovers⟩ := hrelated c' (hperm.mem_iff.mp hc')
      obtain ⟨g, hg, hcorrelation'', halias'', hmeaning'⟩ := forall₂_exists_left hmatched' (hperm'.mem_iff.mpr hg')
      refine ⟨g, hg, hcorrelation.trans (hcorrelation'.trans hcorrelation''.symm),
        halias.trans (halias'.trans halias''.symm), ?_⟩
      exact ih (subOf c) (mem_append_left _ (mem_map_of_mem hc)) hmeaning hmeaning' hcovers

/-! ## Rows of covered queries -/

theorem limited_subset {γ : Type} (limit : Option ℚ) (rows : List γ) : limited limit rows ⊆ rows := by
  cases limit with
  | none => exact List.Subset.refl _
  | some => exact take_subset _ _

theorem limitOf_mono {a b : ℚ} (h : a ≤ b) : limitOf a ≤ limitOf b :=
  min_le_min_right _ (Int.toNat_le_toNat (Int.floor_mono h))

theorem rows_eq (ast : Ast) (constraint : Option Constraint) :
    (meaning source sourceOrder ast).rows constraint = limited ast.limit
      ((source.fetch ast.table (sourceOrder ast.table ast.orderBy) constraint (ast.start.map startOf)).filter
        (fun row => ast.where_.all (holdsIn source sourceOrder row))) := by
  rw [meaning_rows]
  refine congrArg (limited ast.limit) (filter_congr (fun row _ => ?_))
  rw [where_holds]

variable (source sourceOrder) in
/-- A condition implies another on every row. -/
def Implies (covered covering : Option Condition) : Prop :=
  ∀ row, covered.all (holdsIn source sourceOrder row) = true → covering.all (holdsIn source sourceOrder row) = true

variable {constraint : Option Constraint} {ast : Ast} {row : Row}

/-- A query without a limit keeps every row that satisfies its condition and comes after its start. -/
theorem mem_rows_of_unlimited (hlimit : ast.limit = none) : row ∈ (meaning source sourceOrder ast).rows constraint ↔
      (row ∈ source.rows ast.table ∧ constraintMatches constraint row = true ∧
        startMatches (sourceOrder ast.table ast.orderBy) (ast.start.map startOf) row = true) ∧
      ast.where_.all (holdsIn source sourceOrder row) = true := by
  rw [rows_eq, hlimit, limited, mem_filter, source.mem_fetch]

/-- What the rows of a query have in common. -/
theorem mem_rows (h : row ∈ (meaning source sourceOrder ast).rows constraint) :
    (row ∈ source.rows ast.table ∧ constraintMatches constraint row = true ∧
        startMatches (sourceOrder ast.table ast.orderBy) (ast.start.map startOf) row = true) ∧
      ast.where_.all (holdsIn source sourceOrder row) = true := by
  rw [rows_eq] at h
  rw [← source.mem_fetch]
  exact mem_filter.mp (limited_subset _ _ h)

/-- The rules for starts and limits are sound. -/
theorem rows_subset_of_bounds {equivalent : Bool} (htable : covered.table = covering.table)
    (himplies : Implies source sourceOrder covered.where_ covering.where_)
    (hequivalent : equivalent = true → Implies source sourceOrder covering.where_ covered.where_)
    (h : boundsCoveredBy equivalent covered covering = true) (constraint : Option Constraint) :
    (meaning source sourceOrder covered).rows constraint ⊆ (meaning source sourceOrder covering).rows constraint := by
  unfold boundsCoveredBy at h
  cases hlimit : covering.limit with
  | none =>
    intro row hrow
    obtain ⟨⟨hmem, hconstraint, hstart⟩, hwhere⟩ := mem_rows hrow
    refine (mem_rows_of_unlimited hlimit).mpr ⟨⟨htable ▸ hmem, hconstraint, ?_⟩, himplies row hwhere⟩
    simp only [hlimit] at h
    cases hbound : covering.start with
    | none => rfl
    | some =>
      simp only [hbound, and_eq_true, decide_eq_true_eq] at h
      rwa [htable, h.1, h.2] at hstart
  | some =>
    cases hcovered : covered.limit with
    | none =>
      simp only [hlimit, hcovered] at h
      cases h
    | some =>
      simp only [hlimit, hcovered] at h
      split at h
      · cases h
      · next hle =>
        simp only [and_eq_true, decide_eq_true_eq] at h
        obtain ⟨⟨hequal, hstart⟩, horder⟩ := h
        have hwhere : ∀ row, covered.where_.all (holdsIn source sourceOrder row) =
            covering.where_.all (holdsIn source sourceOrder row) :=
          fun row => eq_iff_iff.mpr ⟨himplies row, hequivalent hequal row⟩
        rw [rows_eq, rows_eq, hlimit, hcovered, htable, hstart, horder]
        simp only [hwhere]
        exact take_subset_take_left _ (limitOf_mono (not_lt.mp hle))

/-! ## Soundness -/

theorem NoNeNullIn.arm (isAnd : Bool) (h : NoNeNullIn (junction isAnd conditions))
    {c : Condition} (hc : c ∈ conditions) : NoNeNullIn c := by
  rw [NoNeNullIn, leaves_junction, hopsOf_junction] at h
  exact ⟨fun op left right hleaf => h.1 op left right (mem_flatMap.mpr ⟨c, hc, hleaf⟩),
    fun hop hhop => h.2 hop (mem_flatMap.mpr ⟨c, hc, hhop⟩)⟩

theorem NoNeNullIn.of_level (h : Everywhere NoNeNull ast) {condition : Condition}
    (hcondition : condition ∈ ast.where_) : NoNeNullIn condition :=
  ⟨h.level condition hcondition, fun _ hhop => h.sub (hop_mem_subs hcondition hhop)⟩

theorem holdsIn_and : holdsIn source sourceOrder row (.and conditions) = true ↔
      ∀ c ∈ conditions, holdsIn source sourceOrder row c = true := by
  have heval : holdsIn source sourceOrder row (.and conditions) = conditions.all (holdsIn source sourceOrder row) :=
    evaluates_holdsIn source sourceOrder row true conditions
  rw [heval, all_eq_true]

theorem holdsIn_or : holdsIn source sourceOrder row (.or conditions) = true ↔
      ∃ c ∈ conditions, holdsIn source sourceOrder row c = true := by
  have heval : holdsIn source sourceOrder row (.or conditions) = conditions.any (holdsIn source sourceOrder row) :=
    evaluates_holdsIn source sourceOrder row false conditions
  rw [heval, any_eq_true]

/-- An implication between comparisons holds of every row. -/
theorem simpleConditionImplies_sound {op' : SimpleOperator} {left right left' right' : ValuePosition}
    (himplies : simpleConditionImplies op left right op' left' right' = true) (hnull : NotNeNull op' left' right')
    (h : simpleHolds op left right row = true) : simpleHolds op' left' right' row = true := by
  unfold simpleConditionImplies at himplies
  split at himplies
  · next column value column' value' hcovered hcovering =>
    rw [and_eq_true, decide_eq_true_eq] at himplies
    obtain ⟨rfl, himplies⟩ := himplies
    unfold columnLiteral at hcovered hcovering
    split at hcovered
    · cases hcovered
      split at hcovering
      · cases hcovering
        refine literalImplies_sound himplies (fun hne => hnull ⟨hne.1, ?_⟩) h
        rw [hne.2]
      · cases hcovering
    · cases hcovered
  · cases himplies

/-- A subquery that covers another has a row wherever the other has one. -/
theorem existHolds_of_covers {related related' : CorrelatedSubquery} (hedge : sameRelatedEdge related related' = true)
    {op : ExistsOp} (hexist : op = .exist → Covers source sourceOrder related.subquery related'.subquery)
    (hnotExist : op = .notExist → Covers source sourceOrder related'.subquery related.subquery)
    (h : existHolds op ((subOf related).map (meaning source sourceOrder)) row = true) :
    existHolds op ((subOf related').map (meaning source sourceOrder)) row = true := by
  have hcorrelation : related.correlation = related'.correlation := by
    simp only [sameRelatedEdge, and_eq_true, decide_eq_true_eq] at hedge
    exact hedge.1.1.1
  have hconstraint : ((subOf related).map (meaning source sourceOrder)).constraint row =
      ((subOf related').map (meaning source sourceOrder)).constraint row := by
    simp only [Subquery.constraint, Subquery.map, subOf, hcorrelation]
  cases op with
  | exist =>
    have hrows := (covers_iff.mp (hexist rfl)).1 (((subOf related).map (meaning source sourceOrder)).constraint row)
    simp only [existHolds, not_eq_true', isEmpty_eq_false_iff] at h ⊢
    rw [← hconstraint]
    exact fun hnil => h (subset_nil.mp (hnil ▸ hrows))
  | notExist =>
    have hrows := (covers_iff.mp (hnotExist rfl)).1 (((subOf related).map (meaning source sourceOrder)).constraint row)
    simp only [existHolds, List.isEmpty_iff] at h ⊢
    rw [← hconstraint]
    exact subset_nil.mp (h ▸ hrows)

variable (source sourceOrder) in
/-- The test is sound for queries and conditions up to a size. -/
structure SoundBelow (n : ℕ) : Prop where
  ast : ∀ covered covering : Ast, sizeOf covered + sizeOf covering < n → Everywhere NoNeNull covered →
    Everywhere NoNeNull covering → astCoveredBy covered covering = true → Covers source sourceOrder covered covering
  condition : ∀ covered covering : Condition, sizeOf covered + sizeOf covering < n → NoNeNullIn covered →
    NoNeNullIn covering → conditionImplies covered covering = true →
      ∀ row, holdsIn source sourceOrder row covered = true → holdsIn source sourceOrder row covering = true

variable {n : ℕ}

/-- One step of the test on conditions. -/
theorem SoundBelow.condition_step (h : SoundBelow source sourceOrder n) {covered covering : Condition}
    (hsize : sizeOf covered + sizeOf covering < n + 1) (hcovered : NoNeNullIn covered)
    (hcovering : NoNeNullIn covering) (himplies : conditionImplies covered covering = true) (row : Row)
    (hrow : holdsIn source sourceOrder row covered = true) : holdsIn source sourceOrder row covering = true := by
  rcases conditionImplies_cases himplies with rfl | ⟨conditions, rfl, hall⟩ | ⟨conditions, rfl, g, hg, hany⟩ |
    ⟨conditions, rfl, hall⟩ | ⟨conditions, rfl, c, hc, hany⟩ | ⟨op, left, right, op', left', right', rfl, rfl, hsimple⟩ |
    ⟨related, op, flip, scalar, planId, related', flip', planId', rfl, rfl, hedge, hexist, hnotExist⟩
  · exact hrow
  · obtain ⟨c, hc, hholds⟩ := holdsIn_or.mp hrow
    have hlt := sizeOf_lt_of_mem hc
    rw [or.sizeOf_spec] at hsize
    exact h.condition c covering (by omega) (.arm false hcovered hc) hcovering (hall c hc) row hholds
  · have hlt := sizeOf_lt_of_mem hg
    rw [or.sizeOf_spec] at hsize
    exact holdsIn_or.mpr ⟨g, hg, h.condition covered g (by omega) hcovered (.arm false hcovering hg) hany row hrow⟩
  · refine holdsIn_and.mpr (fun g hg => ?_)
    have hlt := sizeOf_lt_of_mem hg
    rw [and.sizeOf_spec] at hsize
    exact h.condition covered g (by omega) hcovered (.arm true hcovering hg) (hall g hg) row hrow
  · have hlt := sizeOf_lt_of_mem hc
    rw [and.sizeOf_spec] at hsize
    exact h.condition c covering (by omega) (.arm true hcovered hc) hcovering hany row
      (holdsIn_and.mp hrow c hc)
  · exact simpleConditionImplies_sound hsimple (hcovering.1 op' left' right' (mem_singleton_self _)) hrow
  · rw [holdsIn_correlated] at hrow ⊢
    have hlt := sizeOf_subquery_lt related
    have hlt' := sizeOf_subquery_lt related'
    rw [correlatedSubquery.sizeOf_spec, correlatedSubquery.sizeOf_spec] at hsize
    have hsub : Everywhere NoNeNull related.subquery :=
      hcovered.2 (op, subOf related) (by rw [hopsOf_correlated]; exact mem_singleton_self _)
    have hsub' : Everywhere NoNeNull related'.subquery :=
      hcovering.2 (op, subOf related') (by rw [hopsOf_correlated]; exact mem_singleton_self _)
    exact existHolds_of_covers hedge (fun hop => h.ast _ _ (by omega) hsub hsub' (hexist hop))
      (fun hop => h.ast _ _ (by omega) hsub' hsub (hnotExist hop)) hrow

theorem SoundBelow.where_step (h : SoundBelow source sourceOrder n)
    (hsize : sizeOf covered.where_ + sizeOf covering.where_ < n + 1) (hcovered : Everywhere NoNeNull covered)
    (hcovering : Everywhere NoNeNull covering) (himplies : whereImplies covered.where_ covering.where_ = true) :
    Implies source sourceOrder covered.where_ covering.where_ := by
  intro row hrow
  cases hg : covering.where_ with
  | none => rfl
  | some g =>
    cases hc : covered.where_ with
    | none =>
      rw [hc, hg, whereImplies] at himplies
      cases himplies
    | some c =>
      rw [hc, hg, whereImplies] at himplies
      rw [hc, hg, Option.some.sizeOf_spec, Option.some.sizeOf_spec] at hsize
      rw [hc] at hrow
      exact h.condition c g (by omega) (.of_level hcovered hc) (.of_level hcovering hg) himplies row hrow

theorem sizeOf_where_lt (ast : Ast) : sizeOf ast.where_ < sizeOf ast := by
  cases ast
  simp only [Ast.where_, mk.sizeOf_spec]
  omega

theorem sizeOf_related_lt (ast : Ast) : sizeOf ast.related < sizeOf ast := by
  cases ast
  simp only [Ast.related, mk.sizeOf_spec]
  omega

/-- One step of the test on queries. -/
theorem SoundBelow.ast_step (h : SoundBelow source sourceOrder n)
    (hsize : sizeOf covered + sizeOf covering < n + 1) (hcovered : Everywhere NoNeNull covered)
    (hcovering : Everywhere NoNeNull covering) (hcovers : astCoveredBy covered covering = true) :
    Covers source sourceOrder covered covering := by
  obtain ⟨-, htable, -, hwhere, hrelated, hbounds⟩ := astCoveredBy_iff.mp hcovers
  have hlt := sizeOf_where_lt covered
  have hlt' := sizeOf_where_lt covering
  have himplies := h.where_step (by omega) hcovered hcovering hwhere
  refine covers_iff.mpr ⟨rows_subset_of_bounds htable himplies (fun hequivalent => ?_) hbounds, fun c hc => ?_⟩
  · rw [and_eq_true] at hequivalent
    exact h.where_step (by omega) hcovering hcovered hequivalent.2
  · obtain ⟨g, hg, hedge, hsub⟩ := hrelated c hc
    simp only [sameRelatedEdge, and_eq_true, decide_eq_true_eq] at hedge
    have hc' := sizeOf_lt_of_mem hc
    have hg' := sizeOf_lt_of_mem hg
    have hrel := sizeOf_related_lt covered
    have hrel' := sizeOf_related_lt covering
    have hquery := sizeOf_subquery_lt c
    have hquery' := sizeOf_subquery_lt g
    have hinner := hcovered.sub (mem_append_left _ (mem_map_of_mem hc) : subOf c ∈ (queryOf covered).subs)
    have hinner' := hcovering.sub (mem_append_left _ (mem_map_of_mem hg) : subOf g ∈ (queryOf covering).subs)
    exact ⟨g, hg, hedge.1.1.1, hedge.2, h.ast c.subquery g.subquery (by omega) hinner hinner' hsub⟩

theorem soundBelow (n : ℕ) : SoundBelow source sourceOrder n := by
  induction n with
  | zero => exact ⟨fun _ _ hsize => absurd hsize (Nat.not_lt_zero _), fun _ _ hsize => absurd hsize (Nat.not_lt_zero _)⟩
  | succ n ih =>
    exact ⟨fun covered covering hsize hcovered hcovering => ih.ast_step hsize hcovered hcovering,
      fun covered covering hsize hcovered hcovering => ih.condition_step hsize hcovered hcovering⟩

end Database

theorem normalizeAst_comparison (op : SimpleOperator) (left right : ValuePosition) :
    normalizeAst insertionSorter (fun _ => "") (issuesWhere (.simple op left right)) =
      some (issuesWhere (.simple op left right)) := by
  have hwhere : normalizedWhere insertionSorter (fun _ => "") (some (.simple op left right)) =
      some (some (.simple op left right)) := by
    rw [normalizedWhere_eq rfl, normalFormOf_leaf rfl, normalizeWhere_simple]
    rfl
  exact normalizeAst_of hwhere .nil rfl

theorem isQueryCoveredBy_comparisons {left right left' right' : ValuePosition}
    (h : simpleConditionImplies op left right op' left' right' = true) :
    isQueryCoveredBy insertionSorter (fun _ => "") (issuesWhere (.simple op left right))
      (issuesWhere (.simple op' left' right')) = some true := by
  rw [isQueryCoveredBy, normalizeAst_comparison, normalizeAst_comparison]
  have hcovered : astCoveredBy (issuesWhere (.simple op left right)) (issuesWhere (.simple op' left' right')) = true := by
    refine astCoveredBy_iff.mpr ⟨rfl, rfl, rfl, ?_, (fun c hc => by cases hc), rfl⟩
    rw [issuesWhere, issuesWhere, where_, where_, whereImplies, conditionImplies.eq_def]
    simp [h]
  rw [← hcovered]
  rfl

/-- One of two ids. -/
def idAmong : Condition := .simple .inList (.column "id") (.literal (.array [.string "i", .string "j"]))

/-- An id that is not NULL, as a comparison that is never true. -/
def idNotNull : Condition := .simple .ne (.column "id") (.literal .null)

theorem neutral_comparison (op : SimpleOperator) (left right : ValuePosition) :
    Everywhere NeutralLevel (issuesWhere (.simple op left right)) := by
  refine everywhere_issuesWhere (fun condition hcondition => ?_) rfl
  obtain rfl : simple op left right = condition := Option.some.inj hcondition
  exact ⟨rfl, rfl⟩

theorem noNeNull_comparison (left right : ValuePosition) (hop : op ≠ .ne) :
    Everywhere NoNeNull (issuesWhere (.simple op left right)) := by
  refine everywhere_issuesWhere (fun condition hcondition op' left' right' hleaf => ?_) rfl
  obtain rfl : simple op left right = condition := Option.some.inj hcondition
  cases mem_singleton.mp hleaf
  exact fun hne => hop hne.1

end ZeroCache.ViewSyncer
