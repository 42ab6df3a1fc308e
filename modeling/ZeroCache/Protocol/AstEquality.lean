import ZeroCache.Protocol.QueryHash

/-!
# Equality of queries

Queries and conditions are compared field by field (the derived `PartialEq` of `ast.rs`).
-/

namespace ZeroCache

instance : DecidableEq LiteralValue := fun a b =>
  decidable_of_iff (literalToValue a = literalToValue b) Protocol.literalToValue_injective.eq_iff

deriving instance DecidableEq for ValuePosition

deriving instance DecidableEq for Bound

mutual
/-- Two queries are equal. -/
def Ast.same : Ast → Ast → Bool
  | .mk schema table alias_ where_ related start limit orderBy,
    .mk schema' table' alias_' where_' related' start' limit' orderBy' =>
    schema = schema' && table = table' && alias_ = alias_' && start = start' && limit = limit' && orderBy = orderBy' &&
      sameWhere where_ where_' && sameRelated related related'

/-- Two optional conditions are equal. -/
def sameWhere : Option Condition → Option Condition → Bool
  | none, none => true
  | some a, some b => a.same b
  | _, _ => false

/-- Two conditions are equal. -/
def Condition.same : Condition → Condition → Bool
  | .simple op left right, .simple op' left' right' => op = op' && left = left' && right = right'
  | .and conditions, .and conditions' => sameConditions conditions conditions'
  | .or conditions, .or conditions' => sameConditions conditions conditions'
  | .correlatedSubquery related op flip scalar planId, .correlatedSubquery related' op' flip' scalar' planId' =>
    op = op' && flip = flip' && scalar = scalar' && planId = planId' && related.same related'
  | _, _ => false

/-- Two lists of conditions are equal. -/
def sameConditions : List Condition → List Condition → Bool
  | [], [] => true
  | a :: as, b :: bs => a.same b && sameConditions as bs
  | _, _ => false

/-- Two correlated subqueries are equal. -/
def CorrelatedSubquery.same : CorrelatedSubquery → CorrelatedSubquery → Bool
  | .mk correlation subquery system hidden, .mk correlation' subquery' system' hidden' =>
    correlation = correlation' && system = system' && hidden = hidden' && subquery.same subquery'

/-- Two lists of correlated subqueries are equal. -/
def sameRelated : List CorrelatedSubquery → List CorrelatedSubquery → Bool
  | [], [] => true
  | a :: as, b :: bs => a.same b && sameRelated as bs
  | _, _ => false
end

mutual
/-- The test decides equality of queries. -/
theorem Ast.same_iff : ∀ a b : Ast, a.same b = true ↔ a = b
  | .mk schema table alias_ where_ related start limit orderBy, b => by
    obtain ⟨schema', table', alias_', where_', related', start', limit', orderBy'⟩ := b
    simp only [Ast.same, Bool.and_eq_true, decide_eq_true_eq, sameWhere_iff where_ where_',
      sameRelated_iff related related', Ast.mk.injEq]
    tauto

theorem sameWhere_iff : ∀ a b : Option Condition, sameWhere a b = true ↔ a = b
  | none, b => by cases b <;> simp [sameWhere]
  | some a, b => by
    cases b with
    | none => simp [sameWhere]
    | some b => simp [sameWhere, Condition.same_iff a b]

theorem Condition.same_iff : ∀ a b : Condition, a.same b = true ↔ a = b
  | .simple op left right, b => by
    cases b with
    | simple op' left' right' => simp [Condition.same, and_assoc]
    | _ => simp [Condition.same]
  | .and conditions, b => by
    cases b with
    | and conditions' => simp [Condition.same, sameConditions_iff conditions conditions']
    | _ => simp [Condition.same]
  | .or conditions, b => by
    cases b with
    | or conditions' => simp [Condition.same, sameConditions_iff conditions conditions']
    | _ => simp [Condition.same]
  | .correlatedSubquery related op flip scalar planId, b => by
    cases b with
    | correlatedSubquery related' op' flip' scalar' planId' =>
      simp only [Condition.same, Bool.and_eq_true, decide_eq_true_eq, CorrelatedSubquery.same_iff related related',
        Condition.correlatedSubquery.injEq]
      tauto
    | _ => simp [Condition.same]

theorem sameConditions_iff : ∀ as bs : List Condition, sameConditions as bs = true ↔ as = bs
  | [], bs => by cases bs <;> simp [sameConditions]
  | a :: as, bs => by
    cases bs with
    | nil => simp [sameConditions]
    | cons b bs => simp [sameConditions, Condition.same_iff a b, sameConditions_iff as bs]

theorem CorrelatedSubquery.same_iff : ∀ a b : CorrelatedSubquery, a.same b = true ↔ a = b
  | .mk correlation subquery system hidden, b => by
    obtain ⟨correlation', subquery', system', hidden'⟩ := b
    simp only [CorrelatedSubquery.same, Bool.and_eq_true, decide_eq_true_eq, Ast.same_iff subquery subquery',
      CorrelatedSubquery.mk.injEq]
    tauto

theorem sameRelated_iff : ∀ as bs : List CorrelatedSubquery, sameRelated as bs = true ↔ as = bs
  | [], bs => by cases bs <;> simp [sameRelated]
  | a :: as, bs => by
    cases bs with
    | nil => simp [sameRelated]
    | cons b bs => simp [sameRelated, CorrelatedSubquery.same_iff a b, sameRelated_iff as bs]
end

instance : DecidableEq Condition := fun a b => decidable_of_iff (a.same b = true) (Condition.same_iff a b)

end ZeroCache
