import ZeroCache.Data.Ast

/-!
# One level of a query

Most functions on queries recurse into the subqueries and treat one level at a time. A `Query α`
is one level whose subqueries are translated to `α`; `foldAst` translates a whole query by a
function on one level, and `Ast.induct` is the induction that goes with it.
-/

namespace ZeroCache.Zql

open List

/-- A subquery translated to `α`, with its alias and its correlation. -/
structure Subquery (α : Type) where
  alias_ : Option String
  correlation : Correlation
  query : α

/-- A condition with translated subqueries. -/
inductive Formula (α : Type) where
  | simple (op : SimpleOperator) (left right : ValuePosition)
  | and (formulas : List (Formula α))
  | or (formulas : List (Formula α))
  | exist (op : ExistsOp) (sub : Subquery α)

/-- One level of a query. -/
structure Query (α : Type) where
  table : String
  where_ : Option (Formula α)
  related : List (Subquery α)
  start : Option Bound
  limit : Option ℚ
  orderBy : Option QueryOrdering

variable {α β : Type}

/-- Translate a subquery. -/
def Subquery.map (f : α → β) (sub : Subquery α) : Subquery β :=
  { alias_ := sub.alias_, correlation := sub.correlation, query := f sub.query }

namespace Formula

/-- Induction over conditions, with the hypothesis for each arm of a conjunction or disjunction. -/
@[elab_as_elim, induction_eliminator]
theorem induct {P : Formula α → Prop} (simple : ∀ op left right, P (.simple op left right))
    (and : ∀ formulas, (∀ f ∈ formulas, P f) → P (.and formulas))
    (or : ∀ formulas, (∀ f ∈ formulas, P f) → P (.or formulas))
    (exist : ∀ op sub, P (.exist op sub)) (formula : Formula α) : P formula := by
  refine @Formula.rec α P (fun formulas => ∀ f ∈ formulas, P f) simple and or exist (by simp) ?_ formula
  intro head tail hhead htail f hf
  rcases mem_cons.mp hf with rfl | hmem
  · exact hhead
  · exact htail f hmem

mutual
/-- The correlated subqueries of a condition, from left to right (`gather_exists_conditions`). -/
def gather : Formula α → List (ExistsOp × Subquery α)
  | .simple _ _ _ => []
  | .and formulas => gatherAll formulas
  | .or formulas => gatherAll formulas
  | .exist op sub => [(op, sub)]

/-- The correlated subqueries of a list of conditions. -/
def gatherAll : List (Formula α) → List (ExistsOp × Subquery α)
  | [] => []
  | formula :: rest => gather formula ++ gatherAll rest
end

@[simp]
theorem gatherAll_eq (formulas : List (Formula α)) : gatherAll formulas = formulas.flatMap gather := by
  induction formulas with
  | nil => rfl
  | cons formula rest ih => rw [gatherAll, ih, flatMap_cons]

mutual
/-- Translate the subqueries of a condition. -/
def map (f : Subquery α → Subquery β) : Formula α → Formula β
  | .simple op left right => .simple op left right
  | .and formulas => .and (mapAll f formulas)
  | .or formulas => .or (mapAll f formulas)
  | .exist op sub => .exist op (f sub)

/-- Translate the subqueries of a list of conditions. -/
def mapAll (f : Subquery α → Subquery β) : List (Formula α) → List (Formula β)
  | [] => []
  | formula :: rest => map f formula :: mapAll f rest
end

variable (f : Subquery α → Subquery β)

@[simp]
theorem mapAll_eq (formulas : List (Formula α)) : mapAll f formulas = formulas.map (map f) := by
  induction formulas with
  | nil => rfl
  | cons formula rest ih => rw [mapAll, ih, map_cons]

@[simp]
theorem gather_map (formula : Formula α) :
    (formula.map f).gather = formula.gather.map (fun hop => (hop.1, f hop.2)) := by
  induction formula with
  | simple | exist => rfl
  | and formulas ih | or formulas ih =>
    simp only [map, gather, mapAll_eq, gatherAll_eq, flatMap_map, map_flatMap]
    exact flatMap_congr ih

/-- Translations that agree on the subqueries of a condition translate it alike. -/
theorem map_congr {f g : Subquery α → Subquery β} {formula : Formula α}
    (h : ∀ hop ∈ formula.gather, f hop.2 = g hop.2) : formula.map f = formula.map g := by
  induction formula with
  | simple => rfl
  | exist op sub => rw [map, map, h (op, sub) (by simp [gather])]
  | and formulas ih =>
    simp only [map, mapAll_eq, and.injEq]
    refine map_congr_left (fun arm harm => ih arm harm (fun hop hhop => h hop ?_))
    simpa [gather] using ⟨arm, harm, hhop⟩
  | or formulas ih =>
    simp only [map, mapAll_eq, or.injEq]
    refine map_congr_left (fun arm harm => ih arm harm (fun hop hhop => h hop ?_))
    simpa [gather] using ⟨arm, harm, hhop⟩

theorem map_map {γ : Type} (g : Subquery β → Subquery γ) (formula : Formula α) :
    (formula.map f).map g = formula.map (g ∘ f) := by
  induction formula with
  | simple | exist => rfl
  | and formulas ih | or formulas ih => simpa [map] using ih

end Formula

namespace Query

/-- Translate the subqueries of one level. -/
def map (f : α → β) (q : Query α) : Query β :=
  { table := q.table, where_ := q.where_.map (Formula.map (Subquery.map f)), related := q.related.map (Subquery.map f),
    start := q.start, limit := q.limit, orderBy := q.orderBy }

/-- The correlated subqueries of the condition. -/
def existHops (q : Query α) : List (ExistsOp × Subquery α) :=
  match q.where_ with
  | some formula => formula.gather
  | none => []

/-- All subqueries of one level. -/
def subs (q : Query α) : List (Subquery α) := q.related ++ q.existHops.map Prod.snd

theorem map_congr {f g : α → β} {q : Query α} (h : ∀ sub ∈ q.subs, f sub.query = g sub.query) :
    q.map f = q.map g := by
  have hsub : ∀ sub ∈ q.subs, sub.map f = sub.map g := by
    intro sub hmem
    rw [Subquery.map, Subquery.map, h sub hmem]
  have hwhere : q.where_.map (Formula.map (Subquery.map f)) = q.where_.map (Formula.map (Subquery.map g)) := by
    cases hformula : q.where_ with
    | none => rfl
    | some =>
      refine congrArg some (Formula.map_congr (fun hop hhop => hsub hop.2 ?_))
      refine mem_append_right _ (mem_map_of_mem ?_)
      rwa [existHops, hformula]
  rw [map, map, hwhere, map_congr_left (fun sub hmem => hsub sub (mem_append_left _ hmem))]

theorem map_map {γ : Type} (f : α → β) (g : β → γ) (q : Query α) : (q.map f).map g = q.map (g ∘ f) := by
  simp only [map, List.map_map, Option.map_map]
  congr 1
  refine congrFun (congrArg Option.map (funext (fun formula => ?_))) q.where_
  exact Formula.map_map _ _ formula

end Query

mutual
/-- Translate a query by a function on one level. -/
def foldAst (level : Query α → α) : Ast → α
  | .mk _ table _ where_ related start limit orderBy =>
    level
      { table := table
        where_ := match where_ with
          | some condition => some (foldCondition level condition)
          | none => none
        related := foldRelated level related
        start := start
        limit := limit
        orderBy := orderBy }

/-- Translate the subqueries of a condition. -/
def foldCondition (level : Query α → α) : Condition → Formula α
  | .simple op left right => .simple op left right
  | .and conditions => .and (foldConditions level conditions)
  | .or conditions => .or (foldConditions level conditions)
  | .correlatedSubquery (.mk correlation subquery _ _) op _ _ _ =>
    .exist op { alias_ := subquery.alias_, correlation := correlation, query := foldAst level subquery }

/-- Translate the subqueries of conditions. -/
def foldConditions (level : Query α → α) : List Condition → List (Formula α)
  | [] => []
  | condition :: rest => foldCondition level condition :: foldConditions level rest

/-- Translate related subqueries. -/
def foldRelated (level : Query α → α) : List CorrelatedSubquery → List (Subquery α)
  | [] => []
  | .mk correlation subquery _ _ :: rest =>
    { alias_ := subquery.alias_, correlation := correlation, query := foldAst level subquery } ::
      foldRelated level rest
end

mutual
/-- A condition with its subqueries as they are. -/
def formulaOf : Condition → Formula Ast
  | .simple op left right => .simple op left right
  | .and conditions => .and (formulasOf conditions)
  | .or conditions => .or (formulasOf conditions)
  | .correlatedSubquery (.mk correlation subquery _ _) op _ _ _ =>
    .exist op { alias_ := subquery.alias_, correlation := correlation, query := subquery }

/-- Conditions with their subqueries as they are. -/
def formulasOf : List Condition → List (Formula Ast)
  | [] => []
  | condition :: rest => formulaOf condition :: formulasOf rest
end

@[simp]
theorem formulasOf_eq (conditions : List Condition) : formulasOf conditions = conditions.map formulaOf := by
  induction conditions with
  | nil => rfl
  | cons condition rest ih => rw [formulasOf, ih, map_cons]

/-- Induction over conditions, with the hypotheses for each arm and for the condition of a subquery. -/
@[elab_as_elim, induction_eliminator]
theorem conditionInduct {P : Condition → Prop} (simple : ∀ op left right, P (.simple op left right))
    (and : ∀ conditions, (∀ c ∈ conditions, P c) → P (.and conditions))
    (or : ∀ conditions, (∀ c ∈ conditions, P c) → P (.or conditions))
    (exist : ∀ related op flip scalar planId, (∀ c ∈ related.subquery.where_, P c) →
      P (.correlatedSubquery related op flip scalar planId)) (condition : Condition) : P condition := by
  refine @Condition.rec (fun ast => ∀ c ∈ ast.where_, P c) P (fun related => ∀ c ∈ related.subquery.where_, P c)
    (fun where_ => ∀ c ∈ where_, P c) (fun _ => True) (fun conditions => ∀ c ∈ conditions, P c)
    ?_ simple and or exist ?_ ?_ ?_ trivial ?_ ?_ ?_ condition
  · exact fun _ _ _ where_ _ _ _ _ hwhere _ => hwhere
  · exact fun _ _ _ _ hsub => hsub
  · simp
  · rintro c hc _ ⟨⟩
    exact hc
  · intros
    trivial
  · simp
  · intro head tail hhead htail c hc
    rcases mem_cons.mp hc with rfl | hmem
    · exact hhead
    · exact htail c hmem

/-- A related subquery as it is. -/
def subOf (csq : CorrelatedSubquery) : Subquery Ast :=
  { alias_ := csq.subquery.alias_, correlation := csq.correlation, query := csq.subquery }

/-- The top level of a query, with its subqueries as they are. -/
def queryOf (ast : Ast) : Query Ast :=
  { table := ast.table, where_ := ast.where_.map formulaOf, related := ast.related.map subOf,
    start := ast.start, limit := ast.limit, orderBy := ast.orderBy }

mutual
theorem foldCondition_eq (level : Query α → α) :
    ∀ condition, foldCondition level condition = (formulaOf condition).map (Subquery.map (foldAst level))
  | .simple _ _ _ => rfl
  | .and conditions => by rw [foldCondition, formulaOf, Formula.map, foldConditions_eq level conditions]
  | .or conditions => by rw [foldCondition, formulaOf, Formula.map, foldConditions_eq level conditions]
  | .correlatedSubquery (.mk _ _ _ _) _ _ _ _ => by rw [foldCondition, formulaOf, Formula.map, Subquery.map]

theorem foldConditions_eq (level : Query α → α) :
    ∀ conditions, foldConditions level conditions = Formula.mapAll (Subquery.map (foldAst level)) (formulasOf conditions)
  | [] => rfl
  | condition :: rest => by
    rw [foldConditions, formulasOf, Formula.mapAll, foldCondition_eq level condition, foldConditions_eq level rest]
end

theorem foldRelated_eq (level : Query α → α) (related : List CorrelatedSubquery) :
    foldRelated level related = (related.map subOf).map (Subquery.map (foldAst level)) := by
  induction related with
  | nil => rfl
  | cons csq rest ih =>
    cases csq
    rw [foldRelated, ih]
    rfl

/-- A query is translated level by level. -/
theorem foldAst_eq (level : Query α → α) (ast : Ast) :
    foldAst level ast = level ((queryOf ast).map (foldAst level)) := by
  obtain ⟨schema, table, alias_, where_, related, start, limit, orderBy⟩ := ast
  cases where_ with
  | none =>
    simp only [foldAst, foldRelated_eq]
    rfl
  | some =>
    simp only [foldAst, foldRelated_eq, foldCondition_eq]
    rfl

/-- Induction over queries: a property that passes from the subqueries of a level to the level
holds of every query. -/
@[elab_as_elim, induction_eliminator]
theorem induct {P : Ast → Prop} (level : ∀ ast, (∀ sub ∈ (queryOf ast).subs, P sub.query) → P ast)
    (ast : Ast) : P ast := by
  refine @Ast.rec P (fun condition => ∀ hop ∈ (formulaOf condition).gather, P hop.2.query)
    (fun csq => P csq.subquery)
    (fun where_ => ∀ condition ∈ where_, ∀ hop ∈ (formulaOf condition).gather, P hop.2.query)
    (fun related => ∀ csq ∈ related, P csq.subquery)
    (fun conditions => ∀ hop ∈ Formula.gatherAll (formulasOf conditions), P hop.2.query)
    ?mk ?simple ?and ?or ?exist ?csq ?none ?some ?nil ?cons ?nilc ?consc ast
  case mk =>
    intro schema table alias_ where_ related start limit orderBy hwhere hrelated
    refine level _ (fun sub hsub => ?_)
    rcases mem_append.mp hsub with hmem | hmem
    · obtain ⟨csq, hcsq, rfl⟩ := mem_map.mp hmem
      exact hrelated csq hcsq
    · obtain ⟨hop, hhop, rfl⟩ := mem_map.mp hmem
      cases where_ with
      | none => simp [Query.existHops, queryOf, Ast.where_] at hhop
      | some condition => exact hwhere condition rfl hop hhop
  case simple =>
    intro op left right hop hhop
    simp [formulaOf, Formula.gather] at hhop
  case and => exact fun conditions ih => ih
  case or => exact fun conditions ih => ih
  case exist =>
    intro related op flip scalar planId hrelated hop hhop
    cases related
    rw [formulaOf, Formula.gather, mem_singleton] at hhop
    rw [hhop]
    exact hrelated
  case csq => exact fun correlation subquery system hidden ih => ih
  case none => simp
  case some =>
    intro condition ih c hc
    cases hc
    exact ih
  case nil => simp
  case cons =>
    intro csq rest hcsq hrest c hc
    rcases mem_cons.mp hc with rfl | hmem
    · exact hcsq
    · exact hrest c hmem
  case nilc => simp [formulasOf]
  case consc =>
    intro condition rest hcondition hrest hop hhop
    rcases mem_append.mp hhop with hmem | hmem
    · exact hcondition hop hmem
    · exact hrest hop hmem

/-- A function that turns one translation of a level into another does so for whole queries. -/
theorem foldAst_fusion {level : Query α → α} {level' : Query β → β} (f : α → β)
    (h : ∀ q, f (level q) = level' (q.map f)) (ast : Ast) : f (foldAst level ast) = foldAst level' ast := by
  induction ast with
  | level ast ih => rw [foldAst_eq, foldAst_eq, h, Query.map_map, Query.map_congr ih]

end ZeroCache.Zql
