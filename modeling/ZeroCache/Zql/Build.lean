import ZeroCache.Zql.Operator

/-!
# Building a pipeline

The operators of a query (`builder/pipeline.rs`): the source of its table, the start bound, the
condition, the limit and the joins of its related subqueries. Subqueries are built first, so a
level of the query carries the built pipelines of its subqueries, each waiting for the columns it
is partitioned by.
-/

namespace ZeroCache.Zql

open List

variable {α : Type}

/-! ## Conditions -/

namespace Formula

mutual
/-- Whether a condition has a correlated subquery (`condition_has_correlated`). -/
def hasCorrelated : Formula α → Bool
  | .simple _ _ _ => false
  | .and formulas => anyCorrelated formulas
  | .or formulas => anyCorrelated formulas
  | .exist _ _ => true

/-- Whether one of the conditions has a correlated subquery. -/
def anyCorrelated : List (Formula α) → Bool
  | [] => false
  | formula :: rest => hasCorrelated formula || anyCorrelated rest
end

mutual
/-- Whether a correlated subquery is below a disjunction (`condition_has_correlated_under_or`). -/
def underOr : Formula α → Bool
  | .simple _ _ _ => false
  | .and formulas => anyUnderOr formulas
  | .or formulas => anyCorrelated formulas
  | .exist _ _ => false

/-- Whether one of the conditions has a correlated subquery below a disjunction. -/
def anyUnderOr : List (Formula α) → Bool
  | [] => false
  | formula :: rest => underOr formula || anyUnderOr rest
end

mutual
/-- A condition without its correlated subqueries, if anything is left (`strip_correlated`). -/
def strip : Formula α → Option Condition
  | .simple op left right => some (.simple op left right)
  | .and formulas =>
    match stripAll formulas with
    | [] => none
    | [condition] => some condition
    | conditions => some (.and conditions)
  | .or formulas => some (.or (stripAll formulas))
  | .exist _ _ => none

/-- What is left of a list of conditions. -/
def stripAll : List (Formula α) → List Condition
  | [] => []
  | formula :: rest => (strip formula).toList ++ stripAll rest
end

mutual
/-- A condition without correlated subqueries, as a condition. -/
def plain : Formula α → Condition
  | .simple op left right => .simple op left right
  | .and formulas => .and (plainAll formulas)
  | .or formulas => .or (plainAll formulas)
  | .exist _ _ => .and []

/-- Conditions without correlated subqueries. -/
def plainAll : List (Formula α) → List Condition
  | [] => []
  | formula :: rest => plain formula :: plainAll rest
end

mutual
/-- Number the aliases of the correlated subqueries, from left to right (`uniquify_condition`). -/
def uniquifyFrom : Formula α → ℕ → Formula α × ℕ
  | .simple op left right, count => (.simple op left right, count)
  | .and formulas, count => ((uniquifyAll formulas count).1 |> .and, (uniquifyAll formulas count).2)
  | .or formulas, count => ((uniquifyAll formulas count).1 |> .or, (uniquifyAll formulas count).2)
  | .exist op sub, count =>
    (.exist op { sub with alias_ := some (sub.alias_.getD "" ++ "_" ++ toString count) }, count + 1)

/-- Number the aliases in a list of conditions. -/
def uniquifyAll : List (Formula α) → ℕ → List (Formula α) × ℕ
  | [], count => ([], count)
  | formula :: rest, count =>
    ((uniquifyFrom formula count).1 :: (uniquifyAll rest (uniquifyFrom formula count).2).1,
      (uniquifyAll rest (uniquifyFrom formula count).2).2)
end

/-- A conjunction or a disjunction. -/
def isCompound : Formula α → Bool
  | .and _ => true
  | .or _ => true
  | _ => false

/-- Number the aliases of a compound condition; any other is left as it is
(`uniquify_correlated_subquery_condition_aliases`). -/
def uniquify (formula : Formula α) : Formula α :=
  if formula.isCompound then (formula.uniquifyFrom 0).1 else formula

section

variable (formulas : List (Formula α))

@[simp]
theorem anyCorrelated_eq : anyCorrelated formulas = formulas.any hasCorrelated := by
  induction formulas with
  | nil => rfl
  | cons formula rest ih => rw [anyCorrelated, ih, any_cons]

@[simp]
theorem anyUnderOr_eq : anyUnderOr formulas = formulas.any underOr := by
  induction formulas with
  | nil => rfl
  | cons formula rest ih => rw [anyUnderOr, ih, any_cons]

@[simp]
theorem stripAll_eq : stripAll formulas = formulas.filterMap strip := by
  induction formulas with
  | nil => rfl
  | cons formula rest ih =>
    rw [stripAll, ih]
    cases h : strip formula with
    | none => rw [filterMap_cons_none h]; rfl
    | some => rw [filterMap_cons_some h]; rfl

@[simp]
theorem plainAll_eq : plainAll formulas = formulas.map plain := by
  induction formulas with
  | nil => rfl
  | cons formula rest ih => rw [plainAll, ih, map_cons]

end

end Formula

/-! ## Names of relationships -/

/-- The name a subquery is joined under: its alias, or one made from its position. -/
def relationshipName (alias_ : Option String) (index : ℕ) : String :=
  alias_.getD ("zsubq_" ++ toString index)

/-- Keep one entry for each key, the last one, at the place of the first. The key of an entry may
depend on how many keys were seen before it. -/
def lastByKey (key : α → ℕ → String) (entries : List α) : List α :=
  (entries.foldl (fun (state : List String × List α) entry =>
    let name := key entry state.1.length
    match state.1.findIdx? (· = name) with
    | some position => (state.1, state.2.set position entry)
    | none => (state.1 ++ [name], state.2 ++ [entry])) ([], [])).2

/-! ## Operators -/

/-- A built subquery: its pipeline, given the columns it is partitioned by. -/
abbrev Built := Option (List String) → Operator

/-- Join the children of a subquery to an input. -/
def joinSub (input : Operator) (sub : Subquery Built) (name : String) : Operator :=
  .join input (sub.query (some sub.correlation.childField)) sub.correlation.parentField
    sub.correlation.childField name

/-- Join the children of subqueries, each named by its alias or its position. -/
def joinSubs (input : Operator) (subs : List (Subquery Built)) : Operator :=
  subs.zipIdx.foldl (fun input entry => joinSub input entry.1 (relationshipName entry.1.alias_ entry.2)) input

/-- Test the existence of the children of subqueries. -/
def existSubs (input : Operator) (hops : List (ExistsOp × Subquery Built)) : Operator :=
  hops.zipIdx.foldl (fun input entry =>
    .exist input (relationshipName entry.1.2.alias_ entry.2) entry.1.1) input

/-- Apply a condition without correlated subqueries below a disjunction: join the children of all
of them, filter by the rest of the condition, then test existence. -/
def applyFlat (input : Operator) (formula : Formula Built) : Operator :=
  if !formula.hasCorrelated then .filter input formula.plain
  else
    let joined := joinSubs input (formula.gather.map Prod.snd)
    let filtered := match formula.strip with
      | some condition => .filter joined condition
      | none => joined
    existSubs filtered formula.gather

/-- The single condition of a list, or their conjunction. -/
def conjunction (formulas : List (Formula α)) : Formula α :=
  match formulas with
  | [formula] => formula
  | _ => .and formulas

mutual
/-- Apply a condition (`apply_where`, `apply_or`). The arms of a disjunction with correlated
subqueries become branches, those without one share a branch; the arms of a conjunction that have
such a disjunction are applied after all others. -/
def applyWhere : Formula Built → Operator → Operator
  | .or formulas, input =>
    if Formula.anyCorrelated formulas then
      let others := formulas.filter (fun formula => !formula.hasCorrelated)
      .fanIn input.order (branches formulas (.fanOut input) ++
        if others.isEmpty then [] else [.filter (.fanOut input) (.or (Formula.plainAll others))])
    else applyFlat input (.or formulas)
  | .and formulas, input =>
    if Formula.anyUnderOr formulas then
      let rest := formulas.filter (fun formula => !formula.underOr)
      chain formulas (if rest.isEmpty then input else applyFlat input (conjunction rest))
    else applyFlat input (.and formulas)
  | .simple op left right, input => applyFlat input (.simple op left right)
  | .exist op sub, input => applyFlat input (.exist op sub)

/-- A branch for each arm with a correlated subquery. -/
def branches : List (Formula Built) → Operator → List Operator
  | [], _ => []
  | formula :: rest, input =>
    if formula.hasCorrelated then applyWhere formula input :: branches rest input else branches rest input

/-- One stage after another for the arms with a correlated subquery below a disjunction. -/
def chain : List (Formula Built) → Operator → Operator
  | [], input => input
  | formula :: rest, input => chain rest (if formula.underOr then applyWhere formula input else input)
end

/-- The bound of a skip; a bound that is no object names nothing. -/
def skipBound (bound : Bound) : SkipBound :=
  { row := match bound.row with
      | .object entries => entries
      | _ => []
    exclusive := bound.exclusive }

/-- A limit as a number of rows. -/
def limitOf (limit : ℚ) : ℕ := min limit.floor.toNat 18446744073709551615

/-- Start reading at a bound. -/
def applyStart (start : Option Bound) (input : Operator) : Operator :=
  match start with
  | some bound => .skip input (skipBound bound)
  | none => input

/-- Apply the condition of a level, with its aliases numbered. -/
def applyCondition (where_ : Option (Formula Built)) (input : Operator) : Operator :=
  match where_ with
  | some formula => applyWhere formula.uniquify input
  | none => input

/-- Limit the rows of each partition. -/
def applyLimit (limit : Option ℚ) (partitionKey : Option (List String)) (input : Operator) : Operator :=
  match limit with
  | some limit => .take input (limitOf limit) partitionKey
  | none => input

/-- One level of a pipeline (`build_pipeline_with_partition`). -/
def buildLevel (sourceOrder : String → Option QueryOrdering → QueryOrdering) (q : Query Built) : Built :=
  fun partitionKey =>
    let source := Operator.source q.table (sourceOrder q.table q.orderBy)
    let filtered := applyCondition q.where_ (applyStart q.start source)
    joinSubs (applyLimit q.limit partitionKey filtered) (lastByKey (fun sub _ => sub.alias_.getD "") q.related)

/-- The pipeline of a query. -/
def buildPipeline (sourceOrder : String → Option QueryOrdering → QueryOrdering) (ast : Ast) : Operator :=
  foldAst (buildLevel sourceOrder) ast none

end ZeroCache.Zql
