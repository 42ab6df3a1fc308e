import ZeroCache.Auth.Simplify
import ZeroCache.ViewSyncer.GraphMeaning

/-!
# Rows a guarded query delivers

Every level of a guarded query requires one of the select rules of its table, so each row it
delivers satisfies one, except for the rows of subqueries of the rules themselves: these are
delivered like the rows of any other subquery, and nothing guards them.
-/

namespace ZeroCache.Auth

open Zql Replica ViewSyncer List Option Subquery Formula

/-! ## Binding and guarding commute -/

section Bind

variable (asF64 : ℤ → ℚ) (authData : JsonValue)

@[simp]
theorem bindConditions_eq (conditions : List Condition) :
    bindConditions asF64 authData conditions = conditions.map (bindCondition asF64 authData) := by
  induction conditions with
  | nil => rfl
  | cons condition rest ih => rw [bindConditions, ih, map_cons]

variable (condition : Condition)

theorem arms_bind :
    andArms (bindCondition asF64 authData condition) = (andArms condition).map (bindCondition asF64 authData) ∧
      orArms (bindCondition asF64 authData condition) = (orArms condition).map (bindCondition asF64 authData) := by
  cases condition with
  | simple => exact ⟨rfl, rfl⟩
  | and | or => simp [bindCondition, andArms, orArms]
  | correlatedSubquery related =>
    cases related
    exact ⟨rfl, rfl⟩

theorem isAlways_bind : isAlwaysFalse (bindCondition asF64 authData condition) = isAlwaysFalse condition ∧
      isAlwaysTrue (bindCondition asF64 authData condition) = isAlwaysTrue condition := by
  cases condition with
  | simple => exact ⟨rfl, rfl⟩
  | and conditions | or conditions => cases conditions with
    | nil | cons => exact ⟨rfl, rfl⟩
  | correlatedSubquery related =>
    cases related
    exact ⟨rfl, rfl⟩

/-- A function that keeps the arms of a condition and what is settled about it keeps the flattened conditions. -/
theorem flattened_map {f : Condition → Condition} {arms : Condition → List Condition} {always : Condition → Bool}
    (constant : Condition) (node : List Condition → Condition) (harms : ∀ c, arms (f c) = (arms c).map f)
    (halways : ∀ c, always (f c) = always c) (hconstant : f constant = constant)
    (hnode : ∀ cs, f (node cs) = node (cs.map f)) (conditions : List Condition) :
    (if ((conditions.map f).flatMap arms).any always then constant else node ((conditions.map f).flatMap arms)) =
      f (if (conditions.flatMap arms).any always then constant else node (conditions.flatMap arms)) := by
  have hflat : (conditions.map f).flatMap arms = (conditions.flatMap arms).map f := by
    rw [flatMap_map, map_flatMap]
    exact flatMap_congr (fun c _ => harms c)
  have hsame : always ∘ f = always := funext halways
  rw [hflat, List.any_map, hsame]
  split_ifs
  · exact hconstant.symm
  · exact (hnode _).symm

section

variable (conditions : List Condition)

theorem simplifyArms_bind :
    simplifyAnd (conditions.map (bindCondition asF64 authData)) = bindCondition asF64 authData (simplifyAnd conditions) ∧
      simplifyOr (conditions.map (bindCondition asF64 authData)) = bindCondition asF64 authData (simplifyOr conditions) := by
  have hand := flattened_map falseCondition .and (fun c => (arms_bind asF64 authData c).1)
    (fun c => (isAlways_bind asF64 authData c).1) rfl (fun cs => by rw [bindCondition, bindConditions_eq])
  have hor := flattened_map trueCondition .or (fun c => (arms_bind asF64 authData c).2)
    (fun c => (isAlways_bind asF64 authData c).2) rfl (fun cs => by rw [bindCondition, bindConditions_eq])
  cases conditions with
  | nil => exact ⟨hand [], hor []⟩
  | cons first rest => cases rest with
    | nil => exact ⟨rfl, rfl⟩
    | cons second rest => exact ⟨hand (first :: second :: rest), hor (first :: second :: rest)⟩

end

theorem simplifyCondition_bind : simplifyCondition (bindCondition asF64 authData condition) =
      bindCondition asF64 authData (simplifyCondition condition) := by
  have harms : ∀ conditions : List Condition, (∀ c ∈ conditions, simplifyCondition (bindCondition asF64 authData c) =
        bindCondition asF64 authData (simplifyCondition c)) →
      (conditions.map (bindCondition asF64 authData)).map simplifyCondition =
        (conditions.map simplifyCondition).map (bindCondition asF64 authData) := by
    intro conditions ih
    rw [List.map_map, List.map_map]
    exact map_congr_left ih
  induction condition with
  | simple => rfl
  | exist related =>
    cases related
    rfl
  | and conditions ih =>
    rw [bindCondition, bindConditions_eq, simplifyCondition, simplifyConditions_eq, harms conditions ih,
      (simplifyArms_bind _ _ _).1, simplifyCondition, simplifyConditions_eq]
  | or conditions ih =>
    rw [bindCondition, bindConditions_eq, simplifyCondition, simplifyConditions_eq, harms conditions ih,
      (simplifyArms_bind _ _ _).2, simplifyCondition, simplifyConditions_eq]

variable (config : PermissionsConfig)

theorem rowSelectRules_bind (table : String) : rowSelectRules (bindPermissionsAuthData asF64 authData config) table =
      (rowSelectRules config table).map (bindPolicy asF64 authData) := by
  rw [rowSelectRules, rowSelectRules, bindPermissionsAuthData]
  cases htables : config.tables with
  | none => rfl
  | some tables =>
    simp only [map_some, bind_some, Assoc.get?_map]
    cases tables.get? table with
    | none => rfl
    | some entry =>
      simp only [map_some, bind_some, bindTableEntry]
      cases entry.row with
      | none => rfl
      | some row =>
        simp only [map_some, bind_some, bindAssetPermissions]
        cases row.select with
        | none => rfl
        | some rules => cases rules with
          | nil | cons => rfl

theorem addRulesToWhere_bind (where_ : Option Condition) (rules : Option Policy) :
    addRulesToWhere (where_.map (bindCondition asF64 authData)) (rules.map (bindPolicy asF64 authData)) =
      bindCondition asF64 authData (addRulesToWhere where_ rules) := by
  have hrules : (rules.map (bindPolicy asF64 authData)).getD [] = (rules.getD []).map (bindCondition asF64 authData) := by
    cases rules with
    | none | some => rfl
  rw [addRulesToWhere, addRulesToWhere, bindCondition, bindConditions_eq, map_append, map_singleton,
    bindCondition, bindConditions_eq, hrules]
  cases where_ with
  | none | some => rfl

mutual
/-- Binding a guarded query is guarding the bound query by the bound rules. -/
theorem bind_transformQuery : ∀ ast : Ast,
    bindStaticParameters asF64 authData (transformQuery config ast) =
      transformQuery (bindPermissionsAuthData asF64 authData config) (bindStaticParameters asF64 authData ast)
  | .mk _ _ _ none related _ _ _ => by
    simp only [transformQuery, bindStaticParameters, bind_transformRelated related, rowSelectRules_bind,
      ← simplifyCondition_bind, ← addRulesToWhere_bind, map_none]
  | .mk _ _ _ (some condition) related _ _ _ => by
    simp only [transformQuery, bindStaticParameters, bind_transformRelated related, rowSelectRules_bind,
      ← simplifyCondition_bind, ← addRulesToWhere_bind, map_some, bind_transformCondition condition]

theorem bind_transformCondition : ∀ condition : Condition,
    bindCondition asF64 authData (transformCondition config condition) =
      transformCondition (bindPermissionsAuthData asF64 authData config) (bindCondition asF64 authData condition)
  | .simple _ _ _ => rfl
  | .and conditions | .or conditions => by
    rw [transformCondition, bindCondition, bindCondition, transformCondition, bind_transformConditions conditions]
  | .correlatedSubquery (.mk _ subquery _ _) _ _ _ _ => by
    rw [transformCondition, bindCondition, bindCondition, transformCondition, bind_transformQuery subquery]

theorem bind_transformConditions : ∀ conditions : List Condition,
    bindConditions asF64 authData (transformConditions config conditions) =
      transformConditions (bindPermissionsAuthData asF64 authData config) (bindConditions asF64 authData conditions)
  | [] => rfl
  | condition :: rest => by
    rw [transformConditions, bindConditions, bindConditions, transformConditions, bind_transformCondition condition,
      bind_transformConditions rest]

theorem bind_transformRelated : ∀ related : List CorrelatedSubquery,
    bindRelated asF64 authData (transformRelated config related) =
      transformRelated (bindPermissionsAuthData asF64 authData config) (bindRelated asF64 authData related)
  | [] => rfl
  | .mk _ subquery _ _ :: rest => by
    rw [transformRelated, bindRelated, bindRelated, transformRelated, bind_transformQuery subquery,
      bind_transformRelated rest]
end

end Bind

/-! ## One level of a guarded query -/

section Level

variable (config : PermissionsConfig)

/-- The select rules of a table. -/
def rulesOf (table : String) : Policy := (rowSelectRules config table).getD []

/-- The condition of one level of a guarded query. -/
def guardedWhere (ast : Ast) : Condition :=
  simplifyCondition (addRulesToWhere (ast.where_.map (transformCondition config)) (rowSelectRules config ast.table))

@[simp]
theorem transformConditions_eq (conditions : List Condition) :
    transformConditions config conditions = conditions.map (transformCondition config) := by
  induction conditions with
  | nil => rfl
  | cons condition rest ih => rw [transformConditions, ih, map_cons]

theorem alias_transformQuery (ast : Ast) : (transformQuery config ast).alias_ = ast.alias_ := by
  cases ast
  rfl

theorem formulaOf_transformCondition (condition : Condition) : formulaOf (transformCondition config condition) =
      (formulaOf condition).map (map (transformQuery config)) := by
  induction condition with
  | simple => rfl
  | exist related =>
    cases related
    rw [transformCondition, formulaOf, formulaOf, Formula.map, Subquery.map, alias_transformQuery]
  | and conditions ih | or conditions ih =>
    rw [transformCondition, transformConditions_eq, formulaOf, formulasOf_eq, formulaOf, formulasOf_eq, Formula.map,
      mapAll_eq, List.map_map, List.map_map]
    exact congrArg _ (map_congr_left ih)

theorem transformRelated_eq (related : List CorrelatedSubquery) : (transformRelated config related).map subOf =
      (related.map subOf).map (Subquery.map (transformQuery config)) := by
  induction related with
  | nil => rfl
  | cons csq rest ih =>
    cases csq
    rw [transformRelated, map_cons, ih, map_cons, map_cons]
    simp only [subOf, Subquery.map, CorrelatedSubquery.subquery, CorrelatedSubquery.correlation, alias_transformQuery]

/-- The top level of a guarded query. -/
theorem queryOf_transformQuery (ast : Ast) : queryOf (transformQuery config ast) = { queryOf ast with
        where_ := some (formulaOf (guardedWhere config ast))
        related := (queryOf ast).related.map (map (transformQuery config)) } := by
  obtain ⟨schema, table, alias_, where_, related, start, limit, orderBy⟩ := ast
  cases where_ with
  | none | some =>
    simp only [transformQuery, queryOf, Ast.related, transformRelated_eq]
    rfl

variable {ast : Ast}

/-- The parts of a guarded condition are those of the query's condition and those of the rules. -/
theorem mem_parts_guardedWhere {γ : Type} {parts : Formula Ast → List γ}
    (hand : ∀ formulas, parts (.and formulas) = formulas.flatMap parts)
    (hor : ∀ formulas, parts (.or formulas) = formulas.flatMap parts) {part : γ}
    (h : part ∈ parts (formulaOf (guardedWhere config ast))) :
    (∃ condition ∈ ast.where_, part ∈ parts (formulaOf (transformCondition config condition))) ∨
      ∃ rule ∈ rulesOf config ast.table, part ∈ parts (formulaOf rule) := by
  have hall := parts_simplifyCondition hand hor _ h
  rw [addRulesToWhere, formulaOf, formulasOf_eq, hand, flatMap_map, mem_flatMap] at hall
  obtain ⟨condition, hcondition, hpart⟩ := hall
  rcases mem_append.mp hcondition with hwhere | hrules
  · obtain ⟨original, horiginal, rfl⟩ := map_eq_some_iff.mp (mem_toList.mp hwhere)
    exact .inl ⟨original, horiginal, hpart⟩
  · obtain rfl := mem_singleton.mp hrules
    rw [formulaOf, formulasOf_eq, hor, flatMap_map] at hpart
    obtain ⟨rule, hrule, hmem⟩ := mem_flatMap.mp hpart
    exact .inr ⟨rule, hrule, hmem⟩

/-- A row that satisfies a guarded condition satisfies a rule of its table. -/
theorem rule_of_guardedWhere {exist : ExistsOp → Subquery Ast → Row → Bool} {row : Row}
    (h : passes exist row (guardedWhere config ast) = true) :
    ∃ rule ∈ rulesOf config ast.table, passes exist row rule = true := by
  rw [guardedWhere, passes_simplifyCondition, addRulesToWhere, passes_and, all_append, Bool.and_eq_true,
    all_cons, Bool.and_eq_true, passes_or] at h
  obtain ⟨rule, hrule, hpasses⟩ := any_eq_true.mp h.2.1
  exact ⟨rule, hrule, hpasses⟩

theorem mem_gather_guardedWhere {hop : ExistsOp × Subquery Ast}
    (h : hop ∈ (formulaOf (guardedWhere config ast)).gather) :
    (∃ original ∈ (queryOf ast).existHops, hop = (original.1, original.2.map (transformQuery config))) ∨
      ∃ rule ∈ rulesOf config ast.table, hop ∈ (formulaOf rule).gather := by
  refine (mem_parts_guardedWhere config gatherAll_eq gatherAll_eq h).imp_left ?_
  rintro ⟨condition, hcondition, hmem⟩
  rw [formulaOf_transformCondition, gather_map] at hmem
  obtain ⟨original, horiginal, rfl⟩ := mem_map.mp hmem
  refine ⟨original, ?_, rfl⟩
  rw [mem_def] at hcondition
  simpa only [Query.existHops, queryOf, hcondition, map_some] using horiginal

theorem mem_simples_guardedWhere {simple : SimpleOperator × ValuePosition × ValuePosition}
    (h : simple ∈ (formulaOf (guardedWhere config ast)).simples) :
    (∃ condition ∈ ast.where_, simple ∈ (formulaOf condition).simples) ∨
      ∃ rule ∈ rulesOf config ast.table, simple ∈ (formulaOf rule).simples := by
  refine (mem_parts_guardedWhere config allSimples_eq allSimples_eq h).imp_left ?_
  rintro ⟨condition, hcondition, hmem⟩
  rw [formulaOf_transformCondition, simples_map] at hmem
  exact ⟨condition, hcondition, hmem⟩

/-- A subquery of a guarded level is a guarded subquery or one of a rule. -/
theorem mem_subs_transformQuery {sub : Subquery Ast} (h : sub ∈ (queryOf (transformQuery config ast)).subs) :
    (∃ original ∈ (queryOf ast).subs, sub = original.map (transformQuery config)) ∨
      ∃ rule ∈ rulesOf config ast.table, ∃ hop ∈ (formulaOf rule).gather, sub = hop.2 := by
  rw [queryOf_transformQuery] at h
  rcases mem_append.mp h with hmem | hmem
  · obtain ⟨original, horiginal, rfl⟩ := mem_map.mp hmem
    exact .inl ⟨original, mem_append_left _ horiginal, rfl⟩
  · obtain ⟨hop, hhop, rfl⟩ := mem_map.mp hmem
    rcases mem_gather_guardedWhere config hhop with ⟨original, horiginal, rfl⟩ | ⟨rule, hrule, hmem⟩
    · exact .inl ⟨original.2, mem_append_right _ (mem_map_of_mem horiginal), rfl⟩
    · exact .inr ⟨rule, hrule, hop, hmem, rfl⟩

/-- A subquery whose rows a guarded level delivers is a guarded one of the query, or one of a rule
that must have a row. -/
theorem mem_hops_transformQuery {sub : Subquery Ast} (h : sub ∈ (queryOf (transformQuery config ast)).hops) :
    (∃ original ∈ (queryOf ast).subs, sub = original.map (transformQuery config)) ∨
      ∃ rule ∈ rulesOf config ast.table, ∃ hop ∈ (formulaOf rule).gather, hop.1 = .exist ∧ sub = hop.2 := by
  rw [queryOf_transformQuery] at h
  rcases mem_append.mp h with hmem | hmem
  · obtain ⟨original, horiginal, rfl⟩ := mem_map.mp hmem
    exact .inl ⟨original, mem_append_left _ horiginal, rfl⟩
  · obtain ⟨hop, hhop, rfl⟩ := mem_map.mp hmem
    obtain ⟨hgather, hmust⟩ := mem_filter.mp hhop
    rcases mem_gather_guardedWhere config hgather with ⟨original, horiginal, rfl⟩ | ⟨rule, hrule, hmem⟩
    · exact .inl ⟨original.2, mem_append_right _ (mem_map_of_mem horiginal), rfl⟩
    · exact .inr ⟨rule, hrule, hop, hmem, of_decide_eq_true hmust, rfl⟩

end Level

/-! ## Rows a guarded query reaches -/

section Guard

variable (source : Source) (sourceOrder : String → Option QueryOrdering → QueryOrdering) (config : PermissionsConfig)

/-- A row satisfies one of the select rules of its table. -/
def Allowed (pair : String × Row) : Prop :=
  ∃ rule ∈ rulesOf config pair.1,
    passes (fun op sub => existHolds op (sub.map (meaning source sourceOrder))) pair.2 rule = true

/-- What one level of a client's query and the rules of its table must satisfy. The first part is
what hydration relies on. The last says that the rows shown because of a rule are allowed. -/
structure GuardedLevel (ast : Ast) : Prop where
  ordered : ast.start.isSome ∨ ast.limit.isSome → sourceOrder ast.table ast.orderBy ≠ []
  apart : SortsApart (sourceOrder ast.table ast.orderBy) (source.rows ast.table)
  evaluable : ∀ condition ∈ ast.where_, (formulaOf condition).EvaluableOn (source.rows ast.table)
  keyed : ∀ sub ∈ (queryOf ast).subs, sub.query.limit.isSome →
    sub.correlation.childField.length ≤ sub.correlation.parentField.length
  aliases : ((queryOf ast).related.map (fun sub => sub.alias_.getD "")).Nodup
  names : (relatedNames (queryOf ast).related).Nodup
  existNames : ∀ hop ∈ (queryOf ast).existHops ++ (rulesOf config ast.table).flatMap (fun rule =>
    (formulaOf rule).gather), ∀ compound index, existName compound hop.2.alias_ index ∉
      relatedNames (queryOf ast).related
  rulesEvaluable : ∀ rule ∈ rulesOf config ast.table, (formulaOf rule).EvaluableOn (source.rows ast.table)
  rulesSane : ∀ rule ∈ rulesOf config ast.table, ∀ hop ∈ (formulaOf rule).gather,
    Everywhere (Sane source sourceOrder) hop.2.query ∧ WellNamedAll hop.2.query ∧
      (hop.2.query.limit.isSome → hop.2.correlation.childField.length ≤ hop.2.correlation.parentField.length)
  revealed : ∀ rule ∈ rulesOf config ast.table, ∀ hop ∈ (formulaOf rule).gather, hop.1 = .exist →
    ∀ row ∈ source.rows ast.table, ∀ pair ∈ (meaning source sourceOrder hop.2.query).reached (hop.2.constraint row),
      Allowed source sourceOrder config pair

variable {source sourceOrder config}

/-- Guarding changes the condition and the subqueries only. -/
theorem fields_transformQuery (ast : Ast) :
    (transformQuery config ast).table = ast.table ∧ (transformQuery config ast).start = ast.start ∧
      (transformQuery config ast).limit = ast.limit ∧ (transformQuery config ast).orderBy = ast.orderBy ∧
      (transformQuery config ast).where_ = some (guardedWhere config ast) := by
  obtain ⟨schema, table, alias_, where_, related, start, limit, orderBy⟩ := ast
  cases where_ with
  | none | some => exact ⟨rfl, rfl, rfl, rfl, rfl⟩

section

variable {ast : Ast} (h : Everywhere (GuardedLevel source sourceOrder config) ast)

include h

/-- Every row a guarded query reaches is allowed. -/
theorem allowed_of_reached {constraint : Option Constraint} {pair : String × Row}
    (hpair : pair ∈ (meaning source sourceOrder (transformQuery config ast)).reached constraint) :
    Allowed source sourceOrder config pair := by
  induction ast generalizing constraint with
  | level ast ih =>
    obtain ⟨row, hrow, hreached⟩ := mem_reached.mp hpair
    rw [meaning_eq, queryOf_transformQuery] at hrow
    have hfetched := mem_filter.mp (mem_of_mem_limited hrow)
    have hstored : row ∈ source.rows ast.table := ((source.mem_fetch _ _ _ _ _).mp hfetched.1).1
    rcases hreached with rfl | ⟨sub, hsub, hreached⟩
    · rw [(fields_transformQuery ast).1]
      refine rule_of_guardedWhere config ?_
      have hholds := hfetched.2
      simpa [Query.map, holds, holdsWith_map, passes] using hholds
    · rcases mem_hops_transformQuery config hsub with ⟨original, horiginal, rfl⟩ | ⟨rule, hrule, hop, hhop, hmust, rfl⟩
      · exact ih original horiginal (h.sub horiginal) hreached
      · exact h.level.revealed rule hrule hop hhop hmust row hstored pair hreached

/-- A guarded query is sane. -/
theorem sane_transformQuery : Everywhere (Sane source sourceOrder) (transformQuery config ast) := by
  induction ast with
  | level ast ih =>
    refine .intro _ ?_ (fun sub hsub => ?_)
    · obtain ⟨htable, hstart, hlimit, horder, hwhere⟩ := @fields_transformQuery config ast
      constructor
      · rw [htable, hstart, hlimit, horder]
        exact h.level.ordered
      · rw [htable, horder]
        exact h.level.apart
      · intro condition hcondition simple hsimple
        rw [hwhere, mem_some] at hcondition
        subst hcondition
        rw [htable]
        rcases mem_simples_guardedWhere config hsimple with ⟨original, horiginal, hmem⟩ | ⟨rule, hrule, hmem⟩
        · exact h.level.evaluable original horiginal simple hmem
        · exact h.level.rulesEvaluable rule hrule simple hmem
      · intro condition hcondition
        rw [hwhere, mem_some] at hcondition
        subst hcondition
        exact (settled_simplifyCondition _).kept
      · intro sub hsub hlimited
        rcases mem_subs_transformQuery config hsub with ⟨original, horiginal, rfl⟩ | ⟨rule, hrule, hop, hhop, rfl⟩
        · refine h.level.keyed original horiginal ?_
          rwa [Subquery.map, (fields_transformQuery original.query).2.2.1] at hlimited
        · exact (h.level.rulesSane rule hrule hop hhop).2.2 hlimited
    · rcases mem_subs_transformQuery config hsub with ⟨original, horiginal, rfl⟩ | ⟨rule, hrule, hop, hhop, rfl⟩
      · exact ih original horiginal (h.sub horiginal)
      · exact (h.level.rulesSane rule hrule hop hhop).1

/-- The names of a guarded query tell its subqueries apart. -/
theorem wellNamed_transformQuery : WellNamedAll (transformQuery config ast) := by
  induction ast with
  | level ast ih =>
    refine .intro _ ?_ (fun sub hsub => ?_)
    · have hnames : relatedNames ((queryOf ast).related.map (map (transformQuery config))) =
          relatedNames (queryOf ast).related := by
        rw [relatedNames, zipIdx_map, List.map_map]
        rfl
      rw [queryOf_transformQuery]
      constructor
      · rw [List.map_map]
        exact h.level.aliases
      · rw [hnames]
        exact h.level.names
      · intro formula hformula hop hhop
        obtain rfl := mem_some.mp hformula
        obtain ⟨entry, hentry, rfl⟩ := mem_map.mp hhop
        have hgather : entry.1 ∈ (formulaOf (guardedWhere config ast)).gather := by
          rw [← zipIdx_map_fst 0 (formulaOf (guardedWhere config ast)).gather]
          exact mem_map_of_mem (mem_of_mem_filter hentry)
        rw [hnames]
        rcases mem_gather_guardedWhere config hgather with ⟨original, horiginal, heq⟩ | ⟨rule, hrule, hmem⟩
        · rw [heq]
          exact h.level.existNames original (mem_append_left _ horiginal) _ _
        · exact h.level.existNames entry.1
            (mem_append_right _ (mem_flatMap.mpr ⟨rule, hrule, hmem⟩)) _ _
    · rcases mem_subs_transformQuery config hsub with ⟨original, horiginal, rfl⟩ | ⟨rule, hrule, hop, hhop, rfl⟩
      · exact ih original horiginal (h.sub horiginal)
      · exact (h.level.rulesSane rule hrule hop hhop).2.1

end

end Guard

/-! ## Delivered rows -/

/-- Every row delivered for a client's query is a stored row of its table that satisfies one of the
select rules of the table, bound to the claims of the user. -/
def DeliversAllowed (env : Env) (specs : Fields SnapshotTableSpec) (source : Source) (config : PermissionsConfig)
    (authData : JsonValue) (query : Ast) : Prop :=
  ∀ output, hydrateGraph env specs source
      (transformQueryWithAuthData env.asF64 authData config false query) = .ok output →
    ∀ key entry, output.get? key = some entry → ∃ row ∈ source.rows entry.table,
      (entry.table, entry.row) = shown specs (entry.table, row) ∧
        Allowed source (graphSourceOrder specs) (bindPermissionsAuthData env.asF64 authData config) (entry.table, row)

/-- Select rules for the rows of tables. -/
def selectRules (rules : Fields Policy) : PermissionsConfig :=
  ⟨some (rules.map (fun entry =>
    (entry.1, ⟨some ⟨some entry.2, none, ⟨none, none⟩, none⟩, none⟩)))⟩

/-- Issues may be read if they have a comment; all comments may be read. -/
def openComments : PermissionsConfig := selectRules [("issue", [hasRowIn "comment"]), ("comment", [.and []])]

/-- Issues may be read if they have a comment; comments may not be read. -/
def commentedIssues : PermissionsConfig := selectRules [("issue", [hasRowIn "comment"])]

theorem hydrateGraph_commentedIssues : hydrateGraph textKeyEnv trackerSpecs (Source.ofTables trackerTables)
    (transformQueryWithAuthData textKeyEnv.asF64 .null commentedIssues false (issuesWith none [])) =
      .ok [("issue:i", ⟨"issue", trackerRow "i" "", [("id", .string "i")]⟩),
        ("comment:c", ⟨"comment", trackerRow "c" "i", [("id", .string "c")]⟩)] := by
  rfl

end ZeroCache.Auth
