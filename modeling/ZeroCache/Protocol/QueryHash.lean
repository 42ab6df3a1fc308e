import ZeroCache.Protocol.NormalMeaning

/-!
# The hashed text of a query

`hash_of_ast` (`zero-cache-protocol/src/query_hash.rs`) hashes the JSON of the normal form of a query
(`ast_to_json`). JSON is compared as a value here, which its text determines; an absent list of
related subqueries is written like an empty one, and the plan id of a condition is not written.
-/

namespace ZeroCache.Protocol

open Lib Zql List Option Assoc JsonValue

/-- A field that is left out when it is absent. -/
def optionalField (name : String) (value : Option JsonValue) : Fields JsonValue :=
  match value with
  | some value => [(name, value)]
  | none => []

/-- The text of a direction. -/
def directionStr : SortDirection → String
  | .asc => "asc"
  | .desc => "desc"

/-- The text of a system. -/
def systemStr : System → String
  | .permissions => "permissions"
  | .client => "client"
  | .test => "test"

def boundToJson (bound : Bound) : JsonValue :=
  .object [("row", bound.row), ("exclusive", .bool bound.exclusive)]

def orderPartToJson (part : String × SortDirection) : JsonValue :=
  .array [.string part.1, .string (directionStr part.2)]

def correlationToJson (correlation : Correlation) : JsonValue :=
  .object [("parentField", .array (correlation.parentField.map .string)),
    ("childField", .array (correlation.childField.map .string))]

def valuePositionToJson : ValuePosition → JsonValue
  | .literal value => .object [("type", .string "literal"), ("value", literalToValue value)]
  | .column name => .object [("type", .string "column"), ("name", .string name)]
  | .parameter raw => raw

mutual
/-- The JSON of a query (`ast_to_json`). -/
def astToJson : Ast → JsonValue
  | .mk schema table alias_ where_ related start limit orderBy =>
    .object (optionalField "schema" (schema.map .string) ++ [("table", .string table)] ++
      optionalField "alias" (alias_.map .string) ++
      optionalField "where" (match where_ with
        | some condition => some (conditionToJson condition)
        | none => none) ++
      (match related with
        | [] => []
        | csq :: rest => [("related", .array (subqueryToJson csq :: subqueriesToJson rest))]) ++
      optionalField "start" (start.map boundToJson) ++
      optionalField "limit" (limit.map .number) ++
      optionalField "orderBy" (orderBy.map (fun order => .array (order.map orderPartToJson))))

/-- The JSON of a condition (`condition_to_json`). -/
def conditionToJson : Condition → JsonValue
  | .simple op left right =>
    .object [("type", .string "simple"), ("op", .string op.asStr), ("left", valuePositionToJson left),
      ("right", valuePositionToJson right)]
  | .and conditions => .object [("type", .string "and"), ("conditions", .array (conditionsToJson conditions))]
  | .or conditions => .object [("type", .string "or"), ("conditions", .array (conditionsToJson conditions))]
  | .correlatedSubquery related op flip scalar _ =>
    .object ([("type", .string "correlatedSubquery"), ("related", subqueryToJson related),
      ("op", .string op.asStr)] ++ optionalField "flip" (flip.map .bool) ++ optionalField "scalar" (scalar.map .bool))

/-- The JSON of conditions. -/
def conditionsToJson : List Condition → List JsonValue
  | [] => []
  | condition :: rest => conditionToJson condition :: conditionsToJson rest

/-- The JSON of a subquery (`correlated_subquery_to_json`). -/
def subqueryToJson : CorrelatedSubquery → JsonValue
  | .mk correlation subquery system hidden =>
    .object ([("correlation", correlationToJson correlation)] ++ optionalField "hidden" (hidden.map .bool) ++
      [("subquery", astToJson subquery)] ++ optionalField "system" (system.map (fun system => .string (systemStr system))))

/-- The JSON of subqueries. -/
def subqueriesToJson : List CorrelatedSubquery → List JsonValue
  | [] => []
  | csq :: rest => subqueryToJson csq :: subqueriesToJson rest
end

/-- What is hashed of a query, if normalizing it does not panic (`hash_of_ast`). -/
def hashInput (sorter : Sorter) (display : ℚ → String) (ast : Ast) : Option JsonValue :=
  (normalizeAst sorter display ast).map astToJson

/-! ## Reading fields back -/

/-- The field of an object. -/
def jsonField (name : String) : JsonValue → Option JsonValue
  | .object entries => Assoc.get? entries name
  | _ => none

theorem get?_optionalField (name other : String) (value : Option JsonValue) :
    get? (optionalField name value) other = if name = other then value else none := by
  cases value <;> simp [optionalField, get?_cons]

theorem boundToJson_injective : Function.Injective boundToJson := by
  rintro ⟨row, exclusive⟩ ⟨row', exclusive'⟩ h
  simpa [boundToJson] using h

theorem orderPartToJson_injective : Function.Injective orderPartToJson := by
  rintro ⟨field, direction⟩ ⟨field', direction'⟩ h
  cases direction <;> cases direction' <;> simp_all [orderPartToJson, directionStr]

theorem correlationToJson_injective : Function.Injective correlationToJson := by
  rintro ⟨parentField, childField⟩ ⟨parentField', childField'⟩ h
  have hstrings : Function.Injective (map string) := map_injective_iff.mpr (fun _ _ => string.inj)
  simp only [correlationToJson, object.injEq, cons.injEq, Prod.mk.injEq, array.injEq, true_and, and_true] at h
  rw [hstrings h.1, hstrings h.2]

mutual
theorem literalToValue_inj : ∀ a b : LiteralValue, literalToValue a = literalToValue b → a = b
  | .string _, b, h | .number _, b, h | .bool _, b, h | .null, b, h => by cases b <;> simp_all [literalToValue]
  | .array items, b, h => by
    cases b with
    | array items' =>
      rw [literalToValue, literalToValue, array.injEq] at h
      rw [literalsToValues_inj items items' h]
    | _ => simp [literalToValue] at h

theorem literalsToValues_inj : ∀ a b : List LiteralValue, literalsToValues a = literalsToValues b → a = b
  | [], b, h => by cases b <;> simp_all [literalsToValues]
  | item :: rest, b, h => by
    cases b with
    | nil => simp [literalsToValues] at h
    | cons item' rest' =>
      rw [literalsToValues, literalsToValues, cons.injEq] at h
      rw [literalToValue_inj item item' h.1, literalsToValues_inj rest rest' h.2]
end

theorem literalToValue_injective : Function.Injective literalToValue := literalToValue_inj

theorem asStr_injective : Function.Injective SimpleOperator.asStr := by
  intro a b h
  cases a <;> cases b <;> first | rfl | exact absurd h (by decide)

theorem conditionsToJson_eq (conditions : List Condition) : conditionsToJson conditions = conditions.map conditionToJson := by
  induction conditions with
  | nil => rfl
  | cons condition rest ih => rw [conditionsToJson, ih, map_cons]

theorem subqueriesToJson_eq (related : List CorrelatedSubquery) : subqueriesToJson related = related.map subqueryToJson := by
  induction related with
  | nil => rfl
  | cons csq rest ih => rw [subqueriesToJson, ih, map_cons]

/-- The field that holds the related subqueries. -/
def relatedField (related : List CorrelatedSubquery) : Fields JsonValue :=
  optionalField "related" (if related = [] then none else some (.array (related.map subqueryToJson)))

theorem astToJson_eq (ast : Ast) : astToJson ast = .object (optionalField "schema" (ast.schema.map .string) ++
    [("table", .string ast.table)] ++ optionalField "alias" (ast.alias_.map .string) ++
    optionalField "where" (ast.where_.map conditionToJson) ++ relatedField ast.related ++
    optionalField "start" (ast.start.map boundToJson) ++ optionalField "limit" (ast.limit.map .number) ++
    optionalField "orderBy" (ast.orderBy.map (fun order => .array (order.map orderPartToJson)))) := by
  obtain ⟨schema, table, alias_, where_, related, start, limit, orderBy⟩ := ast
  cases where_ <;> cases related <;>
    simp [astToJson, relatedField, optionalField, subqueriesToJson_eq, Ast.schema, Ast.table, Ast.alias_, Ast.where_,
      Ast.related, Ast.start, Ast.limit, Ast.orderBy]

variable {a b : Ast}

/-- Queries of the same JSON agree in what every field is written as. -/
theorem fields_of_json (h : astToJson a = astToJson b) : a.table = b.table ∧ a.alias_ = b.alias_ ∧
    a.where_.map conditionToJson = b.where_.map conditionToJson ∧
    a.related.map subqueryToJson = b.related.map subqueryToJson ∧ a.start = b.start ∧ a.limit = b.limit ∧
    a.orderBy = b.orderBy := by
  have hfield : ∀ name, jsonField name (astToJson a) = jsonField name (astToJson b) := fun name => by rw [h]
  simp only [astToJson_eq, jsonField, get?_append, relatedField, get?_optionalField, get?_cons] at hfield
  have htable := hfield "table"
  have halias := hfield "alias"
  have hwhere := hfield "where"
  have hrelated := hfield "related"
  have hstart := hfield "start"
  have hlimit := hfield "limit"
  have horder := hfield "orderBy"
  simp only [String.reduceEq, if_true, if_false, none_or, or_none, some.injEq,
    string.injEq] at htable halias hwhere hrelated hstart hlimit horder
  refine ⟨htable, map_injective (fun _ _ => string.inj) halias, hwhere, ?_,
    map_injective boundToJson_injective hstart, map_injective (fun _ _ => number.inj) hlimit,
    map_injective (fun _ _ heq => ?_) horder⟩
  · by_cases ha : a.related = []
    · by_cases hb : b.related = []
      · rw [ha, hb]
      · simp [ha, hb] at hrelated
    · by_cases hb : b.related = []
      · simp [ha, hb] at hrelated
      · simpa [ha, hb] using hrelated
  · exact map_injective_iff.mpr orderPartToJson_injective (array.inj heq)

theorem fields_of_subqueryJson {a b : CorrelatedSubquery} (h : subqueryToJson a = subqueryToJson b) :
    a.correlation = b.correlation ∧ astToJson a.subquery = astToJson b.subquery := by
  obtain ⟨correlation, subquery, system, hidden⟩ := a
  obtain ⟨correlation', subquery', system', hidden'⟩ := b
  have hfield : ∀ name, jsonField name (subqueryToJson (.mk correlation subquery system hidden)) =
      jsonField name (subqueryToJson (.mk correlation' subquery' system' hidden')) := fun name => by rw [h]
  simp only [subqueryToJson, jsonField, get?_append, get?_optionalField, get?_cons, get?_nil] at hfield
  have hcorrelation := hfield "correlation"
  have hsubquery := hfield "subquery"
  simp only [String.reduceEq, if_true, if_false, or_none, or_some, some.injEq] at hcorrelation hsubquery
  exact ⟨correlationToJson_injective hcorrelation, hsubquery⟩

/-! ## Bound queries of the same JSON -/

/-- No comparison of a condition has a parameter. -/
def BoundCondition (condition : Condition) : Prop :=
  ∀ op left right, Condition.simple op left right ∈ leaves condition → isBound left = true ∧ isBound right = true

/-- No comparison of a level has a parameter. -/
def BoundLevel (ast : Ast) : Prop := ∀ condition ∈ ast.where_, BoundCondition condition

theorem valuePosition_of_json {a b : ValuePosition} (ha : isBound a = true) (hb : isBound b = true)
    (h : valuePositionToJson a = valuePositionToJson b) : a = b := by
  cases a <;> cases b <;> simp_all [valuePositionToJson, isBound]
  exact literalToValue_injective h

variable {c : Condition} {conditions : List Condition} {csq : CorrelatedSubquery} {isAnd : Bool}

theorem BoundCondition.arm (h : BoundCondition (junction isAnd conditions))
    (hc : c ∈ conditions) : BoundCondition c := by
  intro op left right hmem
  refine h op left right ?_
  rw [leaves_junction]
  exact mem_flatMap.mpr ⟨c, hc, hmem⟩

theorem conditionToJson_junction (isAnd : Bool) (conditions : List Condition) :
    conditionToJson (junction isAnd conditions) = .object [("type", .string (if isAnd then "and" else "or")),
      ("conditions", .array (conditions.map conditionToJson))] := by
  cases isAnd <;> simp [junction, conditionToJson, conditionsToJson_eq]

/-- A condition of the JSON of a junction is a junction of the same type with arms of the same JSON. -/
theorem junction_of_json (h : conditionToJson (junction isAnd conditions) = conditionToJson c) :
    ∃ arms, c = junction isAnd arms ∧ conditions.map conditionToJson = arms.map conditionToJson := by
  rw [conditionToJson_junction] at h
  cases c with
  | and arms =>
    cases isAnd with
    | true => exact ⟨arms, rfl, by simpa [conditionToJson, conditionsToJson_eq] using h⟩
    | false => simp [conditionToJson] at h
  | or arms =>
    cases isAnd with
    | true => simp [conditionToJson] at h
    | false => exact ⟨arms, rfl, by simpa [conditionToJson, conditionsToJson_eq] using h⟩
  | simple => cases isAnd <;> simp [conditionToJson] at h
  | correlatedSubquery => cases isAnd <;> simp [conditionToJson] at h

variable {α : Type}

theorem formulaOf_junction_map (f : Subquery Ast → Subquery α) (isAnd : Bool) (conditions : List Condition) :
    (formulaOf (junction isAnd conditions)).map f = if isAnd then .and (conditions.map (fun c => (formulaOf c).map f))
      else .or (conditions.map (fun c => (formulaOf c).map f)) := by
  cases isAnd <;> simp [junction, formulaOf, formulasOf_eq, Formula.map]

open Subquery

/-- Bound conditions of the same JSON are translated alike, if their subqueries are. -/
theorem formula_of_json {f : Ast → α} {c' : Condition}
    (ih : ∀ hop ∈ hopsOf c, ∀ b, Everywhere BoundLevel b → astToJson hop.2.query = astToJson b → f hop.2.query = f b)
    (hbound : BoundCondition c) (hbound' : BoundCondition c')
    (hsubs : ∀ hop ∈ hopsOf c', Everywhere BoundLevel hop.2.query) (h : conditionToJson c = conditionToJson c') :
    (formulaOf c).map (map f) = (formulaOf c').map (map f) := by
  induction c using Condition.induct generalizing c' with
  | simple op left right =>
    cases c' with
    | simple op' left' right' =>
      obtain ⟨hleft, hright⟩ := hbound op left right mem_cons_self
      obtain ⟨hleft', hright'⟩ := hbound' op' left' right' mem_cons_self
      simp only [conditionToJson, object.injEq, cons.injEq, Prod.mk.injEq, string.injEq, true_and, and_true] at h
      rw [asStr_injective h.1, valuePosition_of_json hleft hleft' h.2.1, valuePosition_of_json hright hright' h.2.2]
    | _ => simp [conditionToJson] at h
  | correlated related op =>
    cases c' with
    | correlatedSubquery related' op' =>
      simp only [conditionToJson, object.injEq, cons_append, cons.injEq, Prod.mk.injEq, true_and] at h
      obtain ⟨hcorrelation, hjson⟩ := fields_of_subqueryJson h.1
      have hop : op = op' := by
        have hstr := h.2.1
        revert hstr
        cases op <;> cases op' <;> simp [ExistsOp.asStr]
      have halias := (fields_of_json hjson).2.1
      have hquery := ih (op, subOf related) (by rw [hopsOf_correlated]; exact mem_singleton_self _) related'.subquery
        (hsubs (op', subOf related') (by rw [hopsOf_correlated]; exact mem_singleton_self _)) hjson
      cases related
      cases related'
      simp only [formulaOf, Formula.map, Subquery.map, Formula.exist.injEq, mk.injEq]
      exact ⟨hop, halias, hcorrelation, hquery⟩
    | _ => simp [conditionToJson] at h
  | junction isAnd conditions iharms =>
    obtain ⟨arms, rfl, hjson⟩ := junction_of_json h
    have harms : conditions.map (fun c => (formulaOf c).map (map f)) =
        arms.map (fun c => (formulaOf c).map (map f)) := by
      refine map_eq_map_iff.mpr (forall₂_imp_of_mem (map_eq_map_iff.mp hjson) (fun c hc arm harm heq => ?_))
      refine iharms c hc (fun hop hhop => ih hop ?_) (hbound.arm hc) (hbound'.arm harm) (fun hop hhop => hsubs hop ?_) heq
      · rw [hopsOf_junction]
        exact mem_flatMap.mpr ⟨c, hc, hhop⟩
      · rw [hopsOf_junction]
        exact mem_flatMap.mpr ⟨arm, harm, hhop⟩
    rw [formulaOf_junction_map, formulaOf_junction_map, harms]

variable {ast : Ast}

theorem subOf_mem_subs (h : csq ∈ ast.related) : subOf csq ∈ (queryOf ast).subs :=
  mem_append_left _ (mem_map_of_mem h)

theorem everywhere_related {P : Ast → Prop} (h : Everywhere P ast)
    (hcsq : csq ∈ ast.related) : Everywhere P csq.subquery := h.sub (subOf_mem_subs hcsq)

/-- Bound queries of the same JSON are translated alike. -/
theorem foldAst_of_json (level : Query α → α) (ha : Everywhere BoundLevel a)
    (hb : Everywhere BoundLevel b) (h : astToJson a = astToJson b) : foldAst level a = foldAst level b := by
  induction a generalizing b with
  | level a ih =>
    obtain ⟨htable, -, hwhere, hrelated, hstart, hlimit, horder⟩ := fields_of_json h
    have hmap : (queryOf a).map (foldAst level) = (queryOf b).map (foldAst level) := by
      simp only [queryOf, Query.map, Query.mk.injEq, List.map_map]
      refine ⟨htable, ?_, ?_, hstart, hlimit, horder⟩
      · cases hcondition : a.where_ with
        | none =>
          rw [hcondition] at hwhere
          rw [map_eq_none_iff.mp hwhere.symm]
        | some c =>
          rw [hcondition] at hwhere
          obtain ⟨c', hcondition', hjson⟩ := map_eq_some_iff.mp hwhere.symm
          rw [hcondition']
          refine congrArg some (formula_of_json (fun hop hhop b hb heq => ?_) (ha.level c hcondition)
            (hb.level c' hcondition') (fun hop hhop => hb.sub (hop_mem_subs hcondition' hhop)) hjson.symm)
          exact ih hop.2 (hop_mem_subs hcondition hhop) (ha.sub (hop_mem_subs hcondition hhop)) hb heq
      · refine map_eq_map_iff.mpr (forall₂_imp_of_mem (map_eq_map_iff.mp hrelated) (fun csq hcsq csq' hcsq' heq => ?_))
        obtain ⟨hcorrelation, hjson⟩ := fields_of_subqueryJson heq
        have hquery := ih (subOf csq) (subOf_mem_subs hcsq) (ha.sub (subOf_mem_subs hcsq)) (hb.sub (subOf_mem_subs hcsq')) hjson
        simp only [Function.comp_apply, Subquery.map, mk.injEq]
        exact ⟨(fields_of_json hjson).2.1, hcorrelation, hquery⟩
    rw [foldAst_eq, foldAst_eq, hmap]

/-- Bound queries of the same JSON have the same meaning. -/
theorem sameMeaning_of_json {source : Source} {sourceOrder : String → Option QueryOrdering → QueryOrdering}
    (ha : Everywhere BoundLevel a) (hb : Everywhere BoundLevel b) (h : astToJson a = astToJson b) :
    SameMeaning source sourceOrder a b := by
  induction a generalizing b with
  | level a ih =>
    obtain ⟨-, -, -, hrelated, -⟩ := fields_of_json h
    have hpairs := map_eq_map_iff.mp hrelated
    refine .intro _ _ (fun constraint => ?_) b.related (.refl _) hpairs.length_eq ?_ ?_
    · rw [meaning, meaning, foldAst_of_json _ ha hb h]
    · intro pair hpair
      obtain ⟨hcorrelation, hjson⟩ := fields_of_subqueryJson (forall₂_zip hpairs hpair)
      exact ⟨hcorrelation, (fields_of_json hjson).2.1⟩
    · intro pair hpair
      obtain ⟨-, hjson⟩ := fields_of_subqueryJson (forall₂_zip hpairs hpair)
      obtain ⟨hcsq, hcsq'⟩ := of_mem_zip hpair
      exact ih (subOf pair.1) (subOf_mem_subs hcsq) (ha.sub (subOf_mem_subs hcsq)) (hb.sub (subOf_mem_subs hcsq')) hjson

end ZeroCache.Protocol
