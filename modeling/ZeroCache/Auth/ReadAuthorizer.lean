import ZeroCache.Zql.Meaning

/-!
# Read permissions

The select rules of a table are spliced into the condition of every query and subquery on it
(`read_authorizer.rs`): a row must satisfy one of them. A table without rules gets the empty
disjunction, which no row satisfies. References to the claims of the user are bound to literals
after that. The subqueries of the rules themselves are spliced in as they are.
-/

namespace ZeroCache.Auth

/-! ## Policies -/

/-- The rules of a policy, one of which must hold. -/
abbrev Policy := List Condition

/-- The policies of an update. -/
structure UpdatePolicies where
  preMutation : Option Policy
  postMutation : Option Policy

/-- The policies of the rows of a table or of one of its cells. -/
structure AssetPermissions where
  select : Option Policy
  insert : Option Policy
  update : UpdatePolicies
  delete : Option Policy

/-- The policies of a table. -/
structure TablePermissionsEntry where
  row : Option AssetPermissions
  cell : Option (Fields AssetPermissions)

/-- The policies of all tables. -/
structure PermissionsConfig where
  tables : Option (Fields TablePermissionsEntry)

/-- The select rules of the rows of a table, if there are any. -/
def rowSelectRules (config : PermissionsConfig) (table : String) : Option Policy :=
  ((((config.tables.bind (fun tables => tables.get? table)).bind TablePermissionsEntry.row).bind
    AssetPermissions.select).filter (fun rules => !rules.isEmpty))

/-! ## Simplification -/

/-- No condition: always true. -/
def trueCondition : Condition := .and []

/-- No alternative: always false. -/
def falseCondition : Condition := .or []

def isAlwaysTrue : Condition → Bool
  | .and [] => true
  | _ => false

def isAlwaysFalse : Condition → Bool
  | .or [] => true
  | _ => false

/-- The arms of a simplified condition within a conjunction. -/
def andArms : Condition → List Condition
  | .and conditions => conditions
  | condition => [condition]

/-- The arms of a simplified condition within a disjunction. -/
def orArms : Condition → List Condition
  | .or conditions => conditions
  | condition => [condition]

/-- A conjunction of simplified conditions. -/
def simplifyAnd (conditions : List Condition) : Condition :=
  match conditions with
  | [condition] => condition
  | conditions =>
    let flattened := conditions.flatMap andArms
    if flattened.any isAlwaysFalse then falseCondition else .and flattened

/-- A disjunction of simplified conditions. -/
def simplifyOr (conditions : List Condition) : Condition :=
  match conditions with
  | [condition] => condition
  | conditions =>
    let flattened := conditions.flatMap orArms
    if flattened.any isAlwaysTrue then trueCondition else .or flattened

mutual
/-- Unwrap single arms, flatten nested conjunctions and disjunctions and drop what is decided
(`simplify_condition`, `simplify_compound`). -/
def simplifyCondition : Condition → Condition
  | .and conditions => simplifyAnd (simplifyConditions conditions)
  | .or conditions => simplifyOr (simplifyConditions conditions)
  | condition => condition

def simplifyConditions : List Condition → List Condition
  | [] => []
  | condition :: rest => simplifyCondition condition :: simplifyConditions rest
end

/-! ## Rules in conditions -/

/-- Require one of the rules of a table besides the condition of a query. -/
def addRulesToWhere (where_ : Option Condition) (rowSelectRules : Option Policy) : Condition :=
  .and (where_.toList ++ [.or (rowSelectRules.getD [])])

mutual
/-- Guard a query and its subqueries by the select rules of their tables
(`transform_query_internal`). -/
def transformQuery (config : PermissionsConfig) : Ast → Ast
  | .mk schema table alias_ where_ related start limit orderBy =>
    .mk schema table alias_
      (some (simplifyCondition (addRulesToWhere
        (match where_ with
          | some condition => some (transformCondition config condition)
          | none => none)
        (rowSelectRules config table))))
      (transformRelated config related) start limit orderBy

/-- Guard the subqueries of a condition. -/
def transformCondition (config : PermissionsConfig) : Condition → Condition
  | .simple op left right => .simple op left right
  | .and conditions => .and (transformConditions config conditions)
  | .or conditions => .or (transformConditions config conditions)
  | .correlatedSubquery (.mk correlation subquery system hidden) op flip scalar planId =>
    .correlatedSubquery (.mk correlation (transformQuery config subquery) system hidden) op flip scalar planId

def transformConditions (config : PermissionsConfig) : List Condition → List Condition
  | [] => []
  | condition :: rest => transformCondition config condition :: transformConditions config rest

/-- Guard related subqueries. -/
def transformRelated (config : PermissionsConfig) : List CorrelatedSubquery → List CorrelatedSubquery
  | [] => []
  | .mk correlation subquery system hidden :: rest =>
    .mk correlation (transformQuery config subquery) system hidden :: transformRelated config rest
end

/-! ## Static parameters -/

section Bind

variable (asF64 : ℤ → ℚ) (authData : JsonValue)

mutual
/-- A claim as a literal: only scalars and arrays of scalars can be one. -/
def literalFromJson : JsonValue → LiteralValue
  | .null => .null
  | .bool b => .bool b
  | .number n => .number n
  | .bigint n => .number (asF64 n)
  | .string s => .string s
  | .array items =>
    match literalsFromJson items with
    | some literals => .array literals
    | none => .null
  | .object _ => .null

/-- Claims as scalar literals. -/
def literalsFromJson : List JsonValue → Option (List LiteralValue)
  | [] => some []
  | item :: rest =>
    match literalFromJson item with
    | .array _ => none
    | literal => (literalsFromJson rest).map (literal :: ·)
end

/-- A field of an object. -/
def objectField (value : JsonValue) (name : String) : Option JsonValue :=
  match value with
  | .object fields => Assoc.get? fields name
  | _ => none

/-- The path a parameter names. -/
def parameterPath : JsonValue → Option (List String)
  | .string field => some [field]
  | .array parts => parts.mapM (fun
    | .string part => some part
    | _ => none)
  | _ => none

/-- The value of a parameter: the claim its path names, or null. -/
def resolveParameter (raw : JsonValue) : JsonValue :=
  if objectField raw "anchor" = some (.string "authData") then
    (((objectField raw "field").bind parameterPath).bind (fun path =>
      path.foldlM objectField authData)).getD .null
  else .null

def bindValuePosition : ValuePosition → ValuePosition
  | .parameter raw => .literal (literalFromJson asF64 (resolveParameter authData raw))
  | value => value

mutual
/-- Bind the references of a query to the claims of the user. -/
def bindStaticParameters : Ast → Ast
  | .mk schema table alias_ where_ related start limit orderBy =>
    .mk schema table alias_
      (match where_ with
        | some condition => some (bindCondition condition)
        | none => none)
      (bindRelated related) start limit orderBy

def bindCondition : Condition → Condition
  | .simple op left right =>
    .simple op (bindValuePosition asF64 authData left) (bindValuePosition asF64 authData right)
  | .and conditions => .and (bindConditions conditions)
  | .or conditions => .or (bindConditions conditions)
  | .correlatedSubquery (.mk correlation subquery system hidden) op flip scalar planId =>
    .correlatedSubquery (.mk correlation (bindStaticParameters subquery) system hidden) op flip scalar planId

def bindConditions : List Condition → List Condition
  | [] => []
  | condition :: rest => bindCondition condition :: bindConditions rest

def bindRelated : List CorrelatedSubquery → List CorrelatedSubquery
  | [] => []
  | .mk correlation subquery system hidden :: rest =>
    .mk correlation (bindStaticParameters subquery) system hidden :: bindRelated rest
end

/-- Bind the references of a policy. -/
def bindPolicy (policy : Policy) : Policy := policy.map (bindCondition asF64 authData)

def bindAssetPermissions (asset : AssetPermissions) : AssetPermissions :=
  { select := asset.select.map (bindPolicy asF64 authData)
    insert := asset.insert.map (bindPolicy asF64 authData)
    update :=
      { preMutation := asset.update.preMutation.map (bindPolicy asF64 authData)
        postMutation := asset.update.postMutation.map (bindPolicy asF64 authData) }
    delete := asset.delete.map (bindPolicy asF64 authData) }

def bindTableEntry (entry : TablePermissionsEntry) : TablePermissionsEntry :=
  { row := entry.row.map (bindAssetPermissions asF64 authData)
    cell := entry.cell.map (fun cells =>
      cells.map (fun cell => (cell.1, bindAssetPermissions asF64 authData cell.2))) }

/-- Bind the references of all policies. -/
def bindPermissionsAuthData (config : PermissionsConfig) : PermissionsConfig :=
  { tables := config.tables.map (fun tables =>
      tables.map (fun entry => (entry.1, bindTableEntry asF64 authData entry.2))) }

/-- The query that is run for a client's query; internal queries are not guarded. -/
def transformQueryWithAuthData (config : PermissionsConfig) (internalQuery : Bool) (query : Ast) : Ast :=
  if internalQuery then bindStaticParameters asF64 authData query
  else bindStaticParameters asF64 authData (transformQuery config query)

end Bind

end ZeroCache.Auth
