import ZeroCache.Auth.WriteAuthorizer

/-!
# Authorization of CRUD mutations

The server judges a mutation against its replica (`authorize_crud_ops` of `live_connection.rs`): it
checks that every operation names a table and its primary key, looks the rows up, and lets the write
authorizer decide. All operations are judged in the state before the first of them, although they are
executed one after the other. Where no two of them are about one row, no rule reads what an earlier
operation wrote and values are read as they were given, this makes no difference.
-/

namespace ZeroCache.Server

open Sqlite Zql Auth Mutagen

/-- What is left to SQLite and to libraries: how values are stored, the nearest `f64` of an integer,
the text of bytes and of a JSON value, and the tables `list_tables` shows. -/
structure ReplicaEnv where
  engine : Engine
  asF64 : ℤ → ℚ
  fromUtf8Lossy : List UInt8 → String
  stringify : JsonValue → String
  listed : String → Bool

/-! ## Reading the replica -/

section

variable (env : ReplicaEnv)

/-- A value bound to a statement; the conversion to `i64` saturates. -/
def jsonToSqlite : JsonValue → SqlValue
  | .null => .null
  | .bool b => .integer (if b then 1 else 0)
  | .number n => if n.den = 1 ∧ -2 ^ 63 ≤ n.num ∧ n.num ≤ 2 ^ 63 then .integer (min n.num (2 ^ 63 - 1)) else .real n
  | .bigint n => .text (toString n)
  | .string s => .text s
  | .array items => .text (env.stringify (.array items))
  | .object fields => .text (env.stringify (.object fields))

/-- A value read from the replica: there are no booleans and no JSON. -/
def sqliteToJson : SqlValue → JsonValue
  | .null => .null
  | .integer n => .number (env.asF64 n)
  | .real x => .number x
  | .text s => .string s
  | .blob bytes => .string (env.fromUtf8Lossy bytes)

def readRow (row : SqlRow) : Row := row.map (fun entry => (entry.1, sqliteToJson env entry.2))

def boundKey (key : Row) : SqlRow := key.map (fun entry => (entry.1, jsonToSqlite env entry.2))

/-- The row of a key, if it can be read. -/
def lookupReplicaRow (db : Database) (tableName : String) (key : Row) : Option Row :=
  if key.isEmpty then none
  else ((db.selectFirst env.engine tableName (boundKey env key)).toOption.join).map (readRow env)

/-- The rows of a table, if they can be read. -/
def allReplicaRows (db : Database) (tableName : String) : Option (List Row) :=
  ((db.selectAll tableName).toOption).map (List.map (readRow env))

/-- The row an operation would leave: the given values, over those of the row it updates. -/
def resultingReplicaRow (db : Database) : NormalizedCrudOp → Row
  | .insert op => op.value
  | .update op =>
    match (keyValues op.primaryKey op.value).bind (lookupReplicaRow env db op.tableName) with
    | none => []
    | some row => op.value.foldl (fun row entry => row.set entry.1 entry.2) row
  | .delete _ => []

/-- Whether the row of an upsert is in the replica. -/
def replicaRowExists (db : Database) (op : RowOp) : Bool :=
  ((keyValues op.primaryKey op.value).bind (lookupReplicaRow env db op.tableName)).isSome

end

/-! ## Subqueries of rules -/

/-- Equality of join keys; null equals nothing. -/
def valuesEqual (a b : JsonValue) : Bool := a ≠ .null && b ≠ .null && a = b

/-- A child row belongs to a parent row. -/
def correlated (correlation : Correlation) (parent child : Row) : Bool :=
  (correlation.parentField.zip correlation.childField).all (fun fields =>
    valuesEqual (parent.get fields.1) (child.get fields.2))

section

variable (rows : String → Option (List Row))

mutual
/-- Whether a row of the subquery's table belongs to a row and satisfies the subquery's condition;
its ordering, start and limit and its related subqueries are not looked at. -/
def policyRelatedExists : CorrelatedSubquery → Predicate
  | .mk correlation (.mk _ table _ where_ _ _ _ _) _ _, parent =>
    if correlation.parentField.isEmpty || correlation.parentField.length != correlation.childField.length then
      some false
    else
      match rows table with
      | none => some false
      | some children => children.anyM (fun child =>
          if correlated correlation parent child then
            match where_ with
            | none => some true
            | some condition => (policyPredicate condition).bind (fun test => test child)
          else some false)

/-- The predicate of a condition whose subqueries are resolved in the replica. -/
def policyPredicate : Condition → Option Predicate
  | .simple op left right => createSimplePredicate op left right
  | .and conditions => (policyPredicates conditions).map allOf
  | .or conditions => (policyPredicates conditions).map anyOf
  | .correlatedSubquery related op _ _ _ =>
    some (fun row => (policyRelatedExists related row).map (fun matched =>
      match op with
      | .exist => matched
      | .notExist => !matched))

def policyPredicates : List Condition → Option (List Predicate)
  | [] => some []
  | condition :: rest => do return (← policyPredicate condition) :: (← policyPredicates rest)
end

/-- The condition of a subquery is evaluated as a rule is. -/
theorem policyPredicate_eq (condition : Condition) :
    policyPredicate rows condition = createPredicateWithExists (policyRelatedExists rows) condition := by
  have hlist (conditions : List Condition)
      (h : ∀ c ∈ conditions, policyPredicate rows c = createPredicateWithExists (policyRelatedExists rows) c) :
      policyPredicates rows conditions = createPredicatesWithExists (policyRelatedExists rows) conditions := by
    induction conditions with
    | nil => rfl
    | cons condition rest ih =>
      rw [policyPredicates, createPredicatesWithExists, h condition List.mem_cons_self,
        ih (fun c hc => h c (List.mem_cons_of_mem _ hc))]
  induction condition with
  | simple | exist => rfl
  | and conditions ih | or conditions ih => rw [policyPredicate, createPredicateWithExists, hlist conditions ih]

end

/-! ## The verdict -/

section

variable (env : ReplicaEnv) (authData : JsonValue)

/-- The primary keys of the tables that have one. -/
def replicaTablePrimaryKeys (db : Database) : Fields (List String) :=
  (db.tables.filter (fun t => env.listed t.name && !t.primaryKey.isEmpty)).map (fun t => (t.name, t.primaryKey))

/-- Every operation names the primary key of its table and gives its values. -/
def opsMatchReplicaSchema (db : Database) (ops : List CrudOp) : Bool :=
  ops.all (fun op =>
    (replicaTablePrimaryKeys env db).get? op.row.tableName = some op.row.primaryKey &&
      (keyValues op.row.primaryKey op.row.value).isSome)

/-- The policies, with the claims of the user bound in them. -/
def boundTables (permissions : PermissionsConfig) : Option (Fields TablePermissionsEntry) :=
  (bindPermissionsAuthData env.asF64 authData permissions).tables

/-- Whether a mutation may be executed. Without a permissions document every one may. -/
def authorizeCrudOps (permissions : Option PermissionsConfig) (db : Database) (ops : List CrudOp) : Option Bool :=
  match permissions with
  | none => some true
  | some permissions =>
    if !opsMatchReplicaSchema env db ops then some false
    else
      match boundTables env authData permissions with
      | none => some false
      | some tables =>
        (authorizeMutationWithExists tables (lookupReplicaRow env db) (resultingReplicaRow env db)
          (policyRelatedExists (allReplicaRows env db)) (replicaRowExists env db)
          ((replicaTablePrimaryKeys env db).map Prod.fst) ops).map (fun verdict =>
            match verdict with
            | .ok authorized => authorized
            | .error _ => false)

end

end ZeroCache.Server
