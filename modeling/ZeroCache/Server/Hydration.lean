import ZeroCache.Replica.Specs
import ZeroCache.Server.Select
import ZeroCache.ViewSyncer.Received

/-!
# Hydration from SQLite

A query a client asks for is hydrated by SQL: the rows of its table, then the rows of the
subqueries in its condition and of its related subqueries, each selected by the values of the rows
found before (`group_transition.rs`, `live_hydration.rs`). Every fetched row gives a body for the
client, an update of its record and possibly a patch.
-/

namespace ZeroCache.Server

open Replica ViewSyncer Zql

variable {α β : Type}

/-- What is read of a table of the replica (`hydration_plan_from_ast`). -/
structure HydrationPlan where
  tableName : String
  primaryKey : List String
deriving DecidableEq

/-- Why hydration failed; `panic` stands for an unwinding thread. -/
inductive HydrationError where
  | unknownTable (table : String)
  | unresolvedParameter
  | panic
  deriving DecidableEq, Repr

/-- What hydration produced. -/
structure HydratePatchesResult where
  patches : List PatchToVersion
  rowUpdates : List (RowId × Option RowRecord)
  rowBodies : List (RowId × Row)

namespace HydratePatchesResult

/-- Nothing. -/
def empty : HydratePatchesResult := ⟨[], [], []⟩

/-- One result after another. -/
def append (a b : HydratePatchesResult) : HydratePatchesResult :=
  ⟨a.patches ++ b.patches, a.rowUpdates ++ b.rowUpdates, a.rowBodies ++ b.rowBodies⟩

end HydratePatchesResult

/-! ## Row identities -/

/-- A text cut at its bars. -/
def splitBars : List Char → List (List Char)
  | [] => [[]]
  | c :: rest =>
    if c = '|' then [] :: splitBars rest
    else match splitBars rest with
      | [] => [[c]]
      | part :: parts => (c :: part) :: parts

/-- Fields in the order of their names. -/
def sortFields (fields : Fields α) : Fields α := fields.insertionSort (fun a b => a.1 ≤ b.1)

section Identity

variable (env : Env)

/-- The text key of a row: its printed key columns, joined by bars. -/
def rowKeyFromPrimaryKey (row : Row) (primaryKey : List String) : String :=
  "|".intercalate (primaryKey.map (fun field => field ++ "=" ++ env.stringify (row.get field)))

/-- The key columns of a text key. -/
def rowIdFromKeyString (key : String) (primaryKey : List String) : Fields JsonValue :=
  sortFields (primaryKey.zipIdx.foldl (fun rowKey entry =>
    let raw := ((splitBars key.toList)[entry.2]?).bind (List.dropPrefix? · (entry.1 ++ "=").toList)
    let text := (raw.map String.ofList).getD "null"
    rowKey.set entry.1 ((env.parse text).getD .null)) [])

/-- The text key of a row identity, if it has all key columns. -/
def rowKeyStringFromRowId (id : RowId) (primaryKey : List String) : Option String :=
  (primaryKey.mapM (fun field => (id.rowKey.get? field).map
    (fun value => field ++ "=" ++ env.stringify value))).map (fun parts => "|".intercalate parts)

/-- The text a row identity is looked up by. -/
def rowIdKey (id : RowId) : String :=
  id.rowKey.foldl (fun key entry => key ++ "\x02" ++ entry.1 ++ "\x03" ++ env.stringify entry.2)
    (id.schema ++ "\x01" ++ id.table)

/-- The version of a row of the replica. -/
def replicaRowVersion (row : Row) (fallback : String) : String :=
  match row.get? zeroVersionColumnName with
  | some (.string version) => version
  | some value => env.stringify value
  | none => fallback

/-- How the rows of a table are identified when they are received for a query. -/
def identityForPlan (plan : HydrationPlan) (queryId : String) : RowIdentity :=
  { rowKey := fun row => rowKeyFromPrimaryKey env row plan.primaryKey
    rowRefCounts := [(queryId, 1)]
    rowVersion := fun row => replicaRowVersion env row ("v" ++ rowKeyFromPrimaryKey env row plan.primaryKey)
    wireRowId := fun key => ⟨"public", plan.tableName, rowIdFromKeyString env key plan.primaryKey⟩ }

end Identity

/-- The order rows are hydrated in: the order asked for, completed by the primary key. -/
def sortForHydration (plan : HydrationPlan) (orderBy : Option QueryOrdering) : QueryOrdering :=
  match orderBy with
  | some (entry :: rest) => plan.primaryKey.foldl (fun sort key =>
      if sort.any (fun entry => entry.1 = key) then sort else sort ++ [(key, .asc)]) (entry :: rest)
  | _ => plan.primaryKey.map (fun key => (key, .asc))

/-! ## Filters from parent rows -/

/-- A value as a literal; lists and objects have none. -/
def jsonToLiteral (asF64 : ℤ → ℚ) : JsonValue → Option LiteralValue
  | .string s => some (.string s)
  | .number n => some (.number n)
  | .bigint n => some (.number (asF64 n))
  | .bool b => some (.bool b)
  | .null => some .null
  | .array _ => none
  | .object _ => none

section Filter

variable (asF64 : ℤ → ℚ)

/-- The value of a field as a literal, if the row has the field. -/
def literalOf (row : Row) (field : String) : Option LiteralValue := (row.get? field).bind (jsonToLiteral asF64)

/-- A column of a child equals that of a parent row. -/
def pairCondition (row : Row) (pair : String × String) : Option (Formula α) :=
  (literalOf asF64 row pair.1).map (fun literal => .simple .eq (.column pair.2) (.literal literal))

/-- The columns of a child equal those of a parent row. -/
def parentCondition (correlation : Correlation) (row : Row) : Option (Formula α) :=
  ((correlation.parentField.zip correlation.childField).mapM (pairCondition asF64 row)).map .and

/-- The children of some parent rows. -/
def correlationFilter (correlation : Correlation) (parents : List Row) : Formula α :=
  match correlation.parentField, correlation.childField with
  | [parentField], [childField] =>
    match parents.filterMap (fun row => literalOf asF64 row parentField) with
    | [] => .or []
    | values => .simple .inList (.column childField) (.literal (.array values))
  | _, _ => .or (parents.filterMap (parentCondition asF64 correlation))

/-- The condition on the children of some parent rows (`related_filter_from_parent_rows`). -/
def relatedFilter (correlation : Correlation) (where_ : Option (Formula α)) (parents : List Row) :
    Option (Formula α) :=
  if correlation.parentField = [] ∨ correlation.parentField.length ≠ correlation.childField.length then none
  else match where_ with
    | some formula => some (.and [formula, correlationFilter asF64 correlation parents])
    | none => some (correlationFilter asF64 correlation parents)

end Filter

/-! ## Hydrating subqueries -/

/-- A subquery that can be hydrated for its correlation and some parent rows. -/
structure Hydrator where
  scope : SqlTable
  hydrate : Correlation → List (RowId × Row) → Except HydrationError HydratePatchesResult

section Hydrate

variable (env : Env) (plans : Fields HydrationPlan) (engine : SqlEngine) (source : Source)

/-- What is read of a table. -/
def planFor (table : String) : Except HydrationError HydrationPlan :=
  match plans.get? table with
  | some plan => .ok plan
  | none => .error (.unknownTable table)

/-- Select rows by a condition. -/
def selectRows (table : String) (order : QueryOrdering) (filter : Option (Formula SqlTable)) (limit : Option ℚ)
    (start : Option Bound) : Except HydrationError (List Row) :=
  match filter with
  | none => .ok (fetchRowsFromSqlite source table order (fun _ => some true) limit start)
  | some formula => match filtersToSql engine source table formula with
    | some test => .ok (fetchRowsFromSqlite source table order test limit start)
    | none => .error .unresolvedParameter

/-- The identities and bodies of fetched rows. -/
def bodiesOf (identity : RowIdentity) (rows : List Row) : List (RowId × Row) :=
  rows.map (fun row => (identity.wireRowId (identity.rowKey row), row))

/-- Receive rows without executing a query (`hydrate_rows_from_sqlite_with_row_updates`). -/
def receiveRelatedRows (identity : RowIdentity) (existing : Fields ExistingRow) (orig version : CvrVersion)
    (rows : List Row) : Except HydrationError HydratePatchesResult :=
  match receiveRows identity existing orig version rows ⟨[], []⟩ with
  | none => .error .panic
  | some (outcomes, _) =>
    let result : HydrationResult := ⟨[], outcomes, [], [], keyed identity rows⟩
    .ok ⟨hydrationToPatches identity result version, hydrationRowUpdates identity result, bodiesOf identity rows⟩

variable (queryHash : String) (orig version : CvrVersion)

/-- Hydrate subqueries one after another for the same parent rows
(`hydrate_related_rows_recursive`). -/
def hydrateRelated (subs : List (Subquery Hydrator)) (parents : List (RowId × Row)) :
    Except HydrationError HydratePatchesResult :=
  subs.foldlM (fun result sub => return result.append (← sub.query.hydrate sub.correlation parents)) .empty

/-- The rows of a subquery for a batch of parent rows. -/
def hydrateBatch (q : Query Hydrator) (correlation : Correlation) (plan : HydrationPlan)
    (batch : List (RowId × Row)) : Except HydrationError HydratePatchesResult :=
  match relatedFilter env.asF64 correlation (q.where_.map (Formula.map (Subquery.map Hydrator.scope)))
      (batch.map Prod.snd) with
  | none => .ok .empty
  | some filter => do
    let rows ← selectRows engine source plan.tableName (sortForHydration plan q.orderBy) (some filter) q.limit q.start
    receiveRelatedRows (identityForPlan env plan queryHash) [] orig version rows

/-- The parent rows that are looked up together: one by one if the subquery has a limit or a start,
which are per parent. -/
def parentBatches (q : Query β) (parents : List α) : List (List α) :=
  if q.limit.isSome ∨ q.start.isSome then parents.map (fun parent => [parent]) else [parents]

/-- Hydrate a subquery for parent rows: its rows, then the subqueries in its condition for these
rows, then its related subqueries for all rows so far. -/
def hydrateLevel (q : Query Hydrator) (correlation : Correlation) (parents : List (RowId × Row)) :
    Except HydrationError HydratePatchesResult := do
  let plan ← planFor plans q.table
  let own ← (parentBatches q parents).foldlM (fun result batch =>
    return HydratePatchesResult.append result
      (← hydrateBatch env engine source queryHash orig version q correlation plan batch)) .empty
  let exist ← hydrateRelated (q.existHops.map Prod.snd) own.rowBodies
  let own := own.append exist
  return own.append (← hydrateRelated q.related own.rowBodies)

/-- The hydrator of a query. -/
def hydratorOf (ast : Ast) : Hydrator :=
  foldAst (fun q =>
    { scope := { table := q.table, filter := whereToSql engine source (q.map Hydrator.scope) }
      hydrate := hydrateLevel env plans engine source queryHash orig version q }) ast

end Hydrate

/-! ## Hydrating a query -/

/-- The row records a hydration of a query looks at: all of the root table, by text key, and those of
them that the query refers to. -/
structure ExistingRows where
  received : Fields ExistingRow
  forDeletion : List (String × ExistingRow)

section Put

variable (env : Env) (plans : Fields HydrationPlan) (engine : SqlEngine) (source : Source)

/-- What the row records say of the rows of a table. -/
def existingRows (records : List RowRecord) (plan : HydrationPlan) (queryHash : String) : ExistingRows :=
  (records.filter (fun record => record.id.schema = "public" ∧ record.id.table = plan.tableName)).foldl
    (fun existing record =>
      match rowKeyStringFromRowId env record.id plan.primaryKey with
      | none => existing
      | some key =>
        let row : ExistingRow := ⟨record.rowVersion, record.patchVersion, record.refCounts⟩
        { received := existing.received.set key row
          forDeletion :=
            if record.refCounts.any (fun counts => (counts.get? queryHash).isSome) then
              existing.forDeletion ++ [(key, row)]
            else existing.forDeletion }) ⟨[], []⟩

/-- Hydrate the root rows of a query and execute it
(`hydrate_patches_from_sqlite_with_row_updates`). -/
def hydrateRoot (records : List RowRecord) (cvr : Cvr) (orig : CvrVersion) (tracked : List String)
    (queryHash : String) (plan : HydrationPlan) (ast : Ast) :
    Except HydrationError (HydratePatchesResult × Cvr × List String) := do
  let identity := identityForPlan env plan queryHash
  let existing := existingRows env records plan queryHash
  let cvr := { cvr with version := orig.ensureNewVersion cvr.version }
  let rows ← selectRows engine source plan.tableName (sortForHydration plan ast.orderBy)
    ((queryOf ast).where_.map (Formula.map (Subquery.map (sqlTable engine source)))) ast.limit ast.start
  match hydrateQueryFromRows identity cvr orig tracked queryHash queryHash rows existing.received
      existing.forDeletion with
  | none => throw .panic
  | some (result, cvr, tracked) =>
    return (⟨hydrationToPatches identity result cvr.version, hydrationRowUpdates identity result,
      bodiesOf identity rows⟩, cvr, tracked)

/-- Hydrate a query: its root rows, the subqueries in its condition for these rows, then its related
subqueries for all rows so far. -/
def hydrateAst (records : List RowRecord) (cvr : Cvr) (orig : CvrVersion) (tracked : List String)
    (queryHash : String) (plan : HydrationPlan) (ast : Ast) :
    Except HydrationError (HydratePatchesResult × Cvr × List String) := do
  let (root, cvr, tracked) ← hydrateRoot env engine source records cvr orig tracked queryHash plan ast
  let q := (queryOf ast).map (hydratorOf env plans engine source queryHash orig cvr.version)
  let exist ← hydrateRelated (q.existHops.map Prod.snd) root.rowBodies
  let root := root.append exist
  return (root.append (← hydrateRelated q.related root.rowBodies), cvr, tracked)

end Put

end ZeroCache.Server
