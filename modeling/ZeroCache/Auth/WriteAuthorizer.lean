import ZeroCache.Auth.Policy
import ZeroCache.Mutagen.CrudOps

/-!
# Write authorization

How a mutation is judged (`write_authorizer.rs`): each upsert is taken for an update or an insert,
then every operation is checked against the policies of its table, before and after. The rows
are looked up by the caller, for all operations in the same state.
-/

namespace ZeroCache.Auth

open Zql Mutagen Option

/-- An operation once upserts are resolved. -/
inductive NormalizedCrudOp where
  | insert (op : RowOp)
  | update (op : RowOp)
  | delete (op : RowOp)

/-- A table that is not in the replica. -/
structure InvalidTableName where
  table : String

/-- Every operation names a known table. -/
def validateTableNames (ops : List CrudOp) (knownTables : List String) : Except InvalidTableName Unit :=
  ops.forM (fun op =>
    if op.row.tableName ∈ knownTables then .ok () else .error ⟨op.row.tableName⟩)

/-- An upsert is an update of a row that exists and an insert of one that does not. -/
def normalizeOp (rowExists : RowOp → Bool) : CrudOp → NormalizedCrudOp
  | .upsert op => if rowExists op then .update op else .insert op
  | .insert op => .insert op
  | .update op => .update op
  | .delete op => .delete op

def normalizeOps (rowExists : RowOp → Bool) (ops : List CrudOp) : List NormalizedCrudOp :=
  ops.map (normalizeOp rowExists)

def changedColumns (row : Row) : List String := row.map Prod.fst

section

variable (tables : Fields TablePermissionsEntry) (existingRow : String → Row → Option Row)
  (resultingRow : NormalizedCrudOp → Row) (exist : CorrelatedSubquery → Predicate)

/-- The check of one operation against the row that exists; it must be there. -/
def passesPreMutation : NormalizedCrudOp → Option Bool
  | .insert _ => some true
  | .update op =>
    match existingRow op.tableName (op.value.filter (fun entry => op.primaryKey.contains entry.1)) with
    | none => some false
    | some row => canDoWithExists exist (tables.get? op.tableName) .update .preMutation row (changedColumns op.value)
  | .delete op =>
    match existingRow op.tableName op.value with
    | none => some false
    | some row => canDoWithExists exist (tables.get? op.tableName) .delete .preMutation row []

/-- The check of one operation against the row that results. -/
def passesPostMutation (normalized : NormalizedCrudOp) : Option Bool :=
  match normalized with
  | .insert op =>
    canDoWithExists exist (tables.get? op.tableName) .insert .postMutation (resultingRow normalized) []
  | .update op =>
    canDoWithExists exist (tables.get? op.tableName) .update .postMutation (resultingRow normalized)
      (changedColumns op.value)
  | .delete _ => some true

def canPreMutationWithExists (ops : List NormalizedCrudOp) : Option Bool :=
  ops.allM (passesPreMutation tables existingRow exist)

def canPostMutationWithExists (ops : List NormalizedCrudOp) : Option Bool :=
  ops.allM (passesPostMutation tables resultingRow exist)

/-- The verdict on a mutation. Both checks are made, whatever the first one finds. -/
def authorizeMutationWithExists (rowExists : RowOp → Bool) (knownTables : List String) (ops : List CrudOp) :
    Option (Except InvalidTableName Bool) :=
  match validateTableNames ops knownTables with
  | .error e => some (.error e)
  | .ok () => do
    let canPre ← canPreMutationWithExists tables existingRow exist (normalizeOps rowExists ops)
    let canPost ← canPostMutationWithExists tables resultingRow exist (normalizeOps rowExists ops)
    return .ok (canPre && canPost)

end

variable {tables : Fields TablePermissionsEntry} {existingRow : String → Row → Option Row}
  {resultingRow : NormalizedCrudOp → Row} {exist : CorrelatedSubquery → Predicate}

theorem allM_eq_true {α : Type} {l : List α} {p : α → Option Bool} (h : l.allM p = some true) :
    ∀ a ∈ l, p a = some true := by
  induction l with
  | nil => simp
  | cons a rest ih =>
    obtain ⟨verdict, hverdict, h⟩ := bind_eq_some_iff.mp h
    cases verdict with
    | false => cases h
    | true => exact List.forall_mem_cons.mpr ⟨hverdict, ih h⟩

/-- In an accepted mutation every operation passes both checks, as it was resolved. -/
theorem authorizeMutationWithExists_accepts {rowExists : RowOp → Bool} {knownTables : List String} {ops : List CrudOp}
    (h : authorizeMutationWithExists tables existingRow resultingRow exist rowExists knownTables ops =
      some (.ok true)) {op : CrudOp} (hop : op ∈ ops) :
    passesPreMutation tables existingRow exist (normalizeOp rowExists op) = some true ∧
      passesPostMutation tables resultingRow exist (normalizeOp rowExists op) = some true := by
  unfold authorizeMutationWithExists at h
  split at h
  · cases some.inj h
  · obtain ⟨canPre, hpre, h⟩ := bind_eq_some_iff.mp h
    obtain ⟨canPost, hpost, h⟩ := bind_eq_some_iff.mp h
    obtain ⟨rfl, rfl⟩ : canPre = true ∧ canPost = true := by
      simpa using Except.ok.inj (some.inj h)
    have hmem : normalizeOp rowExists op ∈ normalizeOps rowExists ops := List.mem_map_of_mem hop
    exact ⟨allM_eq_true hpre _ hmem, allM_eq_true hpost _ hmem⟩

end ZeroCache.Auth
