import ZeroCache.Data.Ast
import Mathlib.Data.String.Basic

/-!
# Client view records

A client view record keeps what the clients of a group have been sent: its version, the queries
they desire and, per row, which queries refer to it (`cvr_types.rs`, `cvr_version.rs`). A version is
a state version of the replica with a counter of the changes made at that state; an absent counter
counts as zero.
-/

namespace ZeroCache.ViewSyncer

/-! ## Versions -/

/-- A version of a client view record. -/
structure CvrVersion where
  stateVersion : String
  configVersion : Option ℤ
  deriving DecidableEq, Repr

namespace CvrVersion

/-- The counter of a version. -/
def counter (v : CvrVersion) : ℤ := v.configVersion.getD 0

/-- A version is before another (`cmp_versions`). -/
def lt (a b : CvrVersion) : Bool :=
  a.stateVersion < b.stateVersion || (a.stateVersion = b.stateVersion && a.counter < b.counter)

/-- Two versions compare equal (`cmp_versions`). -/
def same (a b : CvrVersion) : Bool := a.stateVersion = b.stateVersion && a.counter = b.counter

/-- The version that counts one more change. -/
def oneAfter (v : CvrVersion) : CvrVersion := { v with configVersion := some (v.counter + 1) }

/-- The later of two versions, the first one if they compare equal. -/
def maxVersion (a : CvrVersion) (b : Option CvrVersion) : CvrVersion :=
  match b with
  | none => a
  | some b => if a.lt b then b else a

/-- A version after the original one: the current one, or one more change if it is not past it. -/
def ensureNewVersion (orig current : CvrVersion) : CvrVersion :=
  if orig.same current then current.oneAfter else current

variable {a b : CvrVersion}

theorem lt_iff : a.lt b = true ↔
    a.stateVersion < b.stateVersion ∨ (a.stateVersion = b.stateVersion ∧ a.counter < b.counter) := by
  simp [lt]

theorem same_iff : a.same b = true ↔ a.stateVersion = b.stateVersion ∧ a.counter = b.counter := by
  simp [same]

theorem lt_oneAfter (v : CvrVersion) : v.lt v.oneAfter = true := by
  rw [lt_iff]
  exact .inr ⟨rfl, Int.lt_succ _⟩

/-- One of two versions is before the other or they compare equal. -/
theorem lt_or_same_or_lt (a b : CvrVersion) : a.lt b = true ∨ a.same b = true ∨ b.lt a = true := by
  simp only [lt_iff, same_iff]
  rcases lt_trichotomy a.stateVersion b.stateVersion with hlt | heq | hgt
  · exact .inl (.inl hlt)
  · rcases lt_trichotomy a.counter b.counter with hlt' | heq' | hgt'
    · exact .inl (.inr ⟨heq, hlt'⟩)
    · exact .inr (.inl ⟨heq, heq'⟩)
    · exact .inr (.inr (.inr ⟨heq.symm, hgt'⟩))
  · exact .inr (.inr (.inl hgt))

theorem not_lt_of_lt (h : a.lt b = true) : b.lt a = false := by
  rw [Bool.eq_false_iff, ne_eq, lt_iff]
  rw [lt_iff] at h
  rintro (hlt | ⟨heq, hlt⟩)
  · rcases h with h | ⟨h, -⟩
    · exact lt_asymm hlt h
    · exact absurd h hlt.ne'
  · rcases h with h | ⟨-, h⟩
    · exact absurd heq h.ne'
    · omega

/-- A current version that is not before the original one gives a version after it. -/
theorem lt_ensureNewVersion {orig current : CvrVersion} (h : current.lt orig = false) :
    orig.lt (orig.ensureNewVersion current) = true := by
  unfold ensureNewVersion
  split
  · next hsame =>
    rw [same_iff] at hsame
    rw [lt_iff]
    exact .inr ⟨hsame.1, hsame.2 ▸ Int.lt_succ _⟩
  · next hsame =>
    rcases lt_or_same_or_lt orig current with hlt | hsame' | hgt
    · exact hlt
    · exact absurd hsame' hsame
    · rw [h] at hgt
      cases hgt

end CvrVersion

/-! ## Queries and clients -/

/-- What a client wants of a query. -/
structure ClientQueryState where
  inactivatedAt : Option ℚ
  ttl : ℚ
  deleted : Bool
  version : CvrVersion

/-- Where a query comes from. -/
inductive QueryKind where
  | client (ast : Ast)
  | custom (name : String) (args : List JsonValue)
  | internal (ast : Ast)

/-- A query of the group; internal queries have no client states and are never gotten. -/
structure QueryRecord where
  id : String
  kind : QueryKind
  transformationHash : Option String
  transformationVersion : Option CvrVersion
  clientState : Fields ClientQueryState
  patchVersion : Option CvrVersion

/-- Whether a query is internal. -/
def QueryRecord.isInternal (query : QueryRecord) : Bool :=
  match query.kind with
  | .internal _ => true
  | _ => false

/-- A client and the queries it desires. -/
structure ClientRecord where
  id : String
  desiredQueryIds : List String

/-- The record of a group, as far as the transitions read and write it. -/
structure Cvr where
  version : CvrVersion
  clients : Fields ClientRecord
  queries : Fields QueryRecord

/-! ## Rows -/

/-- The identity of a row; the columns of its key are in order. -/
structure RowId where
  schema : String
  table : String
  rowKey : Fields JsonValue
  deriving DecidableEq

/-- How often each query refers to a row. -/
abbrev RefCounts := Fields ℤ

/-- What is recorded of a row; a row without counts has been deleted. -/
structure RowRecord where
  patchVersion : CvrVersion
  id : RowId
  rowVersion : String
  refCounts : Option RefCounts
  deriving DecidableEq

/-! ## Patches -/

/-- Whether something is put or deleted. -/
inductive PatchOp where
  | put
  | del
  deriving DecidableEq, Repr

/-- A query is desired by a client, or gotten by the group if no client is named. -/
structure QueryPatch where
  op : PatchOp
  id : String
  clientId : Option String
  deriving DecidableEq

/-- A change sent to clients. -/
inductive Patch where
  | config (patch : QueryPatch)
  | putRow (id : RowId) (contents : Row)
  | deleteRow (id : RowId)
  deriving DecidableEq

/-- A change with the version it leads to. -/
structure PatchToVersion where
  patch : Patch
  toVersion : CvrVersion
  deriving DecidableEq

end ZeroCache.ViewSyncer
