import ZeroCache.Auth.ReadAuthorizer

/-!
# Write policies

Which policies apply to a change of a row, and whether a row passes them (`policy.rs`). The policy
of the row must pass, and so must every policy of a cell that is changed. A policy passes when one
of its rules holds; a missing or an empty one never does. Rules may have correlated subqueries,
which are resolved by the caller. As before `none` is a panic.
-/

namespace ZeroCache.Auth

open Zql List

/-- What is done to a row. -/
inductive Action where
  | insert
  | update
  | delete
  deriving DecidableEq, Repr

/-- Whether the row is checked as it was or as it becomes. -/
inductive Phase where
  | preMutation
  | postMutation
  deriving DecidableEq, Repr

/-- The policy of a row or cell for an action and a phase. -/
def AssetPermissions.applicable (asset : AssetPermissions) : Action → Phase → Option Policy
  | .insert, .postMutation => asset.insert
  | .update, .preMutation => asset.update.preMutation
  | .update, .postMutation => asset.update.postMutation
  | .delete, .preMutation => asset.delete
  | _, _ => none

def applicableRowPolicy (row : Option AssetPermissions) (action : Action) (phase : Phase) : Option Policy :=
  row.bind (fun row => row.applicable action phase)

/-- The policies of cells; an update is not checked for the columns it does not set. -/
def applicableCellPolicies (cells : Option (Fields AssetPermissions)) (action : Action) (phase : Phase)
    (changedColumns : List String) : List Policy :=
  match cells with
  | none => []
  | some cells => cells.filterMap (fun cell =>
      if action = .update ∧ cell.1 ∉ changedColumns then none else cell.2.applicable action phase)

section

variable (exist : CorrelatedSubquery → Predicate)

/-- One of the rules of a policy holds; there must be one. -/
def passesPolicyWithExists (policy : Option Policy) (row : Row) : Option Bool :=
  match policy with
  | none => some false
  | some [] => some false
  | some rules => rules.anyM (fun rule => (createPredicateWithExists exist rule).bind (fun test => test row))

/-- The policy of the row and all policies of cells pass. -/
def passesPolicyGroupWithExists (rowPolicy : Option Policy) (cellPolicies : List Policy) (row : Row) : Option Bool := do
  if ← passesPolicyWithExists exist rowPolicy row then
    cellPolicies.allM (fun policy => passesPolicyWithExists exist (some policy) row)
  else return false

/-- Whether a row passes the permissions of its table; without any it does not. -/
def canDoWithExists (tablePermissions : Option TablePermissionsEntry) (action : Action) (phase : Phase) (row : Row)
    (changedColumns : List String) : Option Bool :=
  match tablePermissions with
  | none => passesPolicyGroupWithExists exist none [] row
  | some entry => passesPolicyGroupWithExists exist (applicableRowPolicy entry.row action phase)
      (applicableCellPolicies entry.cell action phase changedColumns) row

end

/-! ## What a check depends on -/

/-- The rules a check of a row may evaluate. -/
def consultedRules (tablePermissions : Option TablePermissionsEntry) (action : Action) (phase : Phase)
    (changedColumns : List String) : List Condition :=
  match tablePermissions with
  | none => []
  | some entry => ((applicableRowPolicy entry.row action phase).toList ++
      applicableCellPolicies entry.cell action phase changedColumns).flatten

/-- A rule is built in the same way, or not at all, and says the same of two rows. -/
def SameVerdict (exist exist' : CorrelatedSubquery → Predicate) (row row' : Row) (rule : Condition) : Prop :=
  (createPredicateWithExists exist rule).map (fun test => test row) =
    (createPredicateWithExists exist' rule).map (fun test => test row')

variable {exist exist' : CorrelatedSubquery → Predicate} {row row' : Row}

theorem SameVerdict.bind_eq {rule : Condition} (h : SameVerdict exist exist' row row' rule) :
    (createPredicateWithExists exist rule).bind (fun test => test row) =
      (createPredicateWithExists exist' rule).bind (fun test => test row') := by
  unfold SameVerdict at h
  cases hbuild : createPredicateWithExists exist rule <;>
    cases hbuild' : createPredicateWithExists exist' rule <;> simp_all

section

variable {α : Type} {l : List α} {p q : α → Option Bool} (h : ∀ a ∈ l, p a = q a)

include h

theorem anyM_congr : l.anyM p = l.anyM q := by
  induction l with
  | nil => rfl
  | cons a rest ih =>
    rw [anyM, anyM, h a mem_cons_self, ih (fun b hb => h b (mem_cons_of_mem a hb))]

theorem allM_congr : l.allM p = l.allM q := by
  induction l with
  | nil => rfl
  | cons a rest ih =>
    rw [allM, allM, h a mem_cons_self, ih (fun b hb => h b (mem_cons_of_mem a hb))]

end

theorem passesPolicyWithExists_congr {policy : Option Policy}
    (h : ∀ rules ∈ policy, ∀ rule ∈ rules, SameVerdict exist exist' row row' rule) :
    passesPolicyWithExists exist policy row = passesPolicyWithExists exist' policy row' := by
  match policy with
  | none | some [] => rfl
  | some (rule :: rest) => exact anyM_congr (fun r hr => (h _ rfl r hr).bind_eq)

/-- A check depends on the verdicts of the rules it may evaluate. -/
theorem canDoWithExists_congr {tablePermissions : Option TablePermissionsEntry} {action : Action} {phase : Phase}
    {changedColumns : List String}
    (h : ∀ rule ∈ consultedRules tablePermissions action phase changedColumns, SameVerdict exist exist' row row' rule) :
    canDoWithExists exist tablePermissions action phase row changedColumns =
      canDoWithExists exist' tablePermissions action phase row' changedColumns := by
  match tablePermissions with
  | none => rfl
  | some entry =>
    have hpolicy (policy : Policy) (hmem : policy ∈ (applicableRowPolicy entry.row action phase).toList ++
        applicableCellPolicies entry.cell action phase changedColumns) (rule : Condition) (hrule : rule ∈ policy) :
        SameVerdict exist exist' row row' rule := h rule (mem_flatten.mpr ⟨policy, hmem, hrule⟩)
    unfold canDoWithExists passesPolicyGroupWithExists
    dsimp only
    rw [passesPolicyWithExists_congr (fun policy hp => hpolicy policy
        (mem_append_left _ (Option.mem_toList.mpr hp))),
      allM_congr (fun policy hp => passesPolicyWithExists_congr (fun rules hrules => by
        obtain rfl := Option.some.inj hrules
        exact hpolicy _ (mem_append_right _ hp)))]

end ZeroCache.Auth
