import Mathlib.Data.BitVec

/-!
# The exclusive or of a list

A fingerprint of a set is the exclusive or of a share of each member. What two lists over the same
index contribute together is contributed index by index, so that the difference of two fingerprints
is the fingerprint of the difference.
-/

namespace ZeroCache.Lib

open List

variable {w : ℕ} {α : Type}

/-- The exclusive or of shares. -/
def xorAll (shares : List (BitVec w)) : BitVec w := shares.foldr (· ^^^ ·) 0

@[simp]
theorem xorAll_nil : xorAll ([] : List (BitVec w)) = 0 := rfl

@[simp]
theorem xorAll_cons (share : BitVec w) (rest : List (BitVec w)) : xorAll (share :: rest) = share ^^^ xorAll rest := rfl

/-- An index without a share contributes nothing. -/
theorem xorAll_filterMap (f : α → Option (BitVec w)) (indices : List α) :
    xorAll (indices.filterMap f) = xorAll (indices.map (fun i => (f i).getD 0)) := by
  induction indices with
  | nil => rfl
  | cons i rest ih =>
    cases h : f i with
    | none => simp [filterMap_cons_none h, h, ih]
    | some => simp [filterMap_cons_some h, h, ih]

/-- The shares of two lists over one index combine index by index. -/
theorem xorAll_map_xor (f g : α → BitVec w) (indices : List α) :
    xorAll (indices.map f) ^^^ xorAll (indices.map g) = xorAll (indices.map (fun i => f i ^^^ g i)) := by
  induction indices with
  | nil => simp
  | cons i rest ih =>
    rw [map_cons, map_cons, map_cons, xorAll_cons, xorAll_cons, xorAll_cons, ← ih]
    ac_rfl

end ZeroCache.Lib
