import Mathlib.Logic.Function.Basic

/-!
# Overwriting the entries of a map

A map is overwritten by a list of writes, each of a key and what it is to hold from then on, if
anything. The last write of a key counts. Writes that were made before can be made again: after
writes that leave a map as it is and the writes made since, replaying both leaves the new map as it is.
-/

namespace ZeroCache.Lib

open List Function Prod

variable {κ α β : Type} [DecidableEq κ]

/-- Overwrite a map, in order. -/
def overwrite (map : κ → Option α) (writes : List (κ × Option α)) : κ → Option α :=
  writes.foldl (fun map write => Function.update map write.1 write.2) map

variable (map : κ → Option α)

@[simp]
theorem overwrite_nil : overwrite map [] = map := rfl

theorem overwrite_cons (write : κ × Option α) (writes : List (κ × Option α)) :
    overwrite map (write :: writes) = overwrite (update map write.1 write.2) writes := rfl

theorem overwrite_append (first second : List (κ × Option α)) :
    overwrite map (first ++ second) = overwrite (overwrite map first) second := foldl_append

variable {writes : List (κ × Option α)} {key : κ}

/-- A key that is not written keeps what it holds. -/
theorem overwrite_of_notMem (h : key ∉ writes.map fst)
    (map : κ → Option α) : overwrite map writes key = map key := by
  induction writes generalizing map with
  | nil => rfl
  | cons write rest ih =>
    rw [map_cons, mem_cons, not_or] at h
    rw [overwrite_cons, ih h.2, update_of_ne h.1]

/-- What a written key holds does not depend on what it held. -/
theorem overwrite_of_mem (h : key ∈ writes.map fst)
    (map map' : κ → Option α) : overwrite map writes key = overwrite map' writes key := by
  induction writes generalizing map map' with
  | nil => cases h
  | cons write rest ih =>
    rw [overwrite_cons, overwrite_cons]
    by_cases hrest : key ∈ rest.map fst
    · exact ih hrest _ _
    · have hkey : key = write.1 := by
        rw [map_cons, mem_cons] at h
        exact h.resolve_right hrest
      rw [overwrite_of_notMem hrest, overwrite_of_notMem hrest, hkey, update_self, update_self]

/-- Writes that leave a map as it is can be replayed before the writes made since. -/
theorem overwrite_replay {map : κ → Option α} {first : List (κ × Option α)} (h : overwrite map first = map)
    (second : List (κ × Option α)) : overwrite (overwrite map second) (first ++ second) = overwrite map second := by
  funext key
  rw [overwrite_append]
  by_cases hsecond : key ∈ second.map fst
  · exact overwrite_of_mem hsecond _ _
  · rw [overwrite_of_notMem hsecond]
    by_cases hfirst : key ∈ first.map fst
    · rw [overwrite_of_mem hfirst _ map, h, overwrite_of_notMem hsecond]
    · rw [overwrite_of_notMem hfirst]

/-- Writes of distinct keys: each key holds what is written to it, if anything is. -/
theorem overwrite_filterMap {keys : List κ} (hnodup : keys.Nodup) {f : κ → Option β} {write : β → κ × Option α}
    (hkey : ∀ key ∈ keys, ∀ b, f key = some b → (write b).1 = key) (map : κ → Option α) (key : κ) :
    overwrite map ((keys.filterMap f).map write) key =
      if key ∈ keys then ((f key).map (fun b => (write b).2)).getD (map key) else map key := by
  induction keys generalizing map with
  | nil => rfl
  | cons first rest ih =>
    obtain ⟨hnotin, hrest⟩ := nodup_cons.mp hnodup
    have hkeys : ∀ key ∈ rest, ∀ b, f key = some b → (write b).1 = key :=
      fun key hmem => hkey key (mem_cons_of_mem _ hmem)
    cases hf : f first with
    | none =>
      rw [filterMap_cons_none hf, ih hrest hkeys]
      by_cases hfirst : key = first
      · subst hfirst
        simp [hf]
      · simp [hfirst]
    | some b =>
      have hb : (write b).1 = first := hkey first mem_cons_self b hf
      rw [filterMap_cons_some hf, map_cons, overwrite_cons, ih hrest hkeys]
      by_cases hfirst : key = first
      · subst hfirst
        simp [hf, hb]
      · have hne : key ≠ (write b).1 := fun heq => hfirst (heq.trans hb)
        simp [hfirst, update_of_ne hne]

end ZeroCache.Lib
