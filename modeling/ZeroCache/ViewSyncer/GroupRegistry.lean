import ZeroCache.Lib.Fields
import Mathlib.Data.List.Induction

/-!
# The registry of client groups

`get_or_create` (`group_registry.rs`) looks a service up under the registry's lock, builds a new one
without it if none is live, and looks again before it inserts its own. The map holds weak references: a
service lives as long as a caller or a call in progress holds it. Services are told apart by numbers.
-/

namespace ZeroCache.ViewSyncer

open List Option Assoc

/-- The registry, the calls in progress and the services that callers hold. -/
structure Registry where
  inner : Fields ℕ
  waiting : List String
  building : List (String × ℕ)
  held : List (String × ℕ)

/-- What a thread does while it has the lock, or without it. -/
inductive RegistryEvent where
  | lookup (group : String)
  | start (group : String) (candidate : ℕ)
  | fail (group : String)
  | insert (group : String) (candidate : ℕ)
  | release (group : String) (service : ℕ)

namespace Registry

/-- Someone holds the service. -/
def alive (r : Registry) (service : ℕ) : Bool := service ∈ (r.held ++ r.building).map Prod.snd

/-- The live service of a group. -/
def live? (r : Registry) (group : String) : Option ℕ := (r.inner.get? group).filter r.alive

/-- One step of a thread. -/
def step (r : Registry) : RegistryEvent → Registry
  | .lookup group =>
    match r.live? group with
    | some existing => { r with held := (group, existing) :: r.held }
    | none => { r with waiting := group :: r.waiting }
  | .start group candidate =>
    if group ∈ r.waiting then
      { r with waiting := r.waiting.erase group, building := (group, candidate) :: r.building }
    else r
  | .fail group => { r with waiting := r.waiting.erase group }
  | .insert group candidate =>
    if (group, candidate) ∈ r.building then
      let building := r.building.erase (group, candidate)
      match r.live? group with
      | some existing => { r with building := building, held := (group, existing) :: r.held }
      | none =>
        let r' := { r with building := building, held := (group, candidate) :: r.held }
        -- Entries whose services have been dropped are reaped.
        { r' with inner := (r.inner.set group candidate).filter (fun entry => r'.alive entry.2) }
    else r
  | .release group service => { r with held := r.held.erase (group, service) }

/-- The registry after some steps of any number of threads. -/
def run (events : List RegistryEvent) : Registry := events.foldl step ⟨[], [], [], []⟩

/-- A service that someone holds is the one of its group in the map. -/
def Kept (r : Registry) : Prop := ∀ entry ∈ r.held, r.inner.get? entry.1 = some entry.2

theorem alive_of_held {r : Registry} {entry : String × ℕ} (h : entry ∈ r.held) : r.alive entry.2 = true := by
  simp only [alive, decide_eq_true_eq]
  exact mem_map_of_mem (mem_append_left _ h)

theorem get?_filter {entries : Fields ℕ} {keep : ℕ → Bool} {key : String} {value : ℕ}
    (h : entries.get? key = some value) (hkeep : keep value = true) :
    get? (entries.filter (fun entry => keep entry.2)) key = some value := by
  induction entries with
  | nil => cases h
  | cons entry rest ih =>
    rw [get?_cons] at h
    rw [filter_cons]
    by_cases hkey : entry.1 = key
    · rw [if_pos hkey] at h
      cases h
      rw [if_pos hkeep, get?_cons, if_pos hkey]
    · rw [if_neg hkey] at h
      split
      · rw [get?_cons, if_neg hkey, ih h]
      · exact ih h

theorem Kept.step {r : Registry} (h : r.Kept) (event : RegistryEvent) : (r.step event).Kept := by
  have hlive : ∀ {group existing}, r.live? group = some existing → r.inner.get? group = some existing :=
    fun hlive => (filter_eq_some_iff.mp hlive).1
  cases event with
  | lookup =>
    simp only [Registry.step]
    split
    · next hexisting => exact forall_mem_cons.mpr ⟨hlive hexisting, h⟩
    · exact h
  | start =>
    simp only [Registry.step]
    split
    · exact h
    · exact h
  | fail => exact h
  | insert group =>
    simp only [Registry.step]
    split
    · split
      · next hexisting => exact forall_mem_cons.mpr ⟨hlive hexisting, h⟩
      · next hnone =>
        intro entry hentry
        refine get?_filter ?_ (alive_of_held hentry)
        rw [get?_set]
        rcases mem_cons.mp hentry with rfl | hheld
        · rw [if_pos rfl]
        · -- a held service of the group would have been found
          rw [if_neg, h entry hheld]
          rintro rfl
          rw [live?, h entry hheld, filter_some, alive_of_held hheld] at hnone
          cases hnone
    · exact h
  | release => exact fun entry hentry => h entry (mem_of_mem_erase hentry)

/-- Callers that hold services of one group hold the same one, and the registry has it. -/
theorem held_unique_and_kept (events : List RegistryEvent) :
    (∀ group a b, (group, a) ∈ (run events).held → (group, b) ∈ (run events).held → a = b) ∧
      ∀ group service, (group, service) ∈ (run events).held →
        (run events).inner.get? group = some service ∧ (run events).live? group = some service := by
  have hkept : (run events).Kept := by
    induction events using reverseRecOn with
    | nil => simp [run, Kept]
    | append_singleton events event ih =>
      rw [run, foldl_append]
      exact ih.step event
  refine ⟨fun group a b ha hb => some.inj ((hkept _ ha).symm.trans (hkept _ hb)), fun group service hheld => ?_⟩
  rw [live?, hkept _ hheld]
  exact ⟨rfl, by rw [filter_some, alive_of_held hheld]; rfl⟩

end Registry

end ZeroCache.ViewSyncer
