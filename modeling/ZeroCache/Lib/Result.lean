import ZeroCache.Lib.Pairing

/-!
# Results that may be errors

How `Except` computations run: a bind after a result goes on, a bind after an error stops. A list
is mapped or filtered by a function that may fail as it is by a total one, where that one agrees.
Tests over a list depend on the tests of its members only.
-/

namespace ZeroCache.Lib

open List

variable {ε α β : Type}

@[simp]
theorem ok_bind (a : α) (f : α → Except ε β) : (Except.ok a >>= f) = f a := rfl

@[simp]
theorem error_bind (e : ε) (f : α → Except ε β) : (Except.error e >>= f) = .error e := rfl

variable {x : Except ε α}

/-- After a part that returned a sequence goes on. -/
theorem bind_of_ok {a : α} (h : x = .ok a) (f : α → Except ε β) : (x >>= f) = f a := by
  rw [h, ok_bind]

variable {f : α → Except ε β}

/-- A sequence that returns ran both parts. -/
theorem bind_ok {b : β} (h : (x >>= f) = .ok b) : ∃ a, x = .ok a ∧ f a = .ok b := by
  cases x with
  | error => cases h
  | ok a => exact ⟨a, rfl, h⟩

/-- A sequence that returns passed the check it starts with. -/
theorem guard_ok {c : Prop} [Decidable c] {e : ε} {k : PUnit → Except ε β} {b : β}
    (h : (if c then (throw e >>= k) else k ⟨⟩) = .ok b) : ¬ c ∧ k ⟨⟩ = .ok b := by
  split at h
  · cases h
  · next hc => exact ⟨hc, h⟩

variable {l : List α} {q : α → Bool}

theorem all_congr_mem {p : α → Bool} (h : ∀ a ∈ l, p a = q a) : l.all p = l.all q := by
  rw [Bool.eq_iff_iff, all_eq_true, all_eq_true]
  exact forall₂_congr (fun a ha => by rw [h a ha])

theorem any_congr_mem {p : α → Bool} (h : ∀ a ∈ l, p a = q a) : l.any p = l.any q := by
  rw [Bool.eq_iff_iff, any_eq_true, any_eq_true]
  exact exists_congr (fun a => and_congr_right (fun ha => by rw [h a ha]))

/-- A test of the members with a property and one of those without it test all members. -/
theorem any_split (l : List α) (p q : α → Bool) :
    (l.any (fun a => p a && q a) || (l.filter (fun a => !p a)).any q) = l.any q := by
  induction l with
  | nil => rfl
  | cons a rest ih =>
    cases hp : p a with
    | true => simp [hp, ← ih, Bool.or_assoc]
    | false => simp [hp, ← ih, Bool.or_left_comm]

variable {g : α → β}

theorem mapM_eq_ok (h : ∀ a ∈ l, f a = .ok (g a)) : l.mapM f = .ok (l.map g) := by
  induction l with
  | nil => rfl
  | cons a rest ih =>
    rw [mapM_cons, h a mem_cons_self, ih (fun b hb => h b (mem_cons_of_mem _ hb))]
    rfl

open Option

/-- A list is mapped by a function that may fail when each member is. -/
theorem mapM_eq_some_iff {f : α → Option β} {mapped : List β} :
    l.mapM f = some mapped ↔ List.Forall₂ (fun a b => f a = some b) l mapped := by
  induction l generalizing mapped with
  | nil =>
    rw [forall₂_nil_left_iff]
    exact ⟨fun h => (some.inj h).symm, fun h => h ▸ rfl⟩
  | cons a rest ih =>
    rw [mapM_cons, forall₂_cons_left_iff]
    constructor
    · intro h
      obtain ⟨b, hb, h⟩ := bind_eq_some_iff.mp h
      obtain ⟨tail, htail, h⟩ := bind_eq_some_iff.mp h
      exact ⟨b, tail, hb, ih.mp htail, (some.inj h).symm⟩
    · rintro ⟨b, tail, hb, htail, rfl⟩
      rw [hb, ih.mpr htail]
      rfl

theorem mapM_eq_some {f : α → Option β} (h : ∀ a ∈ l, f a = some (g a)) : l.mapM f = some (l.map g) :=
  mapM_eq_some_iff.mpr (forall₂_map_right_iff.mpr (forall₂_same.mpr h))

variable {p : α → Option Bool}

theorem filterAuxM_eq_some {acc : List α} (h : ∀ a ∈ l, p a = some (q a)) : l.filterAuxM p acc = some
    ((l.filter q).reverse ++ acc) := by
  induction l generalizing acc with
  | nil => rfl
  | cons a rest ih =>
    have hrest : ∀ b ∈ rest, p b = some (q b) := fun b hb => h b (mem_cons_of_mem _ hb)
    rw [filterAuxM, h a mem_cons_self]
    cases hq : q a with
    | true => simpa [hq, cond] using @ih (a :: acc) hrest
    | false => simpa [hq, cond] using @ih acc hrest

theorem filterM_eq_some (h : ∀ a ∈ l, p a = some (q a)) : l.filterM p = some (l.filter q) := by
  rw [filterM, filterAuxM_eq_some h]
  simp

end ZeroCache.Lib
