import Mathlib.Data.List.Induction

/-!
# Frame rules for computations with state and errors

A computation of `EStateM` ends in a state whether it returns or throws: writes made before an
error stay. `Moves R x` says that every run of `x` relates the state it starts in to the state
it ends in by `R`. For a reflexive and transitive `R` the rules below follow the shape of the
program, so that what a long program may change is read off its single statements.
-/

namespace ZeroCache.Lib

variable {ε σ α β : Type}

/-- The state a computation ends in, on both exits. -/
def finalState (x : EStateM ε σ α) (s : σ) : σ :=
  match x s with
  | .ok _ s' => s'
  | .error _ s' => s'

@[simp]
theorem finalState_pure (a : α) (s : σ) : finalState (pure a : EStateM ε σ α) s = s := rfl

@[simp]
theorem finalState_throw (e : ε) (s : σ) : finalState (throw e : EStateM ε σ α) s = s := rfl

@[simp]
theorem finalState_modify (f : σ → σ) (s : σ) : finalState (modify f : EStateM ε σ PUnit) s = f s := rfl

@[simp]
theorem finalState_get_bind (f : σ → EStateM ε σ β) (s : σ) : finalState (get >>= f) s = finalState (f s) s := rfl

@[simp]
theorem finalState_map_set (f : PUnit → β) (s s' : σ) : finalState (f <$> (set s' : EStateM ε σ PUnit)) s = s' := rfl

@[simp]
theorem finalState_throw_bind (e : ε) (f : α → EStateM ε σ β) (s : σ) :
    finalState ((throw e : EStateM ε σ α) >>= f) s = s := rfl

/-! ## Runs that return -/

variable {x : EStateM ε σ α}

theorem bind_run {s s' : σ} {a : α} (h : x s = .ok a s') (f : α → EStateM ε σ β) : (x >>= f) s = f a s' := by
  simp only [Bind.bind, EStateM.bind, h]

theorem get_run (s : σ) : (get : EStateM ε σ σ) s = .ok s s := rfl

theorem forM_run_append {f : α → EStateM ε σ PUnit} {l l' : List α} {s s' : σ} (h : l.forM f s = .ok ⟨⟩ s') :
    (l ++ l').forM f s = l'.forM f s' := by
  induction l generalizing s with
  | nil =>
    cases h
    rfl
  | cons a rest ih =>
    have hcons (tail : List α) : (a :: tail).forM f s = (f a >>= fun _ => tail.forM f) s := rfl
    rw [List.cons_append, hcons]
    rw [hcons] at h
    cases hrun : f a s with
    | ok =>
      rw [bind_run hrun] at h ⊢
      exact ih h
    | error =>
      simp only [Bind.bind, EStateM.bind, hrun] at h
      cases h

/-! ## Frames -/

/-- Every run of the computation is a move of the relation. -/
def Moves (R : σ → σ → Prop) (x : EStateM ε σ α) : Prop := ∀ s, R s (finalState x s)

/-- A step that may fail on its own: on failure nothing changes. -/
def attempt (f : σ → Except ε σ) : EStateM ε σ Unit := fun s =>
  match f s with
  | .ok s' => .ok () s'
  | .error e => .error e s

/-- A check of a value computed from outside the state. -/
def check (x : Except ε α) : EStateM ε σ α := fun s =>
  match x with
  | .ok a => .ok a s
  | .error e => .error e s

theorem check_run {x : Except ε α} {a : α} (h : x = .ok a) (s : σ) : check x s = .ok a s := by
  subst h
  rfl

section Rules

variable {R : σ → σ → Prop} [IsPreorder σ R]

theorem Moves.pure (a : α) : Moves R (pure a : EStateM ε σ α) := fun s => refl_of R s

theorem Moves.throw (e : ε) : Moves R (throw e : EStateM ε σ α) := fun s => refl_of R s

theorem Moves.get : Moves R (get : EStateM ε σ σ) := fun s => refl_of R s

theorem Moves.check (x : Except ε α) : Moves R (check x : EStateM ε σ α) := by
  intro s
  cases x <;> exact refl_of R s

theorem Moves.attempt {f : σ → Except ε σ} (h : ∀ s s', f s = .ok s' → R s s') : Moves R (attempt f) := by
  intro s
  unfold finalState Lib.attempt
  cases hf : f s with
  | ok s' => exact h s s' hf
  | error => exact refl_of R s

theorem Moves.bind {x : EStateM ε σ α} {f : α → EStateM ε σ β} (hx : Moves R x)
    (hf : ∀ a, Moves R (f a)) : Moves R (x >>= f) := by
  intro s
  have hs := hx s
  unfold finalState at hs ⊢
  simp only [Bind.bind, EStateM.bind]
  cases hrun : x s with
  | ok a s' =>
    rw [hrun] at hs
    exact trans_of R hs (hf a s')
  | error =>
    rw [hrun] at hs
    exact hs

theorem Moves.forM {f : α → EStateM ε σ PUnit} (hf : ∀ a, Moves R (f a)) (l : List α) : Moves R (l.forM f) := by
  induction l with
  | nil => exact Moves.pure _
  | cons a rest ih => exact Moves.bind (hf a) (fun _ => ih)

end Rules

variable {R : σ → σ → Prop}

theorem Moves.modify {f : σ → σ} (h : ∀ s, R s (f s)) : Moves R (modify f : EStateM ε σ PUnit) := h

variable {p : Prop} {y : EStateM ε σ α}

theorem Moves.ite [Decidable p] (hx : Moves R x) (hy : Moves R y) : Moves R (if p then x else y) := by
  split
  · exact hx
  · exact hy

/-! ## Two exits -/

/-- A computation relates its states by `Q` when it returns and by `R` when it throws. -/
def Exits (R Q : σ → σ → Prop) (x : EStateM ε σ α) : Prop := ∀ s, match x s with
  | .ok _ s' => Q s s'
  | .error _ s' => R s s'

variable {f : α → EStateM ε σ β} {Q : σ → σ → Prop}

/-- After moves of `R`, on the left of which `Q` can be extended, a computation exits as its rest does. -/
theorem Exits.bind_moves [IsTrans σ R] (hx : Moves R x) (hf : ∀ a, Exits R Q (f a))
    (hQ : ∀ s t u, R s t → Q t u → Q s u) : Exits R Q (x >>= f) := by
  intro s
  have hs := hx s
  unfold finalState at hs
  simp only [Bind.bind, EStateM.bind]
  cases hrun : x s with
  | error =>
    rw [hrun] at hs
    exact hs
  | ok a s' =>
    rw [hrun] at hs
    have hrest := hf a s'
    dsimp only
    cases hf' : f a s' with
    | ok b u =>
      rw [hf'] at hrest
      exact hQ s s' u hs hrest
    | error =>
      rw [hf'] at hrest
      exact trans_of R hs hrest

/-- A computation that always returns. -/
def Returns (Q : σ → σ → Prop) (x : EStateM ε σ α) : Prop := ∀ s, ∃ a s', x s = .ok a s' ∧ Q s s'

theorem Returns.exits (h : Returns Q x) : Exits R Q x := by
  intro s
  obtain ⟨a, s', hrun, hQ⟩ := h s
  simp only [hrun]
  exact hQ

theorem Returns.bind {P S : σ → σ → Prop} (hx : Returns P x)
    (hf : ∀ a, Returns Q (f a)) (hS : ∀ s t u, P s t → Q t u → S s u) : Returns S (x >>= f) := by
  intro s
  obtain ⟨a, t, hrun, hP⟩ := hx s
  obtain ⟨b, u, hrest, hQ⟩ := hf a t
  refine ⟨b, u, ?_, hS s t u hP hQ⟩
  simp only [Bind.bind, EStateM.bind, hrun, hrest]

theorem Returns.modify {f : σ → σ} (h : ∀ s, Q s (f s)) : Returns Q (modify f : EStateM ε σ PUnit) := fun s => ⟨⟨⟩, f s, rfl, h s⟩

theorem Returns.pure (a : α) (h : ∀ s, Q s s) : Returns Q (pure a : EStateM ε σ α) := fun s => ⟨a, s, rfl, h s⟩

theorem Returns.ite [Decidable p] (hx : Returns Q x) (hy : Returns Q y) : Returns Q (if p then x else y) := by
  split
  · exact hx
  · exact hy

/-! ## Runs of a step function

The step may use where in the run it stands, so that a condition on the run can be spent at the step
it is about. -/

variable {ι : Type} {step : σ → ι → σ} {s : σ} {inputs : List ι} {P : σ → Prop} (hinit : P s)

include hinit

/-- An invariant of every state a run passes through. -/
theorem foldl_prefix_invariant (hstep : ∀ before input after, inputs = before ++ input :: after →
      P (before.foldl step s) → P (step (before.foldl step s) input)) :
    ∀ before after, inputs = before ++ after → P (before.foldl step s) := by
  intro before
  induction before using List.reverseRecOn with
  | nil => exact fun _ _ => hinit
  | append_singleton before input ih =>
    intro after hinputs
    have hcut : inputs = before ++ input :: after := by simpa using hinputs
    rw [List.foldl_append]
    exact hstep before input after hcut (ih (input :: after) hcut)

/-- A property that a step keeps under some condition holds in every state if the condition does at every step. -/
theorem foldl_prefix_iff {Q : σ → ι → Prop} (hstep : ∀ (before : List ι) input, P (before.foldl step s) →
      (P (step (before.foldl step s) input) ↔ Q (before.foldl step s) input)) :
    (∀ before after, inputs = before ++ after → P (before.foldl step s)) ↔
      ∀ before input after, inputs = before ++ input :: after → Q (before.foldl step s) input := by
  constructor
  · intro h before input after hinputs
    have hafter := h (before ++ [input]) after (by simpa using hinputs)
    rw [List.foldl_append] at hafter
    exact (hstep before input (h before (input :: after) hinputs)).mp hafter
  · intro h
    refine foldl_prefix_invariant hinit (fun before input after hinputs hbefore => ?_)
    exact (hstep before input hbefore).mpr (h before input after hinputs)

end ZeroCache.Lib
