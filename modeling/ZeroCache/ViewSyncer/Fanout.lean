import ZeroCache.ViewSyncer.SharedPipeline

/-!
# Interleaved calls of a shared pipeline

The driver, the desires and the log of a client group are behind three locks, and a call takes them
one after another (`group_shared_pipeline.rs`): between an advance of the driver and its entry in the
log the calls of other connections may run. Each critical section is one step here, a run is any
sequence of steps, and what an advance changed is whatever the driver returned. Advances are
numbered in the driver's order, so that it can be seen what a connection was handed:
`served_iff` says which schedules hand every connection every change of every logged advance made
since it registered, once and in order.
-/

namespace ZeroCache.ViewSyncer

open Lib List Option Function AdvanceLog Prod

/-- What an advance changed, with the number of the advance. -/
abbrev Stamped := ℕ × List PipelineRowChange

/-- The changes of an advance, each with the number of the advance. -/
def stampChanges (advance : Stamped) : List (ℕ × PipelineRowChange) :=
  advance.2.map (fun change => (advance.1, change))

/-- Where the call of a connection stands: it holds no lock, and nothing or what the last section
left it with. -/
inductive Phase where
  | idle
  /-- A poll has advanced the driver. -/
  | polling (advance : Stamped)
  /-- A call to advance to head has advanced the driver. -/
  | heading (advance : Stamped)
  /-- A poll has drained the log. -/
  | drained (entries : List Stamped)
  deriving DecidableEq

/-- The changes a call is about to hand to its connection. -/
def Phase.inTransit : Phase → List (ℕ × PipelineRowChange)
  | .idle => []
  | .polling _ => []
  | .heading _ => []
  | .drained entries => entries.flatMap stampChanges

/-- The desires and the log a group shares, where each call stands, and, to compare them, all
advances of the driver, those that were logged, and what each connection was handed since it
registered. -/
structure Fanout where
  querySet : GroupQuerySet
  log : AdvanceLog Stamped
  phases : String → Phase
  advances : List (List PipelineRowChange)
  logged : List Stamped
  registeredAt : String → ℕ
  received : String → List (ℕ × PipelineRowChange)

/-- A critical section. -/
inductive Section where
  /-- `desire` and `register_desire` join the log. -/
  | register (clientId : String)
  /-- They record the desire; the driver's section after it hands out no change of an advance. -/
  | addDesire (clientId queryId : String)
  /-- `undesire` drops a desire. -/
  | removeDesire (clientId queryId : String)
  /-- `remove_client` drops the desires of a connection. -/
  | dropDesires (clientId : String)
  /-- `remove_client` leaves the log. -/
  | forget (clientId : String)
  /-- `reset_query` forgets who desires a query. -/
  | clearQuery (queryId : String)
  /-- `poll_advance` advances the driver. -/
  | pollDriver (clientId : String) (changes : List PipelineRowChange)
  /-- `poll_advance` logs the advance and drains the log. -/
  | pollLog (clientId : String)
  /-- `poll_advance` filters what it drained by the desires of its connection. -/
  | pollFilter (clientId : String)
  /-- `advance_to_head` advances the driver. -/
  | headDriver (clientId : String) (changes : List PipelineRowChange)
  /-- `advance_to_head` logs the advance and drains the log. -/
  | headLog (clientId : String)

namespace Fanout

/-- A group without connections. -/
def new : Fanout := ⟨⟨[]⟩, AdvanceLog.empty, fun _ => .idle, [], [], fun _ => 0, fun _ => []⟩

/-- A connection that has a cursor. -/
def Registered (s : Fanout) (clientId : String) : Prop := (s.log.cursors.get? clientId).isSome

instance (s : Fanout) (clientId : String) : Decidable (s.Registered clientId) :=
  inferInstanceAs (Decidable (_ = true))

/-- Start to follow a connection, unless it is registered. -/
def track (s : Fanout) (clientId : String) : Fanout :=
  { s with
    registeredAt := if s.Registered clientId then s.registeredAt
      else Function.update s.registeredAt clientId s.advances.length
    received := if s.Registered clientId then s.received else Function.update s.received clientId [] }

/-- The driver advances for a call. -/
def advanceDriver (s : Fanout) (clientId : String) (changes : List PipelineRowChange) (phase : Stamped → Phase) :
    Fanout :=
  { s with
    advances := s.advances ++ [changes]
    phases := Function.update s.phases clientId (phase (s.advances.length, changes)) }

/-- An advance is logged, unless it changed nothing. -/
def logAdvance (s : Fanout) (advance : Stamped) : Fanout :=
  { s with
    log := if advance.2.isEmpty then s.log else s.log.append advance
    logged := if advance.2.isEmpty then s.logged else s.logged ++ [advance] }

/-- The log is drained for a connection. -/
def drain (s : Fanout) (clientId : String) (phase : List Stamped → Phase) : Fanout :=
  { s.track clientId with
    log := (s.log.drainFor clientId).1
    phases := Function.update s.phases clientId (phase (s.log.drainFor clientId).2) }

/-- Run a critical section. A section that does not continue the call its connection is in, or starts
one before the last has ended, is not run. -/
def step (s : Fanout) : Section → Fanout
  | .register clientId =>
    match s.phases clientId with
    | .idle => { s.track clientId with log := s.log.register clientId }
    | _ => s
  | .addDesire clientId queryId => { s with querySet := (s.querySet.addDesire clientId queryId).1 }
  | .removeDesire clientId queryId => { s with querySet := (s.querySet.removeDesire clientId queryId).1 }
  | .dropDesires clientId => { s with querySet := (s.querySet.removeClient clientId).1 }
  | .forget clientId =>
    match s.phases clientId with
    | .idle => { s with log := s.log.forget clientId }
    | _ => s
  | .clearQuery queryId => { s with querySet := s.querySet.clearQuery queryId }
  | .pollDriver clientId changes =>
    match s.phases clientId with
    | .idle => s.advanceDriver clientId changes .polling
    | _ => s
  | .pollLog clientId =>
    match s.phases clientId with
    | .polling advance => (s.logAdvance advance).drain clientId .drained
    | _ => s
  | .pollFilter clientId =>
    match s.phases clientId with
    | .drained entries =>
      { s with
        phases := Function.update s.phases clientId .idle
        received := Function.update s.received clientId (s.received clientId ++
          (entries.flatMap stampChanges).filter (fun entry => s.querySet.clientDesires clientId entry.2.queryId)) }
    | _ => s
  | .headDriver clientId changes =>
    match s.phases clientId with
    | .idle => s.advanceDriver clientId changes .heading
    | _ => s
  | .headLog clientId =>
    match s.phases clientId with
    | .heading advance => (s.logAdvance advance).drain clientId (fun _ => .idle)
    | _ => s

/-- The changes of the logged advances made since a connection registered, in the driver's order. -/
def owed (s : Fanout) (clientId : String) : List (ℕ × PipelineRowChange) :=
  (s.advances.zipIdx.filter (fun advance =>
    decide (s.registeredAt clientId ≤ advance.2) && decide (advance.2 ∈ s.logged.map Prod.fst))).flatMap
      (fun advance => stampChanges advance.swap)

/-- What a connection was handed, is about to be handed, or finds in the log. -/
def handed (s : Fanout) (clientId : String) : List (ℕ × PipelineRowChange) :=
  s.received clientId ++ (s.phases clientId).inTransit ++ (s.log.unread clientId).flatMap stampChanges

/-- Every registered connection gets every change of every logged advance made since it registered,
once and in the driver's order. -/
def Served (s : Fanout) : Prop := ∀ clientId, s.Registered clientId → s.handed clientId = s.owed clientId

/-- A registered connection is in time for an advance: it registered before, and every logged advance
it is owed is older. -/
def InTime (s : Fanout) (advance : Stamped) (clientId : String) : Prop :=
  s.registeredAt clientId ≤ advance.1 ∧
    ∀ older ∈ s.logged, s.registeredAt clientId ≤ older.1 → older.1 < advance.1

/-- A critical section that keeps every connection served: an advance is logged before a newer one
and before another connection registers, a connection that skips the log has nothing to read in it, and
a poll is about queries its connection desires when it returns. -/
def Orderly (s : Fanout) : Section → Prop
  | .pollLog clientId =>
    match s.phases clientId with
    | .polling advance => advance.2 ≠ [] → ∀ other, s.Registered other → s.InTime advance other
    | _ => True
  | .headLog clientId =>
    match s.phases clientId with
    | .heading advance =>
      (advance.2 ≠ [] → ∀ other, s.Registered other → s.InTime advance other) ∧
        (s.Registered clientId → advance.2 = [] ∧ s.log.unread clientId = [])
    | _ => True
  | .pollFilter clientId =>
    match s.phases clientId with
    | .drained entries => ∀ entry ∈ entries, ∀ change ∈ entry.2, s.querySet.clientDesires clientId change.queryId = true
    | _ => True
  | _ => True

/-! ## What every state keeps -/

end Fanout

/-- The advance a call has made and not logged yet. -/
def Phase.pending : Phase → Option Stamped
  | .idle => none
  | .polling advance => some advance
  | .heading advance => some advance
  | .drained _ => none

namespace Fanout

/-- What holds in every state: the log follows the logged advances, which changed something; a
pending advance is one of the driver's, not logged, made by one call, after its connection
registered; and a connection that drained the log is registered. -/
structure Inv (s : Fanout) : Prop where
  follows : s.log.Follows s.logged
  since_le : ∀ clientId, s.registeredAt clientId ≤ s.advances.length
  logged_made : ∀ entry ∈ s.logged, s.advances[entry.1]? = some entry.2 ∧ entry.2 ≠ []
  pending_made : ∀ clientId advance, (s.phases clientId).pending = some advance →
    s.advances[advance.1]? = some advance.2 ∧ advance.1 ∉ s.logged.map Prod.fst ∧
      (s.Registered clientId → s.registeredAt clientId ≤ advance.1)
  pending_apart : ∀ clientId other advance newer, clientId ≠ other →
    (s.phases clientId).pending = some advance → (s.phases other).pending = some newer → advance.1 ≠ newer.1
  drained_registered : ∀ clientId entries, s.phases clientId = .drained entries → s.Registered clientId

theorem inv_new : Inv new where
  follows := AdvanceLog.Follows.empty
  since_le _ := le_rfl
  logged_made entry h := by cases h
  pending_made clientId advance h := by cases h
  pending_apart clientId other advance newer _ h := by cases h
  drained_registered clientId entries h := by cases h

variable {s : Fanout}

/-! ## Changes that are owed -/

/-- The changes of the numbered advances that are logged and not older than a registration. -/
def owedOf (since : ℕ) (numbers : List ℕ) (advances : List (List PipelineRowChange × ℕ)) :
    List (ℕ × PipelineRowChange) :=
  (advances.filter (fun advance => decide (since ≤ advance.2) && decide (advance.2 ∈ numbers))).flatMap
    (fun advance => stampChanges advance.swap)

theorem owedOf_append (since : ℕ) (numbers : List ℕ) (l l' : List (List PipelineRowChange × ℕ)) :
    owedOf since numbers (l ++ l') = owedOf since numbers l ++ owedOf since numbers l' := by
  rw [owedOf, filter_append, flatMap_append]
  rfl

theorem owedOf_cons (since : ℕ) (numbers : List ℕ) (advance : List PipelineRowChange × ℕ)
    (l : List (List PipelineRowChange × ℕ)) : owedOf since numbers (advance :: l) =
      (if since ≤ advance.2 ∧ advance.2 ∈ numbers then stampChanges advance.swap else []) ++ owedOf since numbers l := by
  rw [owedOf, filter_cons]
  by_cases h : since ≤ advance.2 ∧ advance.2 ∈ numbers
  · rw [if_pos (by simpa using h), if_pos h]
    rfl
  · rw [if_neg (by simpa using h), if_neg h]
    rfl

variable {l : List (List PipelineRowChange × ℕ)} {numbers : List ℕ} {entry : ℕ × PipelineRowChange}
  {phase : Stamped → Phase}

variable {since : ℕ}

theorem owedOf_congr {numbers' : List ℕ} (h : ∀ advance ∈ l, advance.2 ∈ numbers ↔ advance.2 ∈ numbers') :
    owedOf since numbers l = owedOf since numbers' l := by
  have hfilter : l.filter (fun advance => decide (since ≤ advance.2) && decide (advance.2 ∈ numbers)) =
      l.filter (fun advance => decide (since ≤ advance.2) && decide (advance.2 ∈ numbers')) :=
    filter_congr (fun advance hadvance => by simp only [h advance hadvance])
  rw [owedOf, owedOf, hfilter]

theorem mem_owedOf : entry ∈ owedOf since numbers l ↔
      ∃ advance ∈ l, since ≤ advance.2 ∧ advance.2 ∈ numbers ∧ entry ∈ stampChanges advance.swap := by
  simp only [owedOf, mem_flatMap, mem_filter, Bool.and_eq_true, decide_eq_true_eq, and_assoc]

variable {advance : Stamped}

theorem stampChanges_eq_nil : stampChanges advance = [] ↔ advance.2 = [] := map_eq_nil_iff

theorem fst_of_mem_stampChanges (h : entry ∈ stampChanges advance) : entry.1 = advance.1 := by
  obtain ⟨change, -, rfl⟩ := mem_map.mp h
  rfl

section

variable {advances : List (List PipelineRowChange)} {advance : Stamped}

/-- The advances around one of them. -/
theorem advances_split (h : advances[advance.1]? = some advance.2) :
    ∃ older newer, advances.zipIdx = older ++ advance.swap :: newer ∧
      (∀ entry ∈ older, entry.2 < advance.1) ∧ ∀ entry ∈ newer, advance.1 < entry.2 := by
  obtain ⟨older, newer, hsplit⟩ := append_of_mem (mk_mem_zipIdx_iff_getElem?.mpr h : advance.swap ∈ advances.zipIdx)
  have hsorted : (advances.zipIdx.map snd).Pairwise (· < ·) := by
    rw [zipIdx_map_snd]
    exact pairwise_lt_range'
  rw [hsplit, map_append, map_cons, pairwise_append, pairwise_cons] at hsorted
  refine ⟨older, newer, hsplit, fun entry hentry => ?_, fun entry hentry => ?_⟩
  · exact hsorted.2.2 _ (mem_map_of_mem hentry) _ mem_cons_self
  · exact hsorted.2.1.1 _ (mem_map_of_mem hentry)

/-- What is owed, before and after the number of an advance is logged, split at that advance. -/
theorem exists_owedOf_split {numbers : List ℕ}
    (hmade : advances[advance.1]? = some advance.2) (hnew : advance.1 ∉ numbers) (since : ℕ) :
    ∃ older newer, advances.zipIdx = older ++ advance.swap :: newer ∧ (∀ entry ∈ older, entry.2 < advance.1) ∧
      (∀ entry ∈ newer, advance.1 < entry.2) ∧
      owedOf since numbers advances.zipIdx = owedOf since numbers older ++ owedOf since numbers newer ∧
      owedOf since (numbers ++ [advance.1]) advances.zipIdx = owedOf since numbers older ++
        ((if since ≤ advance.1 then stampChanges advance else []) ++ owedOf since numbers newer) := by
  obtain ⟨older, newer, hsplit, holder, hnewer⟩ := advances_split hmade
  have hsame : ∀ l : List (List PipelineRowChange × ℕ), (∀ entry ∈ l, entry.2 ≠ advance.1) →
      owedOf since (numbers ++ [advance.1]) l = owedOf since numbers l := by
    intro l hl
    refine owedOf_congr (fun entry hentry => ?_)
    simp [hl entry hentry]
  have hskip : ¬ (since ≤ advance.swap.2 ∧ advance.swap.2 ∈ numbers) := fun h => hnew h.2
  refine ⟨older, newer, hsplit, holder, hnewer, ?_, ?_⟩
  · rw [hsplit, owedOf_append, owedOf_cons, if_neg hskip, nil_append]
  · rw [hsplit, owedOf_append, owedOf_cons, hsame older (fun entry h => ne_of_lt (holder entry h)),
      hsame newer (fun entry h => (ne_of_lt (hnewer entry h)).symm)]
    simp

end

/-- Logging an advance appends its changes to what is owed exactly when the connection is in time. -/
theorem owed_logged_iff (hinv : s.Inv) (hmade : s.advances[advance.1]? = some advance.2)
    (hnew : advance.1 ∉ s.logged.map fst) (hchanged : advance.2 ≠ []) (clientId : String) :
    s.owed clientId ++ stampChanges advance =
        owedOf (s.registeredAt clientId) ((s.logged ++ [advance]).map fst) s.advances.zipIdx ↔
      s.InTime advance clientId := by
  obtain ⟨older, newer, hsplit, holder, hnewer, howed, hafter⟩ := exists_owedOf_split hmade hnew (s.registeredAt clientId)
  change s.owed clientId = _ at howed
  rw [howed, map_append, map_singleton, hafter, append_assoc, append_cancel_left_eq]
  -- The changes owed of advances made after this one, which must be none.
  generalize hrest : owedOf (s.registeredAt clientId) (s.logged.map fst) newer = rest
  have hlater : ∀ entry ∈ rest, advance.1 < entry.1 := by
    intro entry hentry
    obtain ⟨later, hmem, -, -, hstamped⟩ := mem_owedOf.mp (hrest ▸ hentry)
    exact (hnewer later hmem).trans_eq (fst_of_mem_stampChanges hstamped).symm
  constructor
  · intro heq
    have hsince : s.registeredAt clientId ≤ advance.1 := by
      by_contra hlt
      rw [if_neg hlt] at heq
      exact hchanged (stampChanges_eq_nil.mp (append_right_eq_self.mp heq))
    refine ⟨hsince, fun older hmem hle => ?_⟩
    by_contra hnot
    have hlt : advance.1 < older.1 := lt_of_le_of_ne (not_lt.mp hnot) (fun h => hnew (h ▸ mem_map_of_mem hmem))
    obtain ⟨hmade', hchanged'⟩ := hinv.logged_made older hmem
    have hin : older.swap ∈ newer := by
      have hzip : older.swap ∈ s.advances.zipIdx := mk_mem_zipIdx_iff_getElem?.mpr hmade'
      rw [hsplit] at hzip
      rcases mem_append.mp hzip with h | h
      · exact absurd (holder _ h) (not_lt_of_gt hlt)
      · exact (mem_cons.mp h).resolve_left (fun h => absurd (congrArg snd h) (ne_of_gt hlt))
    obtain ⟨change, hchange⟩ := exists_mem_of_ne_nil _ hchanged'
    have hchange' : (older.1, change) ∈ rest :=
      hrest ▸ mem_owedOf.mpr ⟨older.swap, hin, hle, mem_map_of_mem hmem, mem_map_of_mem hchange⟩
    -- Both orders start with a change, of different advances.
    obtain ⟨first, others, rfl⟩ := exists_cons_of_ne_nil (ne_nil_of_mem hchange')
    obtain ⟨stamped, more, hstamp⟩ := exists_cons_of_ne_nil (mt stampChanges_eq_nil.mp hchanged)
    rw [if_pos hsince, hstamp, cons_append, cons_append] at heq
    have hnumber : stamped.1 = advance.1 := fst_of_mem_stampChanges (hstamp ▸ mem_cons_self)
    exact absurd ((congrArg fst (cons.inj heq).1).trans hnumber) (ne_of_gt (hlater first mem_cons_self))
  · rintro ⟨hsince, hall⟩
    have hnil : rest = [] := by
      rw [eq_nil_iff_forall_not_mem]
      intro entry hentry
      obtain ⟨later, hmem, hle, hlogged, -⟩ := mem_owedOf.mp (hrest ▸ hentry)
      obtain ⟨older, holder', hnumber⟩ := mem_map.mp hlogged
      exact absurd (hnewer later hmem) (not_lt_of_gt (hnumber ▸ hall older holder' (hnumber ▸ hle)))
    rw [if_pos hsince, hnil, append_nil, nil_append]

/-! ## Sections that leave the log alone -/

variable {clientId : String}

theorem registered_iff : s.Registered clientId ↔ ∃ seq, s.log.cursors.get? clientId = some seq := isSome_iff_exists

/-- A connection that is not followed yet is owed nothing. -/
theorem owedOf_head (numbers : List ℕ) (advances : List (List PipelineRowChange)) :
    owedOf advances.length numbers advances.zipIdx = [] := by
  rw [eq_nil_iff_forall_not_mem]
  intro entry hentry
  obtain ⟨advance, hadvance, hsince, -⟩ := mem_owedOf.mp hentry
  have hlt := snd_lt_of_mem_zipIdx hadvance
  omega

variable {other : String}

/-- When the connections are followed from, after one of them is. -/
theorem registeredAt_track (s : Fanout) (clientId other : String) : (s.track clientId).registeredAt other =
    if other = clientId ∧ ¬ s.Registered clientId then s.advances.length else s.registeredAt other := by
  rw [track]
  split
  · next h => simp [h]
  · next h => simp [h, update_apply]

theorem received_track (s : Fanout) (clientId other : String) : (s.track clientId).received other =
    if other = clientId ∧ ¬ s.Registered clientId then [] else s.received other := by
  rw [track]
  split
  · next h => simp [h]
  · next h => simp [h, update_apply]

theorem registeredAt_track_ne (h : other ≠ clientId) :
    (s.track clientId).registeredAt other = s.registeredAt other := by
  rw [registeredAt_track, if_neg (fun hjoins => h hjoins.1)]

theorem registeredAt_track_le (hinv : s.Inv) (clientId other : String) :
    (s.track clientId).registeredAt other ≤ s.advances.length := by
  rw [registeredAt_track]
  split
  · exact le_rfl
  · exact hinv.since_le other

/-- A section that follows a connection serves everyone if those who were registered before are handed
what they are owed, and the connection finds nothing when it joins. -/
theorem served_track_iff {log : AdvanceLog Stamped} {phases : String → Phase}
    (hregistered : ∀ other, Registered { s.track clientId with log := log, phases := phases } other ↔
      other = clientId ∨ s.Registered other)
    (hjoins : ¬ s.Registered clientId → (phases clientId).inTransit = [] ∧ log.unread clientId = []) :
    Served { s.track clientId with log := log, phases := phases } ↔ ∀ other, s.Registered other →
      s.received other ++ (phases other).inTransit ++ (log.unread other).flatMap stampChanges = s.owed other := by
  have hsides : ∀ other, s.Registered other → (handed { s.track clientId with log := log, phases := phases } other =
          owed { s.track clientId with log := log, phases := phases } other ↔
        s.received other ++ (phases other).inTransit ++ (log.unread other).flatMap stampChanges = s.owed other) := by
    intro other hold
    have hnot : ¬ (other = clientId ∧ ¬ s.Registered clientId) := fun h => h.2 (h.1 ▸ hold)
    rw [handed, owed]
    simp only [registeredAt_track, received_track, if_neg hnot]
    rfl
  constructor
  · intro hserved other hold
    exact (hsides other hold).mp (hserved other ((hregistered other).mpr (.inr hold)))
  · intro h other hother
    by_cases hold : s.Registered other
    · exact (hsides other hold).mpr (h other hold)
    · obtain rfl := ((hregistered other).mp hother).resolve_right hold
      obtain ⟨htransit, hunread⟩ := hjoins hold
      have howed : owed { s.track other with log := log, phases := phases } other =
          owedOf ((s.track other).registeredAt other) (s.logged.map fst) s.advances.zipIdx := rfl
      rw [howed, registeredAt_track, if_pos ⟨rfl, hold⟩, owedOf_head, handed]
      simp [received_track, hold, htransit, hunread]

theorem inv_register (hinv : s.Inv) (hidle : s.phases clientId = .idle) :
    Inv { s.track clientId with log := s.log.register clientId } := by
  have hregistered : ∀ other, other ≠ clientId →
      (Registered { s.track clientId with log := s.log.register clientId } other ↔ s.Registered other) := by
    intro other hother
    simp [Registered, hother]
  refine ⟨hinv.follows.register clientId, registeredAt_track_le hinv clientId, hinv.logged_made,
    fun other advance hpending => ?_, hinv.pending_apart, fun other entries hdrained => ?_⟩
  · have hother : other ≠ clientId := by
      rintro rfl
      have hnone : (s.phases other).pending = some advance := hpending
      rw [hidle] at hnone
      cases hnone
    obtain ⟨hmade, hnew, hsince⟩ := hinv.pending_made other advance hpending
    refine ⟨hmade, hnew, fun h => ?_⟩
    exact (registeredAt_track_ne hother).le.trans (hsince ((hregistered other hother).mp h))
  · by_cases hother : other = clientId
    · simp [Registered, hother]
    · exact (hregistered other hother).mpr (hinv.drained_registered other entries hdrained)

theorem served_register (hinv : s.Inv) (hserved : s.Served) (hidle : s.phases clientId = .idle) :
    Served { s.track clientId with log := s.log.register clientId } := by
  refine (@served_track_iff s clientId (s.log.register clientId) s.phases (fun other => ?_) (fun hnone => ?_)).mpr
    (fun other hold => ?_)
  · by_cases hother : other = clientId
    · simp [Registered, hother]
    · simp [Registered, hother]
  · have hcursor : s.log.cursors.get? clientId = none := by simpa [Registered] using hnone
    refine ⟨by rw [hidle]; rfl, ?_⟩
    rw [(hinv.follows.register clientId).unread_eq (by rw [cursors_register, if_pos rfl]), cursor,
      hcursor, getD_none, hinv.follows.nextSeq_eq, drop_length]
  · rw [hinv.follows.unread_register clientId]
    exact hserved other hold

theorem phases_advanceDriver (clientId other : String) (changes : List PipelineRowChange) (phase : Stamped → Phase) :
    (s.advanceDriver clientId changes phase).phases other =
      if other = clientId then phase (s.advances.length, changes) else s.phases other :=
  update_apply _ _ _ _

theorem inv_advanceDriver (hinv : s.Inv) (hidle : s.phases clientId = .idle) (changes : List PipelineRowChange)
    (hphase : ∀ advance, (phase advance).pending = some advance) : Inv (s.advanceDriver clientId changes phase) := by
  have hkept : ∀ (number : ℕ) entry, s.advances[number]? = some entry → (s.advances ++ [changes])[number]? = some entry := by
    intro number entry h
    rw [getElem?_append_left (List.getElem?_eq_some_iff.mp h).1]
    exact h
  have hold : ∀ other advance, other ≠ clientId →
      ((s.advanceDriver clientId changes phase).phases other).pending = some advance →
        (s.phases other).pending = some advance := by
    intro other advance hother hpending
    rwa [phases_advanceDriver, if_neg hother] at hpending
  have hnew : ∀ advance, ((s.advanceDriver clientId changes phase).phases clientId).pending = some advance →
      advance = (s.advances.length, changes) := by
    intro advance hpending
    rw [phases_advanceDriver, if_pos rfl, hphase] at hpending
    exact (some.inj hpending).symm
  have hlt : ∀ other advance, (s.phases other).pending = some advance → advance.1 < s.advances.length :=
    fun other advance h => (List.getElem?_eq_some_iff.mp (hinv.pending_made other advance h).1).1
  refine ⟨hinv.follows, fun other => ?_, fun entry hentry => ?_, fun other advance hpending => ?_,
    fun first second advance newer hne hfirst hsecond => ?_, fun other entries hdrained => ?_⟩
  · have hle := hinv.since_le other
    simp only [advanceDriver, length_append]
    omega
  · obtain ⟨hmade, hchanged⟩ := hinv.logged_made entry hentry
    exact ⟨hkept _ _ hmade, hchanged⟩
  · by_cases hother : other = clientId
    · subst hother
      rw [hnew advance hpending]
      refine ⟨by simp [advanceDriver], fun hmem => ?_, fun _ => hinv.since_le other⟩
      obtain ⟨entry, hentry, heq⟩ := mem_map.mp hmem
      exact absurd heq (ne_of_lt (List.getElem?_eq_some_iff.mp (hinv.logged_made entry hentry).1).1)
    · obtain ⟨hmade, hlogged, hsince⟩ := hinv.pending_made other advance (hold other advance hother hpending)
      exact ⟨hkept _ _ hmade, hlogged, hsince⟩
  · by_cases hf : first = clientId
    · subst hf
      have hs := hold second newer hne.symm hsecond
      rw [hnew advance hfirst]
      exact (ne_of_lt (hlt second newer hs)).symm
    · have hf' := hold first advance hf hfirst
      by_cases hs : second = clientId
      · subst hs
        rw [hnew newer hsecond]
        exact ne_of_lt (hlt first advance hf')
      · exact hinv.pending_apart first second advance newer hne hf' (hold second newer hs hsecond)
  · by_cases hother : other = clientId
    · subst hother
      rw [phases_advanceDriver, if_pos rfl] at hdrained
      have hpending := hphase (s.advances.length, changes)
      rw [hdrained] at hpending
      cases hpending
    · rw [phases_advanceDriver, if_neg hother] at hdrained
      exact hinv.drained_registered other entries hdrained

theorem served_advanceDriver (hinv : s.Inv) (hserved : s.Served)
    (hidle : s.phases clientId = .idle) (changes : List PipelineRowChange)
    (hphase : ∀ advance, (phase advance).inTransit = []) : Served (s.advanceDriver clientId changes phase) := by
  intro other hregistered
  have htransit : ((s.advanceDriver clientId changes phase).phases other).inTransit = (s.phases other).inTransit := by
    rw [phases_advanceDriver]
    split
    · next hother =>
      rw [hother, hidle, hphase]
      rfl
    · rfl
  -- The advance is not logged yet, so nobody is owed its changes.
  have howed : (s.advanceDriver clientId changes phase).owed other = s.owed other := by
    have hskip : ¬ (s.registeredAt other ≤ 0 + s.advances.length ∧ 0 + s.advances.length ∈ s.logged.map fst) := by
      rintro ⟨-, hmem⟩
      obtain ⟨entry, hentry, heq⟩ := mem_map.mp hmem
      have hlt := (List.getElem?_eq_some_iff.mp (hinv.logged_made entry hentry).1).1
      omega
    have hall : (s.advanceDriver clientId changes phase).owed other =
        owedOf (s.registeredAt other) (s.logged.map fst) (s.advances ++ [changes]).zipIdx := rfl
    rw [hall, zipIdx_append, owedOf_append, zipIdx_singleton, owedOf_cons, if_neg hskip]
    exact append_nil _
  rw [howed, ← hserved other hregistered, handed, htransit]
  rfl

/-! ## Sections on the log -/

theorem follows_logAdvance (hinv : s.Inv) (advance : Stamped) :
    (s.logAdvance advance).log.Follows (s.logAdvance advance).logged := by
  rw [logAdvance]
  split
  · exact hinv.follows
  · exact hinv.follows.append advance

theorem cursors_logAdvance (advance : Stamped) : (s.logAdvance advance).log.cursors = s.log.cursors := by
  rw [logAdvance]
  split
  · rfl
  · rfl

theorem mem_logged_logAdvance {entry : Stamped} :
    entry ∈ (s.logAdvance advance).logged ↔ entry ∈ s.logged ∨ (entry = advance ∧ advance.2 ≠ []) := by
  rw [logAdvance]
  split
  · next h => simp [isEmpty_iff.mp h]
  · next h => simp [isEmpty_iff.not.mp h]

/-- A logged advance is read by every registered connection. -/
theorem unread_logAdvance (hinv : s.Inv) (advance : Stamped) (h : s.Registered clientId) :
    ((s.logAdvance advance).log.unread clientId).flatMap stampChanges =
      (s.log.unread clientId).flatMap stampChanges ++ stampChanges advance := by
  rw [logAdvance]
  split
  · next hempty => rw [stampChanges_eq_nil.mpr (isEmpty_iff.mp hempty), append_nil]
  · rw [hinv.follows.unread_append advance h]
    simp

theorem registered_drain (advance : Stamped) (phase : List Stamped → Phase) :
    ((s.logAdvance advance).drain clientId phase).Registered other ↔ other = clientId ∨ s.Registered other := by
  rw [Registered, Registered, drain]
  rw [cursors_drainFor, cursors_logAdvance]
  split
  · next h => simp [h]
  · next h => simp [h]

theorem phases_drain (s : Fanout) (clientId other : String) (phase : List Stamped → Phase) :
    (s.drain clientId phase).phases other =
      if other = clientId then phase (s.log.unread clientId) else s.phases other :=
  update_apply _ _ _ _

theorem registered_logAdvance (advance : Stamped) (clientId : String) :
    (s.logAdvance advance).Registered clientId ↔ s.Registered clientId := by
  rw [Registered, Registered, cursors_logAdvance]

variable {phase : List Stamped → Phase}

theorem inv_drain (hinv : s.Inv) (hpending : (s.phases clientId).pending = some advance)
    (hphase : ∀ entries, (phase entries).pending = none) : Inv ((s.logAdvance advance).drain clientId phase) := by
  obtain ⟨hmade, hnew, -⟩ := hinv.pending_made clientId advance hpending
  have hold : ∀ other later, (((s.logAdvance advance).drain clientId phase).phases other).pending = some later →
      other ≠ clientId ∧ (s.phases other).pending = some later := by
    intro other later h
    rw [phases_drain] at h
    split at h
    · rw [hphase] at h
      cases h
    · next hother => exact ⟨hother, h⟩
  have hsince : ∀ other, other ≠ clientId →
      ((s.logAdvance advance).drain clientId phase).registeredAt other = s.registeredAt other :=
    fun other hother => registeredAt_track_ne (s := s.logAdvance advance) hother
  refine ⟨(follows_logAdvance hinv advance).drainFor clientId, fun other => ?_, fun entry hentry => ?_,
    fun other later h => ?_, fun first second older newer hne hfirst hsecond => ?_, fun other entries h => ?_⟩
  · by_cases hother : other = clientId
    · subst hother
      rw [drain, track]
      dsimp only
      split
      · exact hinv.since_le other
      · rw [update_self]
    · rw [hsince other hother]
      exact hinv.since_le other
  · rcases mem_logged_logAdvance.mp hentry with hlogged | ⟨rfl, hchanged⟩
    · exact hinv.logged_made entry hlogged
    · exact ⟨hmade, hchanged⟩
  · obtain ⟨hother, hlater⟩ := hold other later h
    obtain ⟨hlatermade, hlaternew, hlatersince⟩ := hinv.pending_made other later hlater
    refine ⟨hlatermade, fun hmem => ?_, fun hregistered => ?_⟩
    · obtain ⟨entry, hentry, heq⟩ := mem_map.mp hmem
      rcases mem_logged_logAdvance.mp hentry with hlogged | ⟨rfl, -⟩
      · exact hlaternew (heq ▸ mem_map_of_mem hlogged)
      · exact hinv.pending_apart clientId other entry later (Ne.symm hother) hpending hlater heq
    · rw [hsince other hother]
      exact hlatersince (((registered_drain advance phase).mp hregistered).resolve_left hother)
  · exact hinv.pending_apart first second older newer hne (hold first older hfirst).2 (hold second newer hsecond).2
  · rw [registered_drain]
    by_cases hother : other = clientId
    · exact .inl hother
    · rw [phases_drain, if_neg hother] at h
      exact .inr (hinv.drained_registered other entries h)

theorem owed_logAdvance (s : Fanout) (advance : Stamped) (other : String) : (s.logAdvance advance).owed other =
    if advance.2 = [] then s.owed other
    else owedOf (s.registeredAt other) ((s.logged ++ [advance]).map fst) s.advances.zipIdx := by
  by_cases hchanged : advance.2 = []
  · have hsame : s.logAdvance advance = s := by simp [logAdvance, isEmpty_iff.mpr hchanged]
    rw [hsame, if_pos hchanged]
  · have hlogged : (s.logAdvance advance).logged = s.logged ++ [advance] := by simp [logAdvance, hchanged]
    rw [if_neg hchanged, ← hlogged]
    rfl

theorem filter_stampChanges_iff (s : Fanout) (clientId : String) (entries : List Stamped) :
    (entries.flatMap stampChanges).filter (fun entry => s.querySet.clientDesires clientId entry.2.queryId) =
        entries.flatMap stampChanges ↔
      ∀ entry ∈ entries, ∀ change ∈ entry.2, s.querySet.clientDesires clientId change.queryId = true := by
  rw [filter_eq_self]
  constructor
  · intro h entry hentry change hchange
    exact h (entry.1, change) (mem_flatMap.mpr ⟨entry, hentry, mem_map.mpr ⟨change, hchange, rfl⟩⟩)
  · intro h stamped hstamped
    obtain ⟨entry, hentry, hmem⟩ := mem_flatMap.mp hstamped
    obtain ⟨change, hchange, rfl⟩ := mem_map.mp hmem
    exact h entry hentry change hchange

section

variable (hinv : s.Inv)

include hinv

/-- What a registered connection is owed grows by a logged advance at the end exactly when it is in time. -/
theorem owed_logAdvance_iff (hpending : (s.phases clientId).pending = some advance)
    (other : String) : s.owed other ++ stampChanges advance = (s.logAdvance advance).owed other ↔
      (advance.2 ≠ [] → s.InTime advance other) := by
  obtain ⟨hmade, hnew, -⟩ := hinv.pending_made clientId advance hpending
  rw [owed_logAdvance]
  by_cases hchanged : advance.2 = []
  · rw [if_pos hchanged, stampChanges_eq_nil.mpr hchanged, append_nil]
    exact iff_of_true rfl (fun h => absurd hchanged h)
  · rw [if_neg hchanged, owed_logged_iff hinv hmade hnew hchanged]
    exact ⟨fun h _ => h, fun h => h hchanged⟩

/-- Logging an advance and draining the log serves everyone if those who were registered are handed what
they are then owed: the connection that drains what its call keeps, the others the advance as well. -/
theorem served_drain_iff (hserved : s.Served) (hphase : (phase []).inTransit = []) :
    ((s.logAdvance advance).drain clientId phase).Served ↔ ∀ other, s.Registered other →
      (if other = clientId then s.received other ++ (phase ((s.logAdvance advance).log.unread clientId)).inTransit
        else s.owed other ++ stampChanges advance) = (s.logAdvance advance).owed other := by
  have hfollows := follows_logAdvance hinv advance
  have hdrained : ((s.logAdvance advance).drain clientId phase).Served ↔ ∀ other, (s.logAdvance advance).Registered other →
      s.received other ++ (((s.logAdvance advance).drain clientId phase).phases other).inTransit ++
        (((s.logAdvance advance).log.drainFor clientId).1.unread other).flatMap stampChanges =
          (s.logAdvance advance).owed other := by
    refine served_track_iff (fun other => ?_) (fun hnone => ⟨?_, hfollows.unread_drainFor_self clientId⟩)
    · exact (registered_drain advance phase).trans (or_congr_right (registered_logAdvance advance other).symm)
    · have hcursor : (s.logAdvance advance).log.cursors.get? clientId = none := by simpa [Registered] using hnone
      rw [update_self]
      exact (congrArg (fun entries => (phase entries).inTransit) (hfollows.unread_new hcursor)).trans hphase
  rw [hdrained]
  refine forall_congr' (fun other => ?_)
  rw [registered_logAdvance]
  refine imp_congr_right (fun hold => ?_)
  rw [phases_drain]
  by_cases hother : other = clientId
  · subst hother
    rw [if_pos rfl, if_pos rfl, hfollows.unread_drainFor_self, flatMap_nil, append_nil]
  · rw [if_neg hother, if_neg hother, hfollows.unread_drainFor_ne hother, unread_logAdvance hinv advance hold,
      ← hserved other hold, handed, ← append_assoc]
    rfl

open Phase

theorem served_pollLog (hserved : s.Served) (hpolling : s.phases clientId = .polling advance) :
    ((s.logAdvance advance).drain clientId .drained).Served ↔
      (advance.2 ≠ [] → ∀ other, s.Registered other → s.InTime advance other) := by
  have hhanded : ∀ other, s.Registered other → (if other = clientId then
      s.received other ++ (drained ((s.logAdvance advance).log.unread clientId)).inTransit
        else s.owed other ++ stampChanges advance) = s.owed other ++ stampChanges advance := by
    intro other hold
    by_cases hother : other = clientId
    · subst hother
      have hbefore := hserved other hold
      rw [handed, hpolling, inTransit, append_nil] at hbefore
      rw [if_pos rfl, inTransit, unread_logAdvance hinv advance hold, ← hbefore, append_assoc]
    · rw [if_neg hother]
  rw [served_drain_iff hinv hserved rfl]
  constructor
  · intro h hchanged other hold
    exact (owed_logAdvance_iff hinv (by rw [hpolling]; rfl) other).mp ((hhanded other hold).symm.trans (h other hold)) hchanged
  · intro h other hold
    rw [hhanded other hold, owed_logAdvance_iff hinv (by rw [hpolling]; rfl)]
    exact fun hchanged => h hchanged other hold

/-- A connection that skips the log keeps what it was handed and loses the rest. -/
theorem received_eq_owed_logAdvance_iff (hserved : s.Served) (hheading : s.phases clientId = .heading advance)
    (h : s.Registered clientId) : s.received clientId = (s.logAdvance advance).owed clientId ↔
      advance.2 = [] ∧ s.log.unread clientId = [] := by
  obtain ⟨hmade, hnew, hsince⟩ := hinv.pending_made clientId advance (by rw [hheading]; rfl)
  have hbefore := hserved clientId h
  rw [handed, hheading, inTransit, append_nil] at hbefore
  by_cases hchanged : advance.2 = []
  · rw [owed_logAdvance, if_pos hchanged, ← hbefore, and_iff_right hchanged, self_eq_append_right, flatMap_eq_nil_iff]
    constructor
    · intro hnil
      rw [eq_nil_iff_forall_not_mem]
      intro entry hentry
      obtain ⟨seq, hseq⟩ := registered_iff.mp h
      rw [hinv.follows.unread_eq hseq] at hentry hnil
      exact (hinv.logged_made entry (mem_of_mem_drop hentry)).2 (stampChanges_eq_nil.mp (hnil entry hentry))
    · intro hnil
      simp [hnil]
  · -- It is owed more changes than it was handed.
    refine iff_of_false (fun heq => ?_) (fun h => hchanged h.1)
    have hlength := congrArg length heq
    obtain ⟨older, newer, -, -, -, howed, hafter⟩ := exists_owedOf_split hmade hnew (s.registeredAt clientId)
    rw [owed_logAdvance, if_neg hchanged, map_append, map_singleton, hafter, if_pos (hsince h)] at hlength
    have hpositive : 0 < (stampChanges advance).length :=
      length_pos_iff.mpr (fun hnil => hchanged (stampChanges_eq_nil.mp hnil))
    have hshort := congrArg length (hbefore.trans howed)
    simp only [length_append] at hlength hshort
    omega

theorem served_headLog (hserved : s.Served) (hheading : s.phases clientId = .heading advance) :
    ((s.logAdvance advance).drain clientId (fun _ => .idle)).Served ↔
      (advance.2 ≠ [] → ∀ other, s.Registered other → s.InTime advance other) ∧
        (s.Registered clientId → advance.2 = [] ∧ s.log.unread clientId = []) := by
  have hpending : (s.phases clientId).pending = some advance := by rw [hheading]; rfl
  have hothers := owed_logAdvance_iff hinv hpending
  have hself := received_eq_owed_logAdvance_iff hinv hserved hheading
  rw [served_drain_iff hinv hserved rfl]
  constructor
  · intro h
    have hc : s.Registered clientId → advance.2 = [] ∧ s.log.unread clientId = [] := by
      intro hold
      have heq := h clientId hold
      rw [if_pos rfl, inTransit, append_nil] at heq
      exact (hself hold).mp heq
    refine ⟨fun hchanged other hold => ?_, hc⟩
    by_cases hother : other = clientId
    · exact absurd (hc (hother ▸ hold)).1 hchanged
    · exact (hothers other).mp ((if_neg hother).symm.trans (h other hold)) hchanged
  · rintro ⟨htime, hc⟩ other hold
    split
    · next hother =>
      subst hother
      rw [inTransit, append_nil, hself hold]
      exact hc hold
    · exact (hothers other).mpr (fun hchanged => htime hchanged other hold)

/-! ## The other sections -/

theorem inv_pollFilter (clientId : String) (received : String → List (ℕ × PipelineRowChange)) :
    Inv { s with phases := update s.phases clientId .idle, received := received } := by
  have hold : ∀ other phase, update s.phases clientId .idle other = phase → phase ≠ .idle →
      s.phases other = phase := by
    intro other phase h hphase
    rw [update_apply] at h
    split at h
    · exact absurd h.symm hphase
    · exact h
  have hpending : ∀ other advance, (update s.phases clientId .idle other).pending = some advance →
      (s.phases other).pending = some advance := by
    intro other advance h
    rw [hold other _ rfl (fun hidle => by rw [hidle] at h; cases h)]
    exact h
  exact ⟨hinv.follows, hinv.since_le, hinv.logged_made,
    fun other advance h => hinv.pending_made other advance (hpending other advance h),
    fun first second older newer hne hfirst hsecond =>
      hinv.pending_apart first second older newer hne (hpending first older hfirst) (hpending second newer hsecond),
    fun other entries h => hinv.drained_registered other entries (hold other _ h (by simp))⟩

theorem served_pollFilter (hserved : s.Served) {entries : List Stamped}
    (hdrained : s.phases clientId = .drained entries) :
    (s.step (.pollFilter clientId)).Served ↔
      ∀ entry ∈ entries, ∀ change ∈ entry.2, s.querySet.clientDesires clientId change.queryId = true := by
  rw [← filter_stampChanges_iff]
  have hbefore := hserved clientId (hinv.drained_registered clientId entries hdrained)
  rw [handed, hdrained, inTransit] at hbefore
  have hstep : s.step (.pollFilter clientId) =
      { s with
        phases := update s.phases clientId .idle
        received := update s.received clientId (s.received clientId ++
          (entries.flatMap stampChanges).filter (fun entry => s.querySet.clientDesires clientId entry.2.queryId)) } := by
    rw [step, hdrained]
  have hself : (s.step (.pollFilter clientId)).handed clientId = s.received clientId ++
      (entries.flatMap stampChanges).filter (fun entry => s.querySet.clientDesires clientId entry.2.queryId) ++
        (s.log.unread clientId).flatMap stampChanges := by
    rw [hstep, handed]
    dsimp only
    rw [update_self, update_self, inTransit, append_nil]
  have howed : ∀ other, (s.step (.pollFilter clientId)).owed other = s.owed other := by
    intro other
    rw [hstep]
    rfl
  constructor
  · intro hafter
    have hregistered : (s.step (.pollFilter clientId)).Registered clientId := by
      rw [hstep]
      exact hinv.drained_registered clientId entries hdrained
    have hclient := hafter clientId hregistered
    rw [hself, howed, ← hbefore, append_cancel_right_eq, append_cancel_left_eq] at hclient
    exact hclient
  · intro hall other hregistered
    rw [howed]
    by_cases hother : other = clientId
    · subst hother
      rw [hself, hall, hbefore]
    · have hold : s.Registered other := by
        rw [hstep] at hregistered
        exact hregistered
      rw [← hserved other hold, hstep, handed, handed]
      dsimp only
      rw [update_of_ne hother, update_of_ne hother]

theorem inv_forget (hidle : s.phases clientId = .idle) :
    Inv { s with log := s.log.forget clientId } := by
  have hregistered : ∀ other, Registered { s with log := s.log.forget clientId } other ↔
      other ≠ clientId ∧ s.Registered other := by
    intro other
    rw [Registered, Registered]
    by_cases hother : other = clientId
    · simp [hother]
    · simp [hother]
  refine ⟨hinv.follows.forget clientId, hinv.since_le, hinv.logged_made, fun other advance h => ?_,
    hinv.pending_apart, fun other entries h => ?_⟩
  · obtain ⟨hmade, hnew, hsince⟩ := hinv.pending_made other advance h
    exact ⟨hmade, hnew, fun hreg => hsince ((hregistered other).mp hreg).2⟩
  · refine (hregistered other).mpr ⟨?_, hinv.drained_registered other entries h⟩
    rintro rfl
    have hdrained : s.phases other = .drained entries := h
    rw [hidle] at hdrained
    cases hdrained

theorem served_forget (hserved : s.Served) (clientId : String) :
    Served { s with log := s.log.forget clientId } := by
  intro other hregistered
  have hother : other ≠ clientId := by
    rintro rfl
    simp [Registered] at hregistered
  have hold : s.Registered other := by simpa [Registered, hother] using hregistered
  have hunread : (s.log.forget clientId).unread other = s.log.unread other := hinv.follows.unread_forget hother
  have hbefore := hserved other hold
  rw [handed] at hbefore ⊢
  rw [hunread]
  exact hbefore

/-- Desires play no part in what is kept and owed. -/
theorem inv_querySet (querySet : GroupQuerySet) : Inv { s with querySet := querySet } :=
  ⟨hinv.follows, hinv.since_le, hinv.logged_made, hinv.pending_made, hinv.pending_apart, hinv.drained_registered⟩

/-! ## Runs -/

/-- A critical section keeps what holds in every state. -/
theorem step_inv (section_ : Section) : (s.step section_).Inv := by
  cases section_ with
  | register =>
    rw [step]
    split
    · next hidle => exact inv_register hinv hidle
    · exact hinv
  | addDesire | removeDesire | dropDesires => exact inv_querySet hinv _
  | clearQuery => exact inv_querySet hinv _
  | forget =>
    rw [step]
    split
    · next hidle => exact inv_forget hinv hidle
    · exact hinv
  | pollDriver clientId changes | headDriver clientId changes =>
    rw [step]
    split
    · next hidle => exact inv_advanceDriver hinv hidle changes (fun _ => rfl)
    · exact hinv
  | pollLog =>
    rw [step]
    split
    · next advance hpolling => exact inv_drain hinv (by rw [hpolling]; rfl) (fun _ => rfl)
    · exact hinv
  | headLog =>
    rw [step]
    split
    · next advance hheading => exact inv_drain hinv (by rw [hheading]; rfl) (fun _ => rfl)
    · exact hinv
  | pollFilter clientId =>
    rw [step]
    split
    · exact inv_pollFilter hinv clientId _
    · exact hinv

/-- A critical section keeps every connection served exactly when it is orderly. -/
theorem step_served (hserved : s.Served) (section_ : Section) : (s.step section_).Served ↔ s.Orderly section_ := by
  cases section_ with
  | register =>
    refine iff_of_true ?_ trivial
    rw [step]
    split
    · next hidle => exact served_register hinv hserved hidle
    · exact hserved
  | addDesire | removeDesire => exact iff_of_true hserved trivial
  | dropDesires | clearQuery => exact iff_of_true hserved trivial
  | forget clientId =>
    refine iff_of_true ?_ trivial
    rw [step]
    split
    · exact served_forget hinv hserved clientId
    · exact hserved
  | pollDriver clientId changes | headDriver clientId changes =>
    refine iff_of_true ?_ trivial
    rw [step]
    split
    · next hidle => exact served_advanceDriver hinv hserved hidle changes (fun _ => rfl)
    · exact hserved
  | pollLog clientId =>
    rw [step, Orderly]
    cases hphase : s.phases clientId with
    | polling => exact served_pollLog hinv hserved hphase
    | idle | heading | drained => exact iff_of_true hserved trivial
  | headLog clientId =>
    rw [step, Orderly]
    cases hphase : s.phases clientId with
    | heading => exact served_headLog hinv hserved hphase
    | idle | polling | drained => exact iff_of_true hserved trivial
  | pollFilter clientId =>
    cases hphase : s.phases clientId with
    | drained =>
      rw [served_pollFilter hinv hserved hphase, Orderly, hphase]
    | idle | polling | heading =>
      rw [step, Orderly, hphase]
      exact iff_of_true hserved trivial

end

theorem inv_run (sections : List Section) : (sections.foldl step new).Inv := by
  induction sections using reverseRecOn with
  | nil => exact inv_new
  | append_singleton sections section_ ih =>
    rw [foldl_append]
    exact step_inv ih section_

/-- In every state of a schedule every connection is served if and only if every critical section of
the schedule is orderly where it runs. -/
theorem served_iff (sections : List Section) :
    (∀ before rest, sections = before ++ rest → (before.foldl step new).Served) ↔
      ∀ before section_ rest, sections = before ++ section_ :: rest → (before.foldl step new).Orderly section_ := by
  refine foldl_prefix_iff ?_ (fun before section_ hbefore => step_served (inv_run before) hbefore section_)
  intro clientId hregistered
  cases hregistered

/-- An issue enters the result of the query `q`. -/
def issueAdded (id : String) : PipelineRowChange := ⟨"q", "issue", .add, [("id", .string id)], none, [("id", .string id)]⟩

/-- Two connections poll: the first advances the driver over one commit, the second over the next
one, and the second reaches the log first. -/
def overtaken : List Section :=
  [.register "a", .addDesire "a" "q", .register "b", .addDesire "b" "q",
    .pollDriver "a" [issueAdded "1"], .pollDriver "b" [issueAdded "2"], .pollLog "b", .pollLog "a", .pollFilter "a"]

/-- The first connection is handed the second commit before the first. -/
theorem not_served_overtaken : ¬ (overtaken.foldl step new).Served := by
  intro h
  have hhanded := h "a" (by decide)
  revert hhanded
  decide

end Fanout

end ZeroCache.ViewSyncer
