import ZeroCache.ChangeSource.Translate
import ZeroCache.Replica.RowRuns

/-!
# Feedback to the replication stream

Two loops read the replication stream, apply its messages and tell the server how far they got, so
that it can release its log: `run_change_stream` of `change_stream_loop.rs` and `drive_apply_loop` of
`replication_apply.rs`. A server that has been told a flush position does not send again what lies
before it, so a position that is flushed must not lie beyond the transactions that are committed.

The first loop flushes the largest position it has seen, also in answer to a keepalive; the second one
keeps the end of its committed transactions apart. The applier is any: the results only depend on
which messages it reports as committing. A send that fails ends a loop like the end of its events.
-/

namespace ZeroCache.ChangeSource

open Replica List

/-- A frame of the stream. -/
inductive ReplicationEvent where
  | data (startLsn endLsn : ℕ) (message : PgoutputMessage)
  | keepalive (endLsn : ℕ) (replyRequested : Bool)

/-- The position that a frame carries. -/
def ReplicationEvent.endLsn : ReplicationEvent → ℕ
  | .data _ endLsn _ => endLsn
  | .keepalive endLsn _ => endLsn

/-- A standby status update. -/
structure StandbyStatus where
  writeLsn : ℕ
  flushLsn : ℕ
  applyLsn : ℕ
  timestampMicros : ℤ
  replyRequested : Bool
  deriving DecidableEq, Repr

/-- The furthest of some positions, none of them before the start. -/
def furthest (start : ℕ) (positions : List ℕ) : ℕ := positions.foldl max start

theorem furthest_le_iff {start bound : ℕ} {positions : List ℕ} :
    furthest start positions ≤ bound ↔ start ≤ bound ∧ ∀ x ∈ positions, x ≤ bound := by
  induction positions generalizing start with
  | nil => simp [furthest]
  | cons x positions ih =>
    have h : positions.foldl max (max start x) ≤ bound ↔ max start x ≤ bound ∧ ∀ y ∈ positions, y ≤ bound := ih
    rw [furthest, foldl_cons, h]
    simp [and_assoc]

theorem furthest_append (start : ℕ) (positions : List ℕ) (x : ℕ) :
    furthest start (positions ++ [x]) = max (furthest start positions) x := by
  simp [furthest]

variable {σ ε : Type} (apply : PgoutputMessage → EStateM ε σ (Option CommitResult))

/-! ## The change stream loop -/

/-- What to do after a commit. -/
inductive LoopControl where
  | continue
  | stop
  deriving DecidableEq

/-- The change stream loop: its high-water mark, its applier, the transactions that it has committed
with the positions of their last frames, and whether it still reads. -/
structure ChangeStream (σ : Type) where
  highWater : ℕ
  applier : σ
  committed : List (ℕ × CommitResult)
  running : Bool

namespace ChangeStream

variable (timestampMicros : ℤ) (onCommit : List CommitResult → LoopControl)

/-- The loop before its first event. -/
def initial (applier : σ) : ChangeStream σ := ⟨0, applier, [], true⟩

/-- The positions up to which transactions are committed. -/
def committedEnds (s : ChangeStream σ) : List ℕ := s.committed.map Prod.fst

/-- The update that flushes everything up to a position. -/
def flushed (position : ℕ) : StandbyStatus := ⟨position, position, position, timestampMicros, false⟩

/-- Handle an event, and the update that is sent (`run_change_stream`). -/
def step (s : ChangeStream σ) (event : ReplicationEvent) : ChangeStream σ × Option StandbyStatus :=
  if s.running then
    let highWater := max s.highWater event.endLsn
    match event with
    | .data _ endLsn message =>
      match apply message s.applier with
      | .error _ applier => ({ s with highWater, applier, running := false }, none)
      | .ok none applier => ({ s with highWater, applier }, none)
      | .ok (some commit) applier =>
        let committed := s.committed ++ [(endLsn, commit)]
        let running := onCommit (committed.map Prod.snd) = .continue
        (⟨highWater, applier, committed, running⟩, some (flushed timestampMicros highWater))
    | .keepalive _ replyRequested =>
      ({ s with highWater }, if replyRequested then some (flushed timestampMicros highWater) else none)
  else (s, none)

/-- The loop after some events. -/
def run (applier : σ) (events : List ReplicationEvent) : ChangeStream σ :=
  events.foldl (fun s event => (step apply timestampMicros onCommit s event).1) (initial applier)

/-- Whether an event is answered: it completes a transaction or asks for a reply. -/
def answers (s : ChangeStream σ) (event : ReplicationEvent) : Bool :=
  s.running && match event with
    | .data _ _ message =>
      match apply message s.applier with
      | .ok (some _) _ => true
      | _ => false
    | .keepalive _ replyRequested => replyRequested

/-- No flush position that is sent lies beyond the transactions committed when it is sent; the
transactions before the start were committed earlier. -/
def FlushesCommitted (start : ℕ) (applier : σ) (events : List ReplicationEvent) : Prop :=
  ∀ before event after, events = before ++ event :: after →
    let next := step apply timestampMicros onCommit (run apply timestampMicros onCommit applier before) event
    ∀ status ∈ next.2, status.flushLsn ≤ furthest start next.1.committedEnds

/-- Whenever an event is answered, neither it nor an earlier one carries a position beyond the
transactions committed then. -/
def Settled (start : ℕ) (applier : σ) (events : List ReplicationEvent) : Prop :=
  ∀ before event after, events = before ++ event :: after →
    let s := run apply timestampMicros onCommit applier before
    answers apply s event = true → ∀ e ∈ before ++ [event],
      e.endLsn ≤ furthest start (step apply timestampMicros onCommit s event).1.committedEnds

theorem run_append (applier : σ) (events : List ReplicationEvent) (event : ReplicationEvent) :
    run apply timestampMicros onCommit applier (events ++ [event]) =
      (step apply timestampMicros onCommit (run apply timestampMicros onCommit applier events) event).1 := by
  simp [run]

/-- A stopped loop stays as it is; a running one raises its mark to the position of the event. -/
theorem step_highWater (s : ChangeStream σ) (event : ReplicationEvent) :
    (step apply timestampMicros onCommit s event).1.highWater =
      if s.running then max s.highWater event.endLsn else s.highWater := by
  unfold step
  split
  · cases event with
    | keepalive => rfl
    | data =>
      simp only
      split <;> rfl
  · rfl

variable {s : ChangeStream σ} {event : ReplicationEvent}

theorem running_of_step (h : (step apply timestampMicros onCommit s event).1.running = true) : s.running = true := by
  by_contra hstopped
  simp only [step, hstopped, if_false] at h

/-- While the loop runs, its mark is the largest position it has seen. -/
theorem highWater_run (applier : σ) (events : List ReplicationEvent)
    (hrunning : (run apply timestampMicros onCommit applier events).running = true) :
    (run apply timestampMicros onCommit applier events).highWater =
      furthest 0 (events.map ReplicationEvent.endLsn) := by
  induction events using reverseRecOn with
  | nil => rfl
  | append_singleton events event ih =>
    rw [run_append] at hrunning ⊢
    have hbefore := running_of_step apply timestampMicros onCommit hrunning
    rw [step_highWater, if_pos hbefore, ih hbefore, map_append, map_singleton, furthest_append]

/-- What is sent: the mark, exactly when the event is answered. -/
theorem step_status (s : ChangeStream σ) (event : ReplicationEvent) :
    (step apply timestampMicros onCommit s event).2 =
      if answers apply s event then some (flushed timestampMicros (max s.highWater event.endLsn)) else none := by
  unfold step answers
  cases s.running with
  | false => rfl
  | true =>
    cases event with
    | keepalive => rfl
    | data =>
      simp only [if_true, Bool.true_and]
      split <;> rename_i heq <;> rw [heq] <;> rfl

theorem running_of_answers (h : answers apply s event = true) : s.running = true := by
  exact (Bool.and_eq_true_iff.mp h).1

/-- Flush positions lie within the committed transactions exactly in settled runs. -/
theorem flushesCommitted_iff (start : ℕ) (applier : σ) (events : List ReplicationEvent) :
    FlushesCommitted apply timestampMicros onCommit start applier events ↔
      Settled apply timestampMicros onCommit start applier events := by
  refine forall_congr' fun before => forall_congr' fun event => forall_congr' fun after =>
    forall_congr' fun _ => ?_
  simp only [step_status]
  by_cases hanswers : answers apply (run apply timestampMicros onCommit applier before) event = true
  · have hmark := highWater_run apply timestampMicros onCommit applier before
      (running_of_answers apply hanswers)
    simp only [hanswers, if_true, Option.mem_def, Option.some.injEq, forall_eq', flushed]
    rw [hmark, ← furthest_append, furthest_le_iff]
    simp [or_imp, forall_and]
  · simp [hanswers]

end ChangeStream

/-! ## The apply loop -/

/-- The apply loop: the end of its committed transactions, their number, why it stopped if the schema
drifted, and the same as the change stream loop. -/
structure ApplyLoop (σ : Type) where
  flushLsn : ℕ
  commits : ℕ
  drift : Option String
  applier : σ
  committed : List (ℕ × CommitResult)
  running : Bool

namespace ApplyLoop

variable (relationMessageDrift : PgoutputMessage → Option String)
variable (takeResyncSignal : σ → Option String × σ) (shouldStop : List CommitResult → Bool)

/-- The loop before its first event. -/
def initial (applier : σ) : ApplyLoop σ := ⟨0, 0, none, applier, [], true⟩

/-- The positions up to which transactions are committed. -/
def committedEnds (s : ApplyLoop σ) : List ℕ := s.committed.map Prod.fst

/-- The loop stopped for a reason. -/
def drifted (s : ApplyLoop σ) (reason : String) : ApplyLoop σ :=
  { s with drift := some reason, running := false }

/-- Why the loop stops when the background poll has seen a change of the schema. -/
def pollReason : String :=
  "schema-hash poll detected an upstream schema change with no accompanying Relation message (DML-less DDL)"

/-- Handle an event, and the update that is sent (`drive_apply_loop_with_message_observer`); `polled`
tells whether the background poll has seen a change of the schema. -/
def step (s : ApplyLoop σ) (polled : Bool) (event : ReplicationEvent) :
    ApplyLoop σ × Option StandbyStatus :=
  if !s.running then (s, none)
  else if polled then (s.drifted pollReason, none)
  else match event with
    | .data _ endLsn message =>
      match relationMessageDrift message with
      | some reason => (s.drifted reason, none)
      | none =>
        match apply message s.applier with
        | .error _ applier => ({ s with applier, running := false }, none)
        | .ok commit applier =>
          match takeResyncSignal applier, commit with
          | (some reason, applier), _ => ({ s with applier }.drifted reason, none)
          | (none, applier), none => ({ s with applier }, none)
          | (none, applier), some commit =>
            let flushLsn := max s.flushLsn endLsn
            let committed := s.committed ++ [(endLsn, commit)]
            let running := !shouldStop (committed.map Prod.snd)
            (⟨flushLsn, s.commits + 1, s.drift, applier, committed, running⟩,
              some ⟨flushLsn, flushLsn, flushLsn, 0, false⟩)
    | .keepalive endLsn replyRequested =>
      (s, if replyRequested then some ⟨endLsn, s.flushLsn, s.flushLsn, 0, false⟩ else none)

/-- The loop after some events. -/
def run (applier : σ) (events : List (Bool × ReplicationEvent)) : ApplyLoop σ :=
  events.foldl (fun s e => (step apply relationMessageDrift takeResyncSignal shouldStop s e.1 e.2).1)
    (initial applier)

/-- The flush position is the end of what is committed. -/
def Tracks (s : ApplyLoop σ) : Prop := s.flushLsn = furthest 0 s.committedEnds

/-- An event keeps the flush position at the end of what is committed, and sends no other. -/
theorem step_tracks {s : ApplyLoop σ} (hs : s.Tracks) (polled : Bool) (event : ReplicationEvent) :
    let next := step apply relationMessageDrift takeResyncSignal shouldStop s polled event
    next.1.Tracks ∧ ∀ status ∈ next.2, status.flushLsn = next.1.flushLsn := by
  intro next
  simp only [next, step]
  split
  · exact ⟨hs, by simp⟩
  · split
    · exact ⟨hs, by simp⟩
    · cases event with
      | keepalive endLsn replyRequested =>
        refine ⟨hs, ?_⟩
        cases replyRequested <;> simp
      | data =>
        simp only
        split
        · exact ⟨hs, by simp⟩
        · split
          · exact ⟨hs, by simp⟩
          · split
            · exact ⟨hs, by simp⟩
            · exact ⟨hs, by simp⟩
            · refine ⟨?_, by simp⟩
              simp only [Tracks, committedEnds, map_append, map_cons, map_nil, furthest_append] at hs ⊢
              rw [hs]

theorem run_tracks (applier : σ) (events : List (Bool × ReplicationEvent)) :
    (run apply relationMessageDrift takeResyncSignal shouldStop applier events).Tracks := by
  induction events using reverseRecOn with
  | nil => rfl
  | append_singleton events e ih =>
    have hstep := step_tracks apply relationMessageDrift takeResyncSignal shouldStop ih e.1 e.2
    simpa [run] using hstep.1

/-- No flush position that is sent lies beyond the transactions committed when it is sent. -/
theorem flush_le_committed (start : ℕ) (applier : σ) (before : List (Bool × ReplicationEvent))
    (polled : Bool) (event : ReplicationEvent) :
    let next := step apply relationMessageDrift takeResyncSignal shouldStop
      (run apply relationMessageDrift takeResyncSignal shouldStop applier before) polled event
    ∀ status ∈ next.2, status.flushLsn ≤ furthest start next.1.committedEnds := by
  intro next status hstatus
  have hbefore := run_tracks apply relationMessageDrift takeResyncSignal shouldStop applier before
  obtain ⟨htracks, hsent⟩ := step_tracks apply relationMessageDrift takeResyncSignal shouldStop
    hbefore polled event
  have hbound : ∀ x ∈ next.1.committedEnds, x ≤ furthest start next.1.committedEnds := (furthest_le_iff.mp le_rfl).2
  rw [hsent status hstatus, htracks, furthest_le_iff]
  exact ⟨Nat.zero_le _, hbound⟩

end ApplyLoop

open ChangeStream

variable (wire : Wire) (env : Env)

/-- The position of a commit message. -/
def PgoutputMessage.commitLsn? : PgoutputMessage → Option ℕ
  | .commit commitLsn => some commitLsn
  | _ => none

/-- Apply a message, and what was committed if it closes a transaction (`apply_message`). -/
def applyMessageCommit (message : PgoutputMessage) : EStateM StreamError Applier (Option CommitResult) :=
  fun s =>
    match message.commitLsn? with
    | some commitLsn =>
      match commit (wire.versionFromLsn commitLsn) s.dispatcher with
      | .ok result dispatcher => .ok (some result) { s with dispatcher }
      | .error e dispatcher => .error (.dispatch e) { s with dispatcher }
    | none =>
      match applyMessage wire env message s with
      | .ok _ s => .ok none s
      | .error e s => .error e s

theorem applyMessageCommit_begin {s : Applier} (hidle : s.dispatcher.inTransaction = false) (lsn : ℕ) :
    ∃ s', applyMessageCommit wire env (.begin lsn) s = .ok none s' ∧ s'.dispatcher.inTransaction = true := by
  refine ⟨⟨s.relations, s.dispatcher.begun (wire.versionFromLsn lsn)⟩, ?_, rfl⟩
  have happ : applyMessage wire env (.begin lsn) s =
      .ok () ⟨s.relations, s.dispatcher.begun (wire.versionFromLsn lsn)⟩ :=
    onDispatcher_run (begin_run hidle _)
  simp only [applyMessageCommit, PgoutputMessage.commitLsn?, happ]

/-- A transaction that ends at 100 has begun when the server, at 200, asks for a reply. -/
def interrupted : List ReplicationEvent := [.data 90 100 (.begin 100), .keepalive 200 true]

end ZeroCache.ChangeSource
