import ZeroCache.Replica.Dispatcher
import ZeroCache.Replica.Snapshotter

/-!
# The version a snapshot reports

A snapshot takes its version from the replication state (`Snapshot::create` and
`Snapshot::reset_to_head` of `snapshotter.rs`), and a consumer reads the change log from that
version on. The dispatcher's commit writes the change log and the tables but not the replication
state, so the reported version stays the one of the initial sync.
-/

namespace ZeroCache.Replica

open Lib

/-- A call of the dispatcher. -/
inductive Call where
  | begin (version : String)
  | apply (change : Change)
  | commit (watermark : String)
  | rollback

variable (env : Env)

/-- The dispatcher after a call, whether the call succeeded or not. -/
def step (s : Dispatcher) : Call → Dispatcher
  | .begin version => finalState (begin version) s
  | .apply change => finalState (apply env change) s
  | .commit watermark => finalState (commit watermark) s
  | .rollback => finalState rollback s

/-- The dispatcher after a list of calls. -/
def run (s : Dispatcher) (calls : List Call) : Dispatcher := calls.foldl (step env) s

/-- A replica as the initial sync leaves it: nothing logged after its watermark. -/
structure SyncedReplica where
  file : ReplicaFile
  logged : ∀ entry ∈ file.changeLog, ¬ file.stateVersion < entry.stateVersion

/-- The dispatcher started on a synced replica, after a list of calls. -/
def SyncedReplica.run (synced : SyncedReplica) (calls : List Call) : Dispatcher :=
  Replica.run env (Dispatcher.new synced.file) calls

/-- A property of every commit that takes effect in a run: the calls before it, its watermark, and
the calls after it. -/
def EachCommit (synced : SyncedReplica) (calls : List Call)
    (P : List Call → String → List Call → Prop) : Prop :=
  ∀ before watermark after, calls = before ++ .commit watermark :: after →
    (synced.run env before).inTransaction = true → P before watermark after

/-- What consumers rely on after a commit: snapshots at head report its watermark, nothing is left
to read from there, and no entry logged by then is read again later in the run. -/
structure Consumed (synced : SyncedReplica) (before : List Call) (watermark : String)
    (after : List Call) : Prop where
  created : ∀ appId, (Snapshot.create appId (synced.run env (before ++ [.commit watermark])).committed).version = watermark
  reset : ∀ snapshot : Snapshot,
    (snapshot.resetToHead (synced.run env (before ++ [.commit watermark])).committed).version = watermark
  drained : readSince (synced.run env (before ++ [.commit watermark])).committed.changeLog watermark = []
  once : ∀ next rest, after = next ++ rest →
    ∀ entry ∈ readSince (synced.run env (before ++ .commit watermark :: next)).committed.changeLog watermark,
      entry ∉ (synced.run env (before ++ [.commit watermark])).committed.changeLog

/-! ## One call -/

theorem begin_cases (version : String) (s : Dispatcher) :
    (s.inTransaction = true ∧ finalState (begin version) s = s) ∨
    (s.inTransaction = false ∧ finalState (begin version) s =
      { s with inTransaction := true, version := version, pos := 0, schemaChanged := false,
               numChangeLogEntries := 0, completedBackfill := none }) := by
  cases h : s.inTransaction with
  | true => exact .inl ⟨rfl, by simp [begin, h]⟩
  | false => exact .inr ⟨rfl, by simp [begin, h]⟩

theorem commit_cases (watermark : String) (s : Dispatcher) :
    (s.inTransaction = false ∧ finalState (commit watermark) s = s) ∨
    (s.inTransaction = true ∧ finalState (commit watermark) s =
      { s with committed := s.replica, inTransaction := false, completedBackfill := none }) := by
  cases h : s.inTransaction with
  | false => exact .inl ⟨rfl, by simp [commit, h]⟩
  | true => exact .inr ⟨rfl, by simp [commit, h]⟩

variable {s : Dispatcher} {synced : SyncedReplica}

theorem apply_outside (change : Change) (h : s.inTransaction = false) : finalState (apply env change) s = s := by
  simp [apply, h]

theorem apply_inside {change : Change} (h : s.inTransaction = true) : apply env change s = route env change s := by
  rw [apply, bind_run (get_run s)]
  simp only [h]
  rfl

theorem rollback_cases (s : Dispatcher) :
    (s.inTransaction = false ∧ finalState rollback s = { s with completedBackfill := none }) ∨
    (s.inTransaction = true ∧ finalState rollback s =
      { s with replica := s.committed, inTransaction := false, completedBackfill := none }) := by
  cases h : s.inTransaction with
  | false => exact .inl ⟨rfl, by simp [rollback, h]⟩
  | true => exact .inr ⟨rfl, by simp [rollback, h]⟩

/-! ## Whole runs -/

/-- What holds of every state of a run from a synced replica, whatever is committed: the
replication state keeps the watermark of the sync, and outside a transaction nothing is pending. -/
structure KeepsWatermark (synced : SyncedReplica) (s : Dispatcher) : Prop where
  committed : s.committed.stateVersion = synced.file.stateVersion
  replica : s.replica.stateVersion = synced.file.stateVersion
  settled : s.inTransaction = false → s.replica = s.committed

theorem keepsWatermark_step (h : KeepsWatermark synced s)
    (call : Call) : KeepsWatermark synced (step env s call) := by
  cases call with
  | begin version =>
    rcases begin_cases version s with ⟨_, heq⟩ | ⟨_, heq⟩
    · simpa only [step, heq] using h
    · simp only [step, heq]
      exact ⟨h.committed, h.replica, by simp⟩
  | apply change =>
    have hw : Within s (step env s (.apply change)) := apply_within env change s
    refine ⟨hw.committed ▸ h.committed, hw.stateVersion ▸ h.replica, fun hout => ?_⟩
    have hsame : step env s (.apply change) = s := apply_outside env change (hw.inTransaction ▸ hout)
    rw [hsame] at hout ⊢
    exact h.settled hout
  | commit watermark =>
    rcases commit_cases watermark s with ⟨_, heq⟩ | ⟨_, heq⟩
    · simpa only [step, heq] using h
    · simp only [step, heq]
      exact ⟨h.replica, h.replica, fun _ => rfl⟩
  | rollback =>
    rcases rollback_cases s with ⟨hout, heq⟩ | ⟨_, heq⟩
    · simp only [step, heq]
      exact ⟨h.committed, h.replica, fun _ => h.settled hout⟩
    · simp only [step, heq]
      exact ⟨h.committed, h.committed, fun _ => rfl⟩

/-- Every state of every run keeps the watermark of the sync. -/
theorem keepsWatermark_run (synced : SyncedReplica) (calls : List Call) :
    KeepsWatermark synced (synced.run env calls) := by
  refine foldl_prefix_invariant (P := KeepsWatermark synced) ?_ ?_ calls [] (List.append_nil _).symm
  · exact ⟨rfl, rfl, fun _ => rfl⟩
  · exact fun _ call _ _ h => keepsWatermark_step env h call

/-- No entry is logged after the watermark of the sync, but for those of the open transaction. -/
structure LogsUpTo (synced : SyncedReplica) (s : Dispatcher) : Prop where
  committed : ∀ entry ∈ s.committed.changeLog, ¬ synced.file.stateVersion < entry.stateVersion
  pending : ∀ entry ∈ s.replica.changeLog, ¬ synced.file.stateVersion < entry.stateVersion ∨
    (s.inTransaction = true ∧ entry.stateVersion = s.version)

theorem logsUpTo_step (hk : KeepsWatermark synced s) (h : LogsUpTo synced s) (call : Call)
    (hcommit : ∀ watermark, call = .commit watermark → s.inTransaction = true →
      s.version = synced.file.stateVersion) : LogsUpTo synced (step env s call) := by
  cases call with
  | begin version =>
    rcases begin_cases version s with ⟨_, heq⟩ | ⟨hout, heq⟩
    · simpa only [step, heq] using h
    · simp only [step, heq]
      exact ⟨h.committed, fun entry he => .inl (h.committed entry (hk.settled hout ▸ he))⟩
  | apply change =>
    have hw : Within s (step env s (.apply change)) := apply_within env change s
    refine ⟨hw.committed ▸ h.committed, fun entry he => ?_⟩
    rw [hw.inTransaction, hw.version]
    rcases hw.changeLog entry he with hold | hnew
    · exact h.pending entry hold
    · cases hin : s.inTransaction with
      | true => exact .inr ⟨rfl, hnew⟩
      | false =>
        have hsame : step env s (.apply change) = s := apply_outside env change hin
        rw [hsame, hk.settled hin] at he
        exact .inl (h.committed entry he)
  | commit watermark =>
    rcases commit_cases watermark s with ⟨_, heq⟩ | ⟨hin, heq⟩
    · simpa only [step, heq] using h
    · have hversion := hcommit watermark rfl hin
      have hlog : ∀ entry ∈ s.replica.changeLog, ¬ synced.file.stateVersion < entry.stateVersion := by
        intro entry he
        rcases h.pending entry he with hle | ⟨_, heqv⟩
        · exact hle
        · rw [heqv, hversion]
          exact String.lt_irrefl _
      simp only [step, heq]
      exact ⟨hlog, fun entry he => .inl (hlog entry he)⟩
  | rollback =>
    rcases rollback_cases s with ⟨_, heq⟩ | ⟨_, heq⟩
    · simp only [step, heq]
      exact ⟨h.committed, h.pending⟩
    · simp only [step, heq]
      exact ⟨h.committed, fun entry he => .inl (h.committed entry he)⟩

/-- When every transaction is begun and committed at the watermark of the sync, no state of the run
has anything logged after it. -/
theorem logsUpTo_run {calls : List Call} (hversion : EachCommit env synced calls fun before _ _ =>
      (synced.run env before).version = synced.file.stateVersion) :
    ∀ before after, calls = before ++ after → LogsUpTo synced (synced.run env before) := by
  refine foldl_prefix_invariant (P := LogsUpTo synced) ?_ ?_
  · exact ⟨synced.logged, fun entry he => .inl (synced.logged entry he)⟩
  · intro before call after hcut h
    refine logsUpTo_step env (keepsWatermark_run env synced before) h call ?_
    rintro watermark rfl hin
    exact hversion before watermark after hcut hin

/-- With framed transactions, every commit of a run is consumed by snapshots exactly when every
one of them is at the watermark the replica was synced at. -/
theorem eachCommit_consumed_iff (synced : SyncedReplica) (calls : List Call)
    (hframed : EachCommit env synced calls fun before watermark _ => (synced.run env before).version = watermark) :
    EachCommit env synced calls (Consumed env synced) ↔
      EachCommit env synced calls fun _ watermark _ => watermark = synced.file.stateVersion := by
  constructor
  · intro hconsumed before watermark after hcut hin
    have hcreated := (hconsumed before watermark after hcut hin).created "zero"
    exact hcreated.symm.trans (keepsWatermark_run env synced _).committed
  · intro hwatermark before watermark after hcut hin
    have hversion : EachCommit env synced calls fun before _ _ =>
        (synced.run env before).version = synced.file.stateVersion :=
      fun b w a hc hi => (hframed b w a hc hi).trans (hwatermark b w a hc hi)
    have hempty (pre post : List Call) (hpre : calls = pre ++ post) :
        readSince (synced.run env pre).committed.changeLog watermark = [] := by
      rw [hwatermark before watermark after hcut hin, List.eq_nil_iff_forall_not_mem]
      intro entry he
      obtain ⟨hmem, hlt⟩ := mem_readSince.mp he
      exact (logsUpTo_run env hversion pre post hpre).committed entry hmem hlt
    have hhead := (keepsWatermark_run env synced (before ++ [.commit watermark])).committed
    have hw := hwatermark before watermark after hcut hin
    refine ⟨fun _ => hhead.trans hw.symm, fun _ => hhead.trans hw.symm, hempty _ after (by simpa using hcut), ?_⟩
    intro next rest hafter entry he
    rw [hempty (before ++ .commit watermark :: next) rest (by simp [hcut, hafter])] at he
    cases he

/-- An engine that stores values as they are bound. -/
def plainEnv : Env := ⟨⟨fun _ v => v, fun _ => .null⟩, fun _ => "", fun _ => none, fun _ => "", fun n => n⟩

/-- A replica without tables, synced at a version. -/
def emptySynced (version : String) : SyncedReplica :=
  ⟨⟨⟨[], []⟩, [], [], [], version⟩, by simp⟩

/-- A created table, as the change stream sends it. -/
def issueTable : Change :=
  .createTable ⟨"issue", "public", [("id", ⟨1, "text", none, none, none, none, none⟩)], some ["id"]⟩ none none

/-- A transaction that creates a table at the watermark of the sync is consumed. -/
theorem eachCommit_consumed_at_sync :
    (EachCommit plainEnv (emptySynced "00") [.begin "00", .apply issueTable, .commit "00"]
      fun before watermark _ => ((emptySynced "00").run plainEnv before).version = watermark) ∧
    EachCommit plainEnv (emptySynced "00") [.begin "00", .apply issueTable, .commit "00"]
      (Consumed plainEnv (emptySynced "00")) := by
  have honly : ∀ before watermark after,
      [Call.begin "00", .apply issueTable, .commit "00"] = before ++ .commit watermark :: after →
        before = [Call.begin "00", .apply issueTable] ∧ watermark = "00" := by
    intro before watermark after hcut
    rcases before with _ | ⟨a, _ | ⟨b, _ | ⟨c, before⟩⟩⟩ <;> simp at hcut
    obtain ⟨rfl, rfl, rfl, rfl⟩ := hcut
    exact ⟨rfl, rfl⟩
  have hframed : EachCommit plainEnv (emptySynced "00") [.begin "00", .apply issueTable, .commit "00"]
      fun before watermark _ => ((emptySynced "00").run plainEnv before).version = watermark := by
    intro before watermark after hcut _
    obtain ⟨rfl, rfl⟩ := honly before watermark after hcut
    decide
  refine ⟨hframed, (eachCommit_consumed_iff plainEnv (emptySynced "00") _ hframed).mpr ?_⟩
  intro before watermark after hcut _
  exact (honly before watermark after hcut).2

/-- The same transaction at a later watermark is not: a snapshot at head still reports the sync's
version, and the table's reset is read again after the next commit. -/
theorem eachCommit_not_consumed_after_sync : ¬ EachCommit plainEnv (emptySynced "00")
        [.begin "01", .apply issueTable, .commit "01", .begin "02", .commit "02"]
        (Consumed plainEnv (emptySynced "00")) ∧ (Snapshot.create "zero" ((emptySynced "00").run plainEnv
        [.begin "01", .apply issueTable, .commit "01"]).committed).version = "00" ∧
    readSince ((emptySynced "00").run plainEnv
        [.begin "01", .apply issueTable, .commit "01", .begin "02", .commit "02"]).committed.changeLog "00" =
      [⟨"01", -1, "issue", .raw "01", .reset, []⟩] := by
  refine ⟨fun h => ?_, by decide, by decide⟩
  have hcreated := (h [.begin "01", .apply issueTable] "01" [.begin "02", .commit "02"] rfl (by decide)).created "zero"
  exact absurd hcreated (by decide)

end ZeroCache.Replica
