import ZeroCache.Lib.SqliteShape
import ZeroCache.Replica.Watermark

/-!
# The caches of the dispatcher

The dispatcher keeps the specifications of the tables and their columns under backfill, and reloads
both after a schema change. They are what a reload would give at the end of a transaction that is
committed, unless a schema change failed halfway or an index that identifies rows was dropped: a
dropped index reloads nothing. A rollback restores the database and not the caches, so it must not
undo a schema change.
-/

namespace ZeroCache.Replica

open Sqlite Lib List Bool Database Moves Returns Dispatcher

/-- What the caches are loaded from a file as. -/
def catalogOf (file : ReplicaFile) : Fields LiteTableSpec × Fields (List String) :=
  (loadTableSpecs file, loadBackfillingColumns file (loadTableSpecs file))

/-- The caches of a dispatcher. -/
def Dispatcher.caches (s : Dispatcher) : Fields LiteTableSpec × Fields (List String) :=
  (s.tableSpecs, s.backfillingColumns)

/-! ## What determines the catalog -/

/-- The specification of a table of a shape. -/
def specOfShape (indexes : List Index) (shape : String × List Column × List String) : LiteTableSpec :=
  liteTableSpec ⟨[], indexes⟩ ⟨shape.1, shape.2.1, shape.2.2, []⟩

theorem loadTableSpecs_eq (file : ReplicaFile) :
    loadTableSpecs file = ((file.database.shapes.filter (fun shape => !hiddenTable shape.1)).map
      (fun shape => (shape.1, specOfShape file.database.indexes shape))) := by
  rw [shapes, filter_map, map_map]
  rfl

/-- The catalog depends on the shape of the database and on the column metadata. -/
theorem catalogOf_congr {a b : ReplicaFile} (hshape : a.database.SameShape b.database)
    (hcolumns : b.columnMetadata = a.columnMetadata) : catalogOf b = catalogOf a := by
  have hspecs : loadTableSpecs b = loadTableSpecs a := by
    rw [loadTableSpecs_eq, loadTableSpecs_eq, hshape.shapes, hshape.indexes]
  rw [catalogOf, catalogOf, hspecs, loadBackfillingColumns, loadBackfillingColumns, hcolumns]

/-- Dropping an index keeps the row identity of every table. -/
def keepsIdentities (db : Database) (index : String) : Bool :=
  db.tables.all (fun t => rowIdentity (db.dropIndex index) t = rowIdentity db t)

theorem catalogOf_dropIndex {file : ReplicaFile} {index : String}
    (h : keepsIdentities file.database index = true) :
    catalogOf { file with database := file.database.dropIndex index } = catalogOf file := by
  have hspecs : loadTableSpecs { file with database := file.database.dropIndex index } = loadTableSpecs file := by
    refine map_congr_left (fun t ht => ?_)
    have hidentity : rowIdentity (file.database.dropIndex index) t = rowIdentity file.database t := by
      have hall := all_eq_true.mp h t (mem_of_mem_filter ht)
      simpa using hall
    rw [liteTableSpec, liteTableSpec, hidentity]
  rw [catalogOf, hspecs]
  rfl

/-! ## Writes of rows -/

section

variable {engine : Engine} {f : Database → Except SqlError Database}

theorem RowStatement.writesRows (hf : RowStatement engine f) {db db' : Database} (h : f db = .ok db') :
    db.WritesRows db' := by
  cases hf with
  | insertOrReplace => exact writesRows_insertOrReplace h
  | deleteWhere => exact writesRows_deleteWhere h
  | deleteAll => exact writesRows_deleteAll h
  | updateOrInsert =>
    obtain ⟨⟨updated, changes⟩, hupdate, h⟩ := bind_ok h
    dsimp only at h
    split at h
    · exact writesRows_insertOrReplace h
    · cases h
      exact writesRows_updateWhere hupdate
  | upsertOn => exact writesRows_upsertOn h

theorem SchemaStatement.named
    (hf : SchemaStatement engine f) {db db' : Database} (hdb : db.Named) (h : f db = .ok db') : db'.Named := by
  cases hf with
  | createTable => exact hdb.createTable h
  | dropTable table =>
    cases h
    exact hdb.dropTable table
  | renameTable => exact hdb.renameTable h
  | addColumn => exact hdb.addColumn h
  | dropColumn => exact hdb.dropColumn h
  | renameColumn => exact hdb.renameColumn h
  | copyColumn => exact hdb.copyColumn h
  | createIndex => exact hdb.createIndex h
  | dropIndex =>
    cases h
    exact hdb

end

/-- Every write leaves one table of a name. -/
structure KeepsNamed (s s' : Dispatcher) : Prop where
  named : s.replica.database.Named → s'.replica.database.Named

instance : IsPreorder Dispatcher KeepsNamed where
  refl _ := ⟨id⟩
  trans _ _ _ hab hbc := ⟨hbc.named ∘ hab.named⟩

/-- A write that leaves the caches and the catalog alone. -/
structure KeepsCatalog (s s' : Dispatcher) : Prop where
  named : s.replica.database.Named → s'.replica.database.Named
  catalog : s.replica.database.Named → catalogOf s'.replica = catalogOf s.replica
  caches : s'.caches = s.caches

instance : IsPreorder Dispatcher KeepsCatalog where
  refl _ := ⟨id, fun _ => rfl, rfl⟩
  trans _ _ _ hab hbc := ⟨hbc.named ∘ hab.named, fun h => (hbc.catalog (hab.named h)).trans (hab.catalog h),
    hbc.caches.trans hab.caches⟩

variable (env : Env)

theorem KeepsCatalog.of_eq {s s' : Dispatcher} (hdb : s'.replica.database = s.replica.database)
    (hcolumns : s'.replica.columnMetadata = s.replica.columnMetadata) (hcaches : s'.caches = s.caches) :
    KeepsCatalog s s' :=
  ⟨fun h => hdb ▸ h, fun _ => catalogOf_congr (hdb ▸ Database.SameShape.refl _) hcolumns, hcaches⟩

/-- Writes of rows keep the catalog. -/
theorem keepsCatalog_rowFrame : RowFrame env KeepsCatalog where
  rows _ hf := Moves.sql fun _ _ h =>
    ⟨fun hnamed => ((hf.writesRows h).sameShape hnamed).named hnamed,
      fun hnamed => catalogOf_congr ((hf.writesRows h).sameShape hnamed) rfl, rfl⟩
  logsRow _ _ _ _ := bind (Moves.logStatement fun _ _ _ => .of_eq rfl rfl rfl)
    (fun _ => modify (fun _ => .of_eq rfl rfl rfl))
  logsTable _ _ := Moves.logStatement fun _ _ _ => .of_eq rfl rfl rfl
  tableMetadata _ := Moves.onTableMetadata fun _ _ _ => .of_eq rfl rfl rfl
  counted _ _ := .of_eq rfl rfl rfl

/-- Every change leaves one table of a name. -/
theorem keepsNamed_changeFrame : ChangeFrame env KeepsNamed where
  rows _ hf := Moves.sql fun _ _ h => ⟨fun hnamed => ((hf.writesRows h).sameShape hnamed).named hnamed⟩
  schema _ hf := Moves.sql fun _ _ h => ⟨fun hnamed => hf.named hnamed h⟩
  logsRow _ _ _ _ := bind (Moves.logStatement fun _ _ _ => ⟨id⟩) (fun _ => modify (fun _ => ⟨id⟩))
  logsTable _ _ := Moves.logStatement fun _ _ _ => ⟨id⟩
  tableMetadata _ := Moves.onTableMetadata fun _ _ _ => ⟨id⟩
  columnMetadata _ := Moves.onColumnMetadata fun _ _ _ => ⟨id⟩
  counted _ _ := ⟨id⟩
  reloaded := modify fun _ => ⟨id⟩
  marked _ := ⟨id⟩
  completed _ _ := ⟨id⟩

/-! ## Schema changes -/

/-- The caches are untouched. -/
def SameCaches (s s' : Dispatcher) : Prop := s'.caches = s.caches

instance : IsPreorder Dispatcher SameCaches where
  refl _ := rfl
  trans _ _ _ hab hbc := Eq.trans hbc hab

/-- The caches are what a reload gives. -/
def Fresh (s : Dispatcher) : Prop := s.caches = catalogOf s.replica

/-- Everything before the reload of a schema change leaves the caches alone. -/
theorem sameCaches_schemaFrame : SchemaFrame env SameCaches where
  rows _ _ := Moves.sql fun _ _ _ => rfl
  schema _ _ := Moves.sql fun _ _ _ => rfl
  logsRow _ _ _ _ := bind (Moves.logStatement fun _ _ _ => rfl) (fun _ => modify (fun _ => rfl))
  logsTable _ _ := Moves.logStatement fun _ _ _ => rfl
  tableMetadata _ := Moves.onTableMetadata fun _ _ _ => rfl
  columnMetadata _ := Moves.onColumnMetadata fun _ _ _ => rfl
  counted _ _ := rfl

/-- A computation that refreshes the caches when it succeeds and leaves them alone when it fails. -/
abbrev Refreshes {α : Type} (x : Apply α) : Prop := Exits SameCaches (fun _ s' => Fresh s') x

theorem Refreshes.after {α β : Type} {x : Apply α} {f : α → Apply β} (hx : Moves SameCaches x)
    (hf : ∀ a, Refreshes (f a)) : Refreshes (x >>= f) :=
  Exits.bind_moves hx hf (fun _ _ _ _ h => h)

/-- Neither the caches nor the replica change. -/
def SameReplica (s s' : Dispatcher) : Prop := s'.caches = s.caches ∧ s'.replica = s.replica

/-- A reload followed by bookkeeping refreshes. -/
theorem refreshes_reload {β : Type} {rest : Apply β} (h : Returns SameReplica rest) :
    Refreshes (reloadTableSpecs >>= fun _ => rest) := by
  have hreload : Returns (fun _ s' => Fresh s') reloadTableSpecs := modify fun _ => rfl
  refine exits (bind hreload (fun _ => h) ?_)
  intro s t u hfresh hsame
  rw [Fresh, hsame.1, hsame.2]
  exact hfresh

theorem countEntries_returns (n : ℤ) : Returns SameReplica (countEntries n) := modify fun _ => ⟨rfl, rfl⟩

theorem markSchemaChanged_returns : Returns SameReplica markSchemaChanged := modify fun _ => ⟨rfl, rfl⟩

theorem sameReplica_trans (s t u : Dispatcher) (hst : SameReplica s t) (htu : SameReplica t u) : SameReplica s u :=
  ⟨htu.1.trans hst.1, htu.2.trans hst.2⟩

/-- The bookkeeping after a visible schema change. -/
theorem counted_returns : Returns SameReplica (do
    countEntries 1
    markSchemaChanged) :=
  bind (countEntries_returns 1) (fun _ => markSchemaChanged_returns) sameReplica_trans

open Refreshes

theorem finishSchemaChange_refreshes : Refreshes finishSchemaChange :=
  after (modify fun _ => rfl) (fun _ => refreshes_reload markSchemaChanged_returns)

/-- The bookkeeping after a schema change that may still be hidden. -/
theorem hidden_refreshes (hidden : Prop) [Decidable hidden] : Refreshes (do
    reloadTableSpecs
    if hidden then
      return
    countEntries 1
    markSchemaChanged) :=
  refreshes_reload (ite (pure _ (fun _ => ⟨rfl, rfl⟩)) counted_returns)

/-- Schema changes, after which the caches are reloaded. -/
def reshapes : Change → Bool
  | .createTable _ _ _ => true
  | .renameTable _ _ => true
  | .addColumn _ _ _ _ _ => true
  | .updateColumn _ _ _ _ _ => true
  | .dropColumn _ _ => true
  | .dropTable _ => true
  | .createIndex _ => true
  | .backfillCompleted _ _ _ => true
  | _ => false

/-- A schema change refreshes the caches, or fails before it touches them. -/
theorem route_refreshes {change : Change} (h : reshapes change = true) : Refreshes (route env change) := by
  have frame := sameCaches_schemaFrame env
  cases change with
  | createTable =>
    refine after (frame.storeUpstreamMetadata _ _ _) (fun _ => ?_)
    refine after (mapped_moves _) (fun _ => after (frame.createTable _ _) (fun _ => ?_))
    exact after (forM (fun _ => frame.columnMetadata _) _) (fun _ => hidden_refreshes _)
  | renameTable =>
    exact after (frame.renameTable _ _ _ _) (fun _ => finishSchemaChange_refreshes)
  | addColumn =>
    refine after (frame.storeUpstreamMetadata _ _ _) (fun _ => ?_)
    exact after (frame.addColumn _ _ _ _ _ _ _) (fun _ => hidden_refreshes _)
  | updateColumn =>
    exact after (frame.updateColumn _ _ _ _ _ _ _) (fun _ => finishSchemaChange_refreshes)
  | dropColumn =>
    exact after (frame.dropColumn _ _ _ _) (fun _ => finishSchemaChange_refreshes)
  | dropTable => exact after (frame.dropTable _ _) (fun _ => finishSchemaChange_refreshes)
  | createIndex =>
    refine after (tableIsFullyBackfilling_moves _) (fun hidden => ?_)
    exact after (frame.createIndex _ _) (fun _ => hidden_refreshes _)
  | backfillCompleted relation columns status =>
    refine after (forM (fun _ => frame.columnMetadata _) _) (fun _ => ?_)
    refine after (frame.bumpVersions _ _ _) (fun _ => refreshes_reload ?_)
    cases status <;> exact modify fun _ => ⟨rfl, rfl⟩
  | _ => cases h

/-- The other changes keep the catalog, but for a dropped index. -/
theorem route_keepsCatalog {change : Change} (h : reshapes change = false) (hindex : ∀ id, change ≠ .dropIndex id) :
    Moves KeepsCatalog (route env change) := by
  have frame := keepsCatalog_rowFrame env
  cases change with
  | begin | commit | rollback => exact throw _
  | insert relation new => exact frame.applyInsert relation new
  | update relation key new => exact frame.applyUpdate relation key new
  | delete relation key => exact frame.applyDelete relation key
  | truncate relations => exact frame.applyTruncate relations
  | backfill relation columns watermark rowValues => exact frame.processBackfill relation columns watermark rowValues
  | updateTableMetadata table new => exact frame.storeUpstreamMetadata table.schema table.name (some new)
  | dropIndex id => exact absurd rfl (hindex id)
  | _ => cases h

/-! ## Runs of calls -/

/-- What happened in the open transaction: a schema change took effect, or the catalog changed behind
the caches since the last one did. -/
structure Progress where
  reloaded : Bool
  strayed : Bool
  deriving DecidableEq, Repr

/-- A transaction in which nothing happened yet. -/
def Progress.start : Progress := ⟨false, false⟩

/-- Whether a change can be applied. -/
def succeeds (s : Dispatcher) (change : Change) : Bool :=
  match apply env change s with
  | .ok _ _ => true
  | .error _ _ => false

/-- The progress after a change: a schema change that fails and a dropped index that was the row
identity of a table leave the caches behind. -/
def Progress.after (s : Dispatcher) (progress : Progress) (change : Change) : Progress :=
  match change with
  | .dropIndex id =>
    { progress with strayed := progress.strayed ||
        !keepsIdentities s.replica.database (liteTableName id.schema id.name) }
  | change =>
    if !reshapes change then progress
    else if succeeds env s change then ⟨true, false⟩
    else { progress with strayed := true }

/-- The progress after a call. -/
def Progress.next (s : Dispatcher) (progress : Progress) : Call → Progress
  | .begin _ => if s.inTransaction then progress else .start
  | .apply change => if s.inTransaction then progress.after env s change else progress
  | .commit _ => progress
  | .rollback => progress

/-- A transaction is not committed behind the caches, and not rolled back after a schema change. -/
def Progress.allows (s : Dispatcher) (progress : Progress) : Call → Bool
  | .commit _ => !s.inTransaction || !progress.strayed
  | .rollback => !s.inTransaction || !progress.reloaded
  | _ => true

/-- Every call of a run is allowed. -/
def careful : Dispatcher → Progress → List Call → Bool
  | _, _, [] => true
  | s, progress, call :: rest =>
    progress.allows s call && careful (step env s call) (progress.next env s call) rest

/-- The caches in a run: fresh outside a transaction, and inside one unless it strayed; until a schema
change takes effect they are those of the committed file. -/
structure Cached (progress : Progress) (s : Dispatcher) : Prop where
  named : s.replica.database.Named
  namedCommitted : s.committed.database.Named
  settled : s.inTransaction = false → s.replica = s.committed ∧ Fresh s
  pending : s.inTransaction = true → progress.strayed = false → Fresh s
  undone : s.inTransaction = true → progress.reloaded = false → s.caches = catalogOf s.committed

variable {env} {progress : Progress} {s : Dispatcher}

/-- What a change does to the caches, by its kind. -/
theorem apply_cases (hnamed : s.replica.database.Named) (hin : s.inTransaction = true) (change : Change) :
    (progress.after env s change = ⟨true, false⟩ ∧ Fresh (finalState (apply env change) s)) ∨
    ((finalState (apply env change) s).caches = s.caches ∧
      (progress.after env s change).reloaded = progress.reloaded ∧
      ((progress.after env s change).strayed = false → progress.strayed = false ∧
        catalogOf (finalState (apply env change) s).replica = catalogOf s.replica)) := by
  by_cases hreshapes : reshapes change = true
  · have hrefreshes := route_refreshes env hreshapes s
    have hindex : ∀ id, change ≠ .dropIndex id := by
      rintro id rfl
      cases hreshapes
    rw [← apply_inside env hin] at hrefreshes
    have hafter : progress.after env s change =
        if succeeds env s change then ⟨true, false⟩ else { progress with strayed := true } := by
      cases change <;> simp_all [Progress.after]
    cases hrun : apply env change s with
    | ok =>
      rw [hrun] at hrefreshes
      exact .inl ⟨by rw [hafter, succeeds, hrun]; rfl, by rw [finalState, hrun]; exact hrefreshes⟩
    | error =>
      rw [hrun] at hrefreshes
      have hstrayed : progress.after env s change = { progress with strayed := true } := by
        rw [hafter, succeeds, hrun]
        rfl
      refine .inr ⟨by rw [finalState, hrun]; exact hrefreshes, by rw [hstrayed], fun h => ?_⟩
      rw [hstrayed] at h
      cases h
  · rw [not_eq_true] at hreshapes
    by_cases hindex : ∃ id, change = .dropIndex id
    · obtain ⟨id, rfl⟩ := hindex
      have hfinal : finalState (apply env (.dropIndex id)) s =
          { s with replica := { s.replica with
              database := s.replica.database.dropIndex (liteTableName id.schema id.name) } } := by
        rw [finalState, apply_inside env hin]
        rfl
      rw [hfinal]
      refine .inr ⟨rfl, rfl, fun h => ?_⟩
      obtain ⟨hstrayed, hkeeps⟩ : progress.strayed = false ∧
          keepsIdentities s.replica.database (liteTableName id.schema id.name) = true := by
        simpa [Progress.after] using h
      exact ⟨hstrayed, catalogOf_dropIndex hkeeps⟩
    · have hother : ∀ id, change ≠ .dropIndex id := fun id heq => hindex ⟨id, heq⟩
      have hkeeps := route_keepsCatalog env hreshapes hother s
      have hfinal : finalState (apply env change) s = finalState (route env change) s := by
        rw [finalState, finalState, apply_inside env hin]
      have hafter : progress.after env s change = progress := by
        cases change <;> simp_all [Progress.after]
      rw [hfinal, hafter]
      exact .inr ⟨hkeeps.caches, rfl, fun h => ⟨h, hkeeps.catalog hnamed⟩⟩

/-- A change keeps what the caches are in a run. -/
theorem Cached.apply (h : Cached progress s) (hin : s.inTransaction = true) (change : Change) :
    Cached (progress.after env s change) (finalState (apply env change) s) := by
  have hwithin := apply_within env change s
  have hnamed := ((keepsNamed_changeFrame env).apply change s).named h.named
  have hin' : (finalState (Replica.apply env change) s).inTransaction = true := hwithin.inTransaction.trans hin
  have hout (hfalse : (finalState (Replica.apply env change) s).inTransaction = false) : False := by
    simp [hin'] at hfalse
  rcases @apply_cases env progress s h.named hin change with ⟨hafter, hfresh⟩ | ⟨hcaches, hreloaded, hstrayed⟩
  · refine ⟨hnamed, hwithin.committed ▸ h.namedCommitted, fun hfalse => (hout hfalse).elim, fun _ _ => hfresh, ?_⟩
    intro _ hreloaded
    rw [hafter] at hreloaded
    cases hreloaded
  · refine ⟨hnamed, hwithin.committed ▸ h.namedCommitted, fun hfalse => (hout hfalse).elim, fun _ hpending => ?_,
      fun _ hundone => ?_⟩
    · obtain ⟨hbefore, hcatalog⟩ := hstrayed hpending
      rw [Fresh, hcaches, hcatalog]
      exact h.pending hin hbefore
    · rw [hcaches, hwithin.committed]
      exact h.undone hin (hreloaded ▸ hundone)

/-- An allowed call keeps what the caches are in a run. -/
theorem Cached.step (h : Cached progress s) {call : Call} (hallows : progress.allows s call = true) :
    Cached (progress.next env s call) (step env s call) := by
  cases call with
  | begin version =>
    rcases begin_cases version s with ⟨hin, heq⟩ | ⟨hout, heq⟩
    · simpa only [Replica.step, heq, Progress.next, hin, if_true] using h
    · simp only [Replica.step, heq]
      obtain ⟨hsame, hfresh⟩ := h.settled hout
      refine ⟨h.named, h.namedCommitted, by simp, fun _ _ => hfresh, fun _ _ => ?_⟩
      rw [← hsame]
      exact hfresh
  | apply change =>
    cases hin : s.inTransaction with
    | true => simpa only [Replica.step, Progress.next, hin, if_true] using h.apply hin change
    | false => simpa only [Replica.step, Progress.next, hin, false_eq_true, if_false, apply_outside env change hin] using h
  | commit watermark =>
    rcases commit_cases watermark s with ⟨hout, heq⟩ | ⟨hin, heq⟩
    · simpa only [Replica.step, heq, Progress.next] using h
    · simp only [Replica.step, heq]
      have hstrayed : progress.strayed = false := by simpa [Progress.allows, hin] using hallows
      exact ⟨h.named, h.named, fun _ => ⟨rfl, h.pending hin hstrayed⟩, by simp, by simp⟩
  | rollback =>
    rcases rollback_cases s with ⟨hout, heq⟩ | ⟨hin, heq⟩
    · simp only [Replica.step, heq]
      exact ⟨h.named, h.namedCommitted, fun _ => h.settled hout, by simp [hout], by simp [hout]⟩
    · simp only [Replica.step, heq]
      have hreloaded : progress.reloaded = false := by simpa [Progress.allows, hin] using hallows
      exact ⟨h.namedCommitted, h.namedCommitted, fun _ => ⟨rfl, h.undone hin hreloaded⟩, by simp, by simp⟩

/-- Every state of a careful run is cached. -/
theorem Cached.run (h : Cached progress s) {calls : List Call} (hcareful : careful env s progress calls = true)
    {before after : List Call} (hcalls : calls = before ++ after) :
    ∃ progress, Cached progress (run env s before) := by
  induction before generalizing calls s progress with
  | nil => exact ⟨progress, h⟩
  | cons call rest ih =>
    subst hcalls
    rw [cons_append, careful, and_eq_true] at hcareful
    exact ih (h.step hcareful.1) hcareful.2 rfl

/-- At a boundary of transactions the caches are fresh, and the dispatcher goes on like a new one. -/
def Settled (env : Env) (s : Dispatcher) : Prop :=
  s.inTransaction = false → Fresh s ∧ ∀ version calls,
    run env s (.begin version :: calls) = run env (Dispatcher.new s.committed) (.begin version :: calls)

theorem Cached.settles (h : Cached progress s) : Settled env s := by
  intro hout
  obtain ⟨hsame, hfresh⟩ := h.settled hout
  refine ⟨hfresh, fun version calls => ?_⟩
  have hbegin : Replica.step env s (.begin version) = Replica.step env (new s.committed) (.begin version) := by
    obtain ⟨hspecs, hcolumns⟩ := Prod.mk.inj hfresh
    rcases begin_cases version s with ⟨hin, -⟩ | ⟨-, heq⟩
    · simp [hin] at hout
    · rw [Replica.step, heq, hspecs, hcolumns, hsame]
      rfl
  rw [Replica.run, Replica.run, foldl_cons, foldl_cons, hbegin]

/-- A replica with one table of a name. -/
structure NamedReplica where
  file : ReplicaFile
  named : file.database.Named

theorem NamedReplica.cached (replica : NamedReplica) : Cached .start (new replica.file) :=
  ⟨replica.named, replica.named, fun _ => ⟨rfl, rfl⟩, by simp [new], by simp [new]⟩

/-- At every boundary of transactions in a careful run the caches are those of a new dispatcher. -/
theorem settled_of_careful (replica : NamedReplica) {calls : List Call}
    (h : careful env (Dispatcher.new replica.file) .start calls = true) :
    ∀ before after, calls = before ++ after → Settled env (run env (Dispatcher.new replica.file) before) := by
  intro before after hcalls
  obtain ⟨progress, hcached⟩ := replica.cached.run h hcalls
  exact hcached.settles

/-! ## A table created and taken back -/

/-- A replica without tables. -/
def emptyReplica : NamedReplica := ⟨⟨⟨[], []⟩, [], [], [], "00"⟩, by simp [Database.Named]⟩

/-- A table is created and committed, then a change of its rows is rolled back. -/
def keptCalls : List Call :=
  [.begin "01", .apply issueTable, .commit "01", .begin "02",
    .apply (.insert ⟨"public", "issue", ["id"], none⟩ [("id", .string "i1")]), .rollback]

theorem settled_keptCalls : careful plainEnv (Dispatcher.new emptyReplica.file) .start keptCalls = true ∧
    ∀ before after, keptCalls = before ++ after →
      Settled plainEnv (run plainEnv (Dispatcher.new emptyReplica.file) before) :=
  ⟨by decide, settled_of_careful emptyReplica (by decide)⟩

/-- After a created table is rolled back the caches still hold it. -/
theorem not_settled_rollback :
    ¬ Settled plainEnv (run plainEnv (Dispatcher.new emptyReplica.file) [.begin "01", .apply issueTable, .rollback]) := by
  intro h
  have hfresh : caches _ = catalogOf _ := (h (by decide)).1
  exact absurd hfresh (by decide)

end ZeroCache.Replica
