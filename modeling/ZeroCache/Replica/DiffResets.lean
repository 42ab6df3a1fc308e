import ZeroCache.Replica.Watermark

/-!
# When a difference of snapshots is answered

A consumer that moves from one snapshot to another expects either the difference of the two or the
request to start over: the latter when a table was truncated, dropped or reshaped in between, or when
the permissions changed. `materialize_diff` of `snapshotter.rs` resolves the entries of the log in commit
order and stops at the first that fails. An entry logged before a truncation is therefore resolved
against a table that no longer holds its row, and the consumer gets neither answer.
-/

namespace ZeroCache.Replica

open Sqlite Lib List ChangeLogEntry Snapshot

/-- The entries logged between two snapshots, in commit order. -/
def span (prev curr : Snapshot) : List ChangeLogEntry := readSince curr.file.changeLog prev.version

/-- An entry of a whole table: truncated, dropped or reshaped. -/
def ChangeLogEntry.tableWide (entry : ChangeLogEntry) : Bool := entry.op == .reset || entry.op == .truncate

variable (env : Env)

/-! ## What an entry stands for -/

/-- The columns of a table that a lookup by keys names. -/
def lookupColumns (spec : SnapshotTableSpec) (keys : List SqlRow) : List String :=
  spec.columns ++ keys.flatMap (fun key => key.map Prod.fst)

/-- A lookup by keys can be run: the table is there, with every column it names. -/
def Readable (db : Database) (spec : SnapshotTableSpec) (keys : List SqlRow) : Prop :=
  [] ∉ keys ∧ ∃ t, db.table? spec.name = some t ∧
    ∀ column ∈ lookupColumns spec keys, ∃ c ∈ t.columns, c.name = column

/-- The rows of a table that have one of the keys. -/
def rowsWith (db : Database) (spec : SnapshotTableSpec) (keys : List SqlRow) : List SqlRow :=
  match db.table? spec.name with
  | some t => t.select env.engine spec.columns keys
  | none => []

/-- The row a set leaves in the current snapshot. -/
def rowAfter (curr : Snapshot) (spec : SnapshotTableSpec) (op : Op) (key : Fields JsonValue) : Option SqlRow :=
  if op = .set then (rowsWith env curr.file.database spec [boundKey env key]).head? else none

/-- The keys by which the rows that an entry replaces are looked up: the unique keys of the row it leaves,
or its own key when it leaves none. -/
def replacedKeys (spec : SnapshotTableSpec) (key : Fields JsonValue) (next : Option SqlRow) : List SqlRow :=
  match next with
  | some row => (validKeys spec row).map (fun unique => unique.map (fun column => (column, cell row column)))
  | none => [boundKey env key]

/-- The rows of the previous snapshot that an entry replaces. -/
def rowsBefore (prev : Snapshot) (spec : SnapshotTableSpec) (key : Fields JsonValue) (next : Option SqlRow) :
    List SqlRow :=
  let found := rowsWith env prev.file.database spec (replacedKeys env spec key next)
  if next.isSome then found else found.head?.toList

/-- The rows an entry of a synced table leaves and replaces. -/
def effect (prev curr : Snapshot) (spec : SnapshotTableSpec) (op : Op) (key : Fields JsonValue) :
    Option SqlRow × List SqlRow :=
  let next := rowAfter env curr spec op key
  (next, rowsBefore env prev spec key next)

/-- The change an entry is reported as: none for a table that is not synced, or when no row is involved. -/
def reported (prev curr : Snapshot) (syncable : Fields SnapshotTableSpec) (entry : ChangeLogEntry) :
    Option SnapshotChange :=
  match syncable.get? entry.table, entry.rowKey with
  | some spec, .json key =>
    let (next, previous) := effect env prev curr spec entry.op key
    if previous.isEmpty && next.isNone then none
    else some { table := entry.table, prevValues := previous, nextValue := next, rowKey := key }
  | _, _ => none

/-- A row entry that changed the permissions of the application. -/
def changesPermissions (prev curr : Snapshot) (syncable : Fields SnapshotTableSpec) (entry : ChangeLogEntry) :
    Bool :=
  match syncable.get? entry.table, entry.rowKey with
  | some spec, .json key =>
    let (next, previous) := effect env prev curr spec entry.op key
    entry.table == prev.appId ++ ".permissions" && permissionsChanged previous next
  | _, _ => false

/-- An entry after which consumers start over. -/
def resets (prev curr : Snapshot) (syncable : Fields SnapshotTableSpec) (entry : ChangeLogEntry) : Bool :=
  entry.tableWide || changesPermissions env prev curr syncable entry

/-- A row entry can be resolved: its table is known, and for a synced one it is newer than the shape of the
table, both snapshots can be read by its keys, and a set has its row in the current one. -/
def Resolvable (prev curr : Snapshot) (syncable : Fields SnapshotTableSpec) (allNames : List String)
    (entry : ChangeLogEntry) : Prop :=
  match syncable.get? entry.table with
  | none => entry.table ∈ allNames
  | some spec => (∀ minimum ∈ spec.minRowVersion, minimum < entry.stateVersion) ∧
    ∃ key, entry.rowKey = .json key ∧
      (entry.op = .set → Readable curr.file.database spec [boundKey env key] ∧
        rowsWith env curr.file.database spec [boundKey env key] ≠ []) ∧
      (replacedKeys env spec key (rowAfter env curr spec entry.op key) ≠ [] →
        Readable prev.file.database spec (replacedKeys env spec key (rowAfter env curr spec entry.op key)))

/-- Every row entry up to the first one after which consumers start over can be resolved. -/
def Orderly (prev curr : Snapshot) (syncable : Fields SnapshotTableSpec) (allNames : List String) :
    List ChangeLogEntry → Prop
  | [] => True
  | entry :: rest => entry.tableWide = true ∨
    (Resolvable env prev curr syncable allNames entry ∧
      (changesPermissions env prev curr syncable entry = true ∨ Orderly prev curr syncable allNames rest))

/-- The request to start over, among the errors. -/
def SnapshotError.isReset : SnapshotError → Bool
  | .reset _ _ => true
  | _ => false

/-- What a consumer expects of a span: to start over exactly when an entry of it demands that, and the
change of every entry otherwise. -/
def Answered (prev curr : Snapshot) (syncable : Fields SnapshotTableSpec) (allNames : List String) : Prop :=
  match materializeDiff env prev curr syncable allNames with
  | .ok diff => (∀ entry ∈ span prev curr, resets env prev curr syncable entry = false) ∧
      diff = { prevVersion := prev.version, currVersion := curr.version, changes := (span prev curr).length,
               rows := (span prev curr).filterMap (reported env prev curr syncable) }
  | .error e => e.isReset = true ∧ ∃ entry ∈ span prev curr, resets env prev curr syncable entry = true

/-! ## One entry -/

variable {env} {prev curr : Snapshot} {syncable : Fields SnapshotTableSpec} {allNames : List String}

section

variable {db : Database} {spec : SnapshotTableSpec} {keys : List SqlRow}

/-- A readable lookup finds the rows with its keys. -/
theorem selectByKeys_of_readable
    (h : Readable db spec keys) : selectByKeys env db spec keys = .ok (rowsWith env db spec keys) := by
  obtain ⟨hkeys, t, ht, hcolumns⟩ := h
  have hempty : keys.any isEmpty = false := by
    simpa [any_eq_false] using fun key hkey (heq : key = []) => hkeys (heq ▸ hkey)
  have hcheck := Table.checkColumns_eq_ok_iff.mpr hcolumns
  unfold lookupColumns at hcheck
  simp only [selectByKeys, Database.getTable, rowsWith, ht, hempty, Bool.false_eq_true, if_false, hcheck]

/-- A lookup that is not readable fails in the engine. -/
theorem selectByKeys_of_not_readable
    (h : ¬ Readable db spec keys) : ∃ e, selectByKeys env db spec keys = .error (.db e) := by
  unfold selectByKeys Database.getTable
  cases ht : db.table? spec.name with
  | none => exact ⟨_, rfl⟩
  | some t =>
    dsimp only
    split
    · exact ⟨_, rfl⟩
    · next hempty =>
      cases hcheck : t.checkColumns (spec.columns ++ keys.flatMap (fun key => key.map Prod.fst)) with
      | error e => exact ⟨e, rfl⟩
      | ok =>
        refine absurd ⟨?_, t, ht, Table.checkColumns_eq_ok_iff.mp hcheck⟩ h
        simpa using hempty

end

/-- An outcome that is an error other than the request to start over. -/
def Fails {α : Type} (x : Except SnapshotError α) : Prop := ∃ e, x = .error e ∧ e.isReset = false

theorem Fails.bind {α β : Type} {x : Except SnapshotError α} (h : Fails x) (f : α → Except SnapshotError β) :
    Fails (x >>= f) := by
  obtain ⟨e, rfl, he⟩ := h
  exact ⟨e, rfl, he⟩

theorem Fails.map {α β : Type} {x : Except SnapshotError α} (h : Fails x) (f : α → β) : Fails (x.map f) := by
  obtain ⟨e, rfl, he⟩ := h
  exact ⟨e, rfl, he⟩

theorem fails_selectByKeys {db : Database} {spec : SnapshotTableSpec} {keys : List SqlRow}
    (h : ¬ Readable db spec keys) : Fails (selectByKeys env db spec keys) := by
  obtain ⟨e, he⟩ := @selectByKeys_of_not_readable env db spec keys h
  exact ⟨_, he, rfl⟩

theorem rowsWith_nil (db : Database) (spec : SnapshotTableSpec) : rowsWith env db spec [] = [] := by
  unfold rowsWith
  split
  · simp [Table.select]
  · rfl

/-- The row of a set is found exactly when the table can be read and holds it. -/
theorem nextValue_cases (spec : SnapshotTableSpec) (entry : ChangeLogEntry) (key : Fields JsonValue) :
    ((entry.op = .set → Readable curr.file.database spec [boundKey env key] ∧
        rowsWith env curr.file.database spec [boundKey env key] ≠ []) ∧
      nextValue env curr spec entry key = .ok (rowAfter env curr spec entry.op key)) ∨
    (¬ (entry.op = .set → Readable curr.file.database spec [boundKey env key] ∧
        rowsWith env curr.file.database spec [boundKey env key] ≠ []) ∧
      Fails (nextValue env curr spec entry key)) := by
  unfold nextValue rowAfter
  by_cases hset : entry.op = .set
  · simp only [hset, forall_const]
    by_cases hread : Readable curr.file.database spec [boundKey env key]
    · have hget : getRow env curr.file.database spec key =
          .ok (rowsWith env curr.file.database spec [boundKey env key]).head? := by
        rw [getRow, selectByKeys_of_readable hread]
        rfl
      rw [hget]
      cases hrows : rowsWith env curr.file.database spec [boundKey env key] with
      | nil => exact .inr ⟨fun h => h.2 rfl, _, rfl, rfl⟩
      | cons => exact .inl ⟨⟨hread, cons_ne_nil _ _⟩, rfl⟩
    · exact .inr ⟨fun h => hread h.1, ((fails_selectByKeys hread).map _).bind _⟩
  · simp [hset]

/-- The rows an entry replaces are found exactly when the table can be read by their keys. -/
theorem prevValues_cases (spec : SnapshotTableSpec) (key : Fields JsonValue) (next : Option SqlRow) :
    ((replacedKeys env spec key next ≠ [] → Readable prev.file.database spec (replacedKeys env spec key next)) ∧
      prevValues env prev spec key next = .ok (rowsBefore env prev spec key next)) ∨
    (¬ (replacedKeys env spec key next ≠ [] → Readable prev.file.database spec (replacedKeys env spec key next)) ∧
      Fails (prevValues env prev spec key next)) := by
  cases next with
  | none =>
    by_cases hread : Readable prev.file.database spec [boundKey env key]
    · refine .inl ⟨fun _ => hread, ?_⟩
      rw [prevValues, getRow, selectByKeys_of_readable hread]
      rfl
    · exact .inr ⟨fun h => hread (h (cons_ne_nil _ _)), ((fails_selectByKeys hread).map _).map _⟩
  | some row =>
    have hbefore : rowsBefore env prev spec key (some row) =
        rowsWith env prev.file.database spec (replacedKeys env spec key (some row)) := rfl
    by_cases hvalid : validKeys spec row = []
    · have hkeys : replacedKeys env spec key (some row) = [] := by simp [replacedKeys, hvalid]
      rw [hbefore, hkeys, rowsWith_nil]
      simp [prevValues, getUniqueConflicts, hvalid]
    · have hkeys : replacedKeys env spec key (some row) ≠ [] := by simpa [replacedKeys] using hvalid
      have hprev : prevValues env prev spec key (some row) =
          selectByKeys env prev.file.database spec (replacedKeys env spec key (some row)) := by
        simp [prevValues, getUniqueConflicts, hvalid, replacedKeys]
      by_cases hread : Readable prev.file.database spec (replacedKeys env spec key (some row))
      · exact .inl ⟨fun _ => hread, by rw [hprev, hbefore, selectByKeys_of_readable hread]⟩
      · exact .inr ⟨fun h => hread (h hkeys), hprev ▸ fails_selectByKeys hread⟩

section

variable {appId : String} {entry : ChangeLogEntry} {key : Fields JsonValue} {next : Option SqlRow}
  {previous : List SqlRow}

/-- What a row entry of a synced table is resolved to, once its rows are found. -/
theorem rowChange_eq (h : (entry.table == appId ++ ".permissions" && permissionsChanged previous next) = false) :
    rowChange appId entry key next previous = .ok (if previous.isEmpty && next.isNone then none else
      some { table := entry.table, prevValues := previous, nextValue := next, rowKey := key }) := by
  unfold rowChange
  split
  · rfl
  · rw [if_neg (by simpa using h)]

theorem rowChange_reset (h : (entry.table == appId ++ ".permissions" && permissionsChanged previous next) = true) :
    rowChange appId entry key next previous = .error (.reset .permissionsChange "permissions have changed") := by
  have hprevious : previous ≠ [] := by
    rintro rfl
    simp [permissionsChanged] at h
  unfold rowChange
  rw [if_neg (by simp [hprevious]), if_pos (by simpa using h)]

end

/-- A set or delete of a row of a synced table, with its key: resolved as it is reported, or failing. -/
theorem resolveRow_cases {spec : SnapshotTableSpec} {entry : ChangeLogEntry} {key : Fields JsonValue}
    (hspec : syncable.get? entry.table = some spec) (hkey : entry.rowKey = .json key)
    (hminimum : spec.minRowVersion.any (fun minimum => decide (entry.stateVersion ≤ minimum)) = false) :
    (Resolvable env prev curr syncable allNames entry ∧ resolveRow env prev curr spec entry =
      rowChange prev.appId entry key (effect env prev curr spec entry.op key).1
        (effect env prev curr spec entry.op key).2) ∨
    (¬ Resolvable env prev curr syncable allNames entry ∧ Fails (resolveRow env prev curr spec entry)) := by
  have hnewer : ∀ minimum ∈ spec.minRowVersion, minimum < entry.stateVersion := by
    intro minimum hmem
    rw [Option.mem_def] at hmem
    simpa [hmem] using hminimum
  have hresolve : resolveRow env prev curr spec entry = (do
      let next ← nextValue env curr spec entry key
      let previous ← prevValues env prev spec key next
      rowChange prev.appId entry key next previous) := by
    rw [resolveRow, hminimum, hkey]
    rfl
  have hresolvable : Resolvable env prev curr syncable allNames entry ↔
      (entry.op = .set → Readable curr.file.database spec [boundKey env key] ∧
        rowsWith env curr.file.database spec [boundKey env key] ≠ []) ∧
      (replacedKeys env spec key (rowAfter env curr spec entry.op key) ≠ [] →
        Readable prev.file.database spec (replacedKeys env spec key (rowAfter env curr spec entry.op key))) := by
    simp only [Resolvable, hspec, hkey, RowKeyText.json.injEq]
    constructor
    · rintro ⟨-, _, rfl, h⟩
      exact h
    · exact fun h => ⟨hnewer, key, rfl, h⟩
  rw [hresolvable, hresolve]
  rcases @nextValue_cases env curr spec entry key with ⟨hset, hnext⟩ | ⟨hset, hfails⟩
  · rw [hnext, ok_bind]
    rcases @prevValues_cases env prev spec key (rowAfter env curr spec entry.op key) with
      ⟨hread, hprev⟩ | ⟨hread, hfails⟩
    · exact .inl ⟨⟨hset, hread⟩, by rw [hprev, ok_bind]; rfl⟩
    · exact .inr ⟨fun h => hread h.2, hfails.bind _⟩
  · exact .inr ⟨fun h => hset h.1, hfails.bind _⟩

/-- A row entry that can be resolved is reported, unless it changed the permissions; any other fails. -/
theorem resolveChange_cases {entry : ChangeLogEntry} (hrow : entry.tableWide = false) :
    (Resolvable env prev curr syncable allNames entry ∧ changesPermissions env prev curr syncable entry = false ∧
      resolveChange env prev curr syncable allNames entry = .ok (reported env prev curr syncable entry)) ∨
    (Resolvable env prev curr syncable allNames entry ∧ changesPermissions env prev curr syncable entry = true ∧
      ∃ e, resolveChange env prev curr syncable allNames entry = .error e ∧ e.isReset = true) ∨
    (¬ Resolvable env prev curr syncable allNames entry ∧
      Fails (resolveChange env prev curr syncable allNames entry)) := by
  have hops : entry.op ≠ .reset ∧ entry.op ≠ .truncate := by simpa [tableWide] using hrow
  unfold resolveChange
  rw [if_neg hops.1, if_neg hops.2]
  cases hspec : syncable.get? entry.table with
  | none =>
    have hresolvable : Resolvable env prev curr syncable allNames entry ↔ entry.table ∈ allNames := by
      simp only [Resolvable, hspec]
    by_cases hknown : entry.table ∈ allNames
    · exact .inl ⟨hresolvable.mpr hknown, by simp [changesPermissions, hspec], by simp [hknown, reported, hspec]⟩
    · exact .inr (.inr ⟨fun h => hknown (hresolvable.mp h), .unknownTable entry.table, by simp [hknown], rfl⟩)
  | some spec =>
    cases hminimum : spec.minRowVersion.any (fun minimum => decide (entry.stateVersion ≤ minimum)) with
    | true =>
      have hold : ¬ Resolvable env prev curr syncable allNames entry := by
        intro h
        simp only [Resolvable, hspec] at h
        cases hmin : spec.minRowVersion with
        | none => simp [hmin] at hminimum
        | some minimum =>
          have hlt := h.1 minimum (by simp [hmin])
          simp only [hmin, Option.any_some, decide_eq_true_eq] at hminimum
          exact String.not_lt.mpr hminimum hlt
      refine .inr (.inr ⟨hold, ?_⟩)
      dsimp only
      rw [resolveRow, hminimum]
      exact ⟨_, rfl, rfl⟩
    | false =>
      cases hkey : entry.rowKey with
      | raw =>
        refine .inr (.inr ⟨by simp [Resolvable, hspec, hkey], ?_⟩)
        dsimp only
        rw [resolveRow, hminimum, hkey]
        exact ⟨_, rfl, rfl⟩
      | json key =>
        rcases @resolveRow_cases env prev curr syncable allNames spec entry key hspec hkey hminimum with
          ⟨hresolvable, hrow⟩ | ⟨hresolvable, hfails⟩
        · dsimp only
          rw [hrow]
          cases hpermissions : changesPermissions env prev curr syncable entry with
          | false =>
            refine .inl ⟨hresolvable, rfl, ?_⟩
            simp only [changesPermissions, hspec, hkey] at hpermissions
            rw [rowChange_eq hpermissions]
            simp only [reported, hspec, hkey]
          | true =>
            simp only [changesPermissions, hspec, hkey] at hpermissions
            exact .inr (.inl ⟨hresolvable, rfl, _, rowChange_reset hpermissions, rfl⟩)
        · exact .inr (.inr ⟨hresolvable, hfails⟩)

theorem resolveChange_tableWide {entry : ChangeLogEntry} (h : entry.tableWide = true) :
    ∃ e, resolveChange env prev curr syncable allNames entry = .error e ∧ e.isReset = true := by
  unfold resolveChange
  split
  · exact ⟨_, rfl, rfl⟩
  · next hreset =>
    have htruncate : entry.op = .truncate := by simpa [tableWide, hreset] using h
    rw [if_pos htruncate]
    exact ⟨_, rfl, rfl⟩

/-! ## The whole span -/

/-- Entries are resolved as they are reported, or consumers start over, exactly when they are orderly. -/
theorem resolveChanges_iff_orderly (entries : List ChangeLogEntry) :
    (match resolveChanges env prev curr syncable allNames entries with
      | .ok rows => (∀ entry ∈ entries, resets env prev curr syncable entry = false) ∧
          rows = entries.filterMap (reported env prev curr syncable)
      | .error e => e.isReset = true ∧ ∃ entry ∈ entries, resets env prev curr syncable entry = true) ↔
    Orderly env prev curr syncable allNames entries := by
  induction entries with
  | nil => simp [resolveChanges, Orderly]
  | cons entry rest ih =>
    rw [resolveChanges, Orderly]
    cases hwide : entry.tableWide with
    | true =>
      obtain ⟨e, hresolve, hreset⟩ := @resolveChange_tableWide env prev curr syncable allNames entry hwide
      rw [hresolve]
      simp [hreset, resets, hwide]
    | false =>
      rcases @resolveChange_cases env prev curr syncable allNames entry hwide with
        ⟨hresolvable, hpermissions, hresolve⟩ | ⟨hresolvable, hpermissions, e, hresolve, hreset⟩ |
        ⟨hresolvable, e, hresolve, hreset⟩
      · have hkeeps : resets env prev curr syncable entry = false := by simp [resets, hwide, hpermissions]
        rw [hresolve]
        simp only [hresolvable, hpermissions, ← ih]
        cases hrest : resolveChanges env prev curr syncable allNames rest with
        | error => simp [hkeeps]
        | ok =>
          have hcons : (entry :: rest).filterMap (reported env prev curr syncable) =
              (reported env prev curr syncable entry).toList ++ rest.filterMap (reported env prev curr syncable) := by
            cases hreported : reported env prev curr syncable entry <;> simp [hreported]
          rw [hcons]
          simp [hkeeps]
      · rw [hresolve]
        simp [hreset, resets, hpermissions, hresolvable]
      · rw [hresolve]
        simp [hreset, hresolvable]

/-- A synced replica with an empty table of issues. -/
def issuesFile : ReplicaFile :=
  { database :=
      { tables := [⟨"issue", [⟨"id", "text", false, none⟩, ⟨"_0_version", "text", false, none⟩], [], []⟩]
        indexes := [⟨"issue_pkey", "issue", true, [("id", .asc)]⟩] }
    changeLog := [], columnMetadata := [], tableMetadata := [], stateVersion := "00" }

/-- The issues, as the change stream names them. -/
def issueRelation : Relation := ⟨"public", "issue", ["id"], some .default⟩

/-- What consumers know of the issues. -/
def issueSpec : SnapshotTableSpec :=
  ⟨"issue", ["id", "_0_version"], [("id", .string), ("_0_version", .string)], ["id"], [["id"]], none⟩

/-- An issue is inserted, and the table truncated by a later transaction. -/
def truncatedCalls : List Call :=
  [.begin "01", .apply (.insert issueRelation [("id", .string "i1")]), .commit "01",
    .begin "02", .apply (.truncate [issueRelation]), .commit "02"]

end ZeroCache.Replica
