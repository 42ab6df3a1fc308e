import ZeroCache.ChangeSource.Mirror

/-!
# Runs of replicated transactions

The messages of a published table's history, applied one after another: after every commit the
replica mirrors the source, as long as each change finds its row. The change log is followed
by the printed key of a row, which tells apart what the stored keys tell apart.
-/

namespace ZeroCache.ChangeSource

open Replica Sqlite Lib List Assoc Bool Function Published SourceChange Dispatcher

variable {p : Published} {env : Env} {wire : Wire} {host : Host p}

/-! ## Printed keys -/

theorem liteValue_ne_blob (stringify : JsonValue → String) (val : JsonValue) (liteType : String) (bytes : List UInt8) :
    liteValue stringify val liteType ≠ .blob bytes := by
  unfold liteValue
  split
  · simp
  · split
    · simp
    · split <;> simp

/-- A converted value as it is printed in a key. -/
def printed : LiteValue → JsonValue
  | .null => .null
  | .text s => .string s
  | .number n => .number n
  | .big n => .bigint n
  | .blob _ => .null

theorem logKey_eq (row : SourceRow) :
    logKey env wire host row = p.key.map (fun c => (c.name, printed (liteCell env wire host c row))) := by
  rw [logKey, toJsonRowKey, liteCells, map_map]
  refine map_congr_left (fun c _ => ?_)
  simp only [comp_apply]
  cases liteCell env wire host c row <;> rfl

theorem printed_inj {a b : LiteValue} (ha : ∀ bytes, a ≠ .blob bytes) (hb : ∀ bytes, b ≠ .blob bytes)
    (h : printed a = printed b) : a = b := by
  cases a <;> cases b <;> simp_all [printed]

variable {a b old : SourceRow} {before : List SourceRow} {transactions : List SourceTransaction}

/-- Rows of one printed key are stored with the same key. -/
theorem storedCell_of_logKey (h : logKey env wire host a = logKey env wire host b) :
    ∀ c ∈ p.key, storedCell env wire host c a = storedCell env wire host c b := by
  intro c hc
  rw [logKey_eq, logKey_eq, map_inj_left] at h
  have hprinted := (Prod.mk.inj (h c hc)).2
  have hcell : liteCell env wire host c a = liteCell env wire host c b :=
    printed_inj (liteValue_ne_blob _ _ _) (liteValue_ne_blob _ _ _) hprinted
  rw [storedCell, storedCell, hcell]

theorem logKey_of_sameKey (h : p.sameKey a b = true) : logKey env wire host a = logKey env wire host b := by
  rw [logKey_eq, logKey_eq]
  refine map_congr_left (fun c hc => ?_)
  have hvalue : a c.name = b c.name := by simpa using all_eq_true.mp h c hc
  rw [liteCell, liteCell, hvalue]

/-- The key as it is written to the log. -/
def orderedKey (env : Env) (wire : Wire) (host : Host p) (row : SourceRow) : Fields JsonValue :=
  (logKey env wire host row).insertionSort (fun a b => a.1 ≤ b.1)

theorem normalizedKeyOrder_logKey (row : SourceRow) :
    normalizedKeyOrder (logKey env wire host row) = .ok (orderedKey env wire host row) := by
  have hempty : (logKey env wire host row).isEmpty = false := by
    rw [logKey_eq]
    simpa using p.key_ne_nil
  rw [normalizedKeyOrder, hempty]
  rfl

/-- Keys that are written alike are printed alike. -/
theorem logKey_of_orderedKey (h : orderedKey env wire host a = orderedKey env wire host b) :
    logKey env wire host a = logKey env wire host b := by
  have hperm : (logKey env wire host a).Perm (logKey env wire host b) :=
    (perm_insertionSort _ _).symm.trans ((List.Perm.of_eq h).trans (perm_insertionSort _ _))
  rw [logKey_eq, logKey_eq] at hperm ⊢
  refine map_congr_left (fun c hc => ?_)
  obtain ⟨d, hd, heq⟩ := mem_map.mp (hperm.mem_iff.mp (mem_map.mpr ⟨c, hc, rfl⟩))
  obtain ⟨hname, hvalue⟩ := Prod.mk.inj heq
  obtain rfl := inj_on_of_nodup_map p.nodup (mem_of_mem_key hd) (mem_of_mem_key hc) hname
  rw [hvalue]

/-! ## The change log -/

/-- The log in a transaction: positions of the version are used up, and touched rows are logged. -/
structure Logs (env : Env) (wire : Wire) (host : Host p) (log : List ChangeLogEntry) (version : String) (pos : ℤ)
    (rows touched : List SourceRow) : Prop where
  positions : ∀ entry ∈ log, entry.stateVersion = version → entry.pos < pos
  logged : ∀ row ∈ touched, Logged env wire host log rows row

theorem Logged.congr {log : List ChangeLogEntry} {rows : List SourceRow}
    (h : Logged env wire host log rows a) (hkey : logKey env wire host a = logKey env wire host b) :
    Logged env wire host log rows b := by
  rw [Logged, ← hkey]
  exact h

/-- Logging a row operation that says whether the row is there, in a step that changes no other key. -/
theorem Logs.log {s : Dispatcher} {rows rows' touched : List SourceRow}
    (h : Logs env wire host s.replica.changeLog s.version s.pos rows touched) {row : SourceRow} {op : Op}
    (hop : op = if rows'.any (fun r => logKey env wire host r = logKey env wire host row) then .set else .del)
    (hothers : ∀ other, logKey env wire host other ≠ logKey env wire host row →
      rows'.any (fun r => logKey env wire host r = logKey env wire host other) =
        rows.any (fun r => logKey env wire host r = logKey env wire host other)) :
    Logs env wire host (s.logging p.table (orderedKey env wire host row) op).replica.changeLog s.version (s.pos + 1)
      rows' (touched ++ [row]) := by
  have hof : (s.rowEntry p.table (orderedKey env wire host row) op).IsOf p.table (orderedKey env wire host row) :=
    ⟨rfl, rfl⟩
  have hlogged : Logged env wire host (replaceEntry s.replica.changeLog
      (s.rowEntry p.table (orderedKey env wire host row) op)) rows' row :=
    ⟨_, getLatestRowOp_replaceEntry (normalizedKeyOrder_logKey row) hof, hop⟩
  refine ⟨fun entry hentry hversion => ?_, fun other hother => ?_⟩
  · rcases mem_append.mp hentry with hold | hnew
    · exact (h.positions entry (mem_of_mem_filter hold) hversion).trans (by omega)
    · rw [mem_singleton.mp hnew]
      exact Int.lt_succ _
  · by_cases hkey : logKey env wire host other = logKey env wire host row
    · exact hlogged.congr hkey.symm
    · have hmem : other ∈ touched := by
        rcases mem_append.mp hother with hold | hnew
        · exact hold
        · exact absurd (by rw [mem_singleton.mp hnew]) hkey
      obtain ⟨entry, hlatest, hentry⟩ := h.logged other hmem
      refine ⟨entry, ?_, by rw [hothers other hkey]; exact hentry⟩
      refine (getLatestRowOp_replaceEntry_ne (normalizedKeyOrder_logKey other) ?_ ?_).trans hlatest
      · rintro ⟨-, heq⟩
        exact hkey (logKey_of_orderedKey (RowKeyText.json.inj heq).symm)
      · intro e he
        rw [eq_false_iff]
        intro hslot
        simp only [ChangeLogEntry.sameSlot, and_eq_true, beq_iff_eq] at hslot
        have hlt := h.positions e he hslot.1.symm
        have hpos : s.pos = e.pos := hslot.2
        omega

theorem Logs.mono {log : List ChangeLogEntry} {version : String} {pos : ℤ} {rows touched touched' : List SourceRow}
    (h : Logs env wire host log version pos rows touched)
    (hsub : ∀ row ∈ touched', ∃ r ∈ touched, logKey env wire host r = logKey env wire host row) :
    Logs env wire host log version pos rows touched' := by
  refine ⟨h.positions, fun row hrow => ?_⟩
  obtain ⟨r, hr, hkey⟩ := hsub row hrow
  exact (h.logged r hr).congr hkey

/-- No other row of the source has the printed key of a row that is stored without NULL in its key. -/
theorem Distinct.logKey_ne {after : List SourceRow}
    (h : Distinct env wire host (before ++ old :: after)) (hkey : ∀ c ∈ p.key, storedCell env wire host c old ≠ .null) :
    (before ++ after).any (fun r => logKey env wire host r = logKey env wire host old) = false := by
  rw [any_eq_false]
  intro r hr
  simp only [decide_eq_true_eq]
  intro hsame
  have hstored := storedCell_of_logKey hsame
  have hagree : sameStoredKey env wire host r old = true := by
    rw [sameStoredKey_eq, all_eq_true]
    intro c hc
    rw [hstored c hc]
    exact sqlEq_self (hkey c hc)
  rw [h.others r hr] at hagree
  cases hagree

/-! ## One change -/

/-- The dispatcher follows the source. -/
structure Tracks (env : Env) (wire : Wire) (host : Host p) (s : Dispatcher) (rows touched : List SourceRow) : Prop where
  serves : s.Serves p.table host.spec
  holds : Holds env wire host s.replica.database rows
  logs : Logs env wire host s.replica.changeLog s.version s.pos rows touched

variable {s : Dispatcher} {rows rows' touched : List SourceRow}

theorem Tracks.insert (h : Tracks env wire host s rows touched) {new : SourceRow}
    (hdistinct : Distinct env wire host (rows ++ [new])) :
    ∃ s', applyInsert env p.relation (wireRow wire p.columns new) s = .ok () s' ∧
      Tracks env wire host s' (rows ++ [new]) (touched ++ [new]) := by
  obtain ⟨db, hinsert, hholds⟩ := h.holds.insert hdistinct s.version
  refine ⟨_, @applyInsert_run env s p.relation host.spec _ rfl h.serves.spec _ _ _ _ _ (liteRow_wireRow (fun _ hc => hc) new)
    (by simpa [relation] using p.key_ne_nil) hinsert (getKey_versioned new _ _)
    (h.serves.logRow_run (normalizedKeyOrder_logKey new) _ _ _),
    ⟨h.serves.spec, h.serves.idle⟩, hholds, ?_⟩
  exact @Logs.log p env wire host (s.writing db) rows (rows ++ [new]) touched h.logs new .set (by simp)
    (fun other hother => by simp [Ne.symm hother])

theorem Tracks.delete {after : List SourceRow} (h : Tracks env wire host s (before ++ old :: after) touched)
    (hdistinct : Distinct env wire host (before ++ old :: after))
    (hkey : ∀ c ∈ p.key, storedCell env wire host c old ≠ .null) :
    ∃ s', applyDelete env p.relation (wireRow wire p.key old) s = .ok () s' ∧
      Tracks env wire host s' (before ++ after) (touched ++ [old]) := by
  obtain ⟨db, hdelete, hholds⟩ := h.holds.delete hdistinct hkey
  refine ⟨_, @applyDelete_run env s p.relation host.spec _ rfl h.serves.spec _ _ _ _ _
    (liteRow_wireRow (fun _ => mem_of_mem_key) old) (getKey_filter (fun _ _ hc => hc) old _) hdelete
    (logRow_run (normalizedKeyOrder_logKey old) _ _), ⟨h.serves.spec, h.serves.idle⟩, hholds, ?_⟩
  exact @Logs.log p env wire host (s.writing db) (before ++ old :: after) (before ++ after) touched h.logs old .del
    (by rw [hdistinct.logKey_ne hkey]; rfl) (fun other hother => by simp [Ne.symm hother])

theorem liteCells_of_sameKey (h : p.sameKey a b = true) :
    liteCells env wire host p.key a = liteCells env wire host p.key b := by
  refine map_congr_left (fun c hc => ?_)
  have hvalue : a c.name = b c.name := by simpa using all_eq_true.mp h c hc
  rw [liteCell, liteCell, hvalue]

theorem Tracks.update {after : List SourceRow} {new : SourceRow} {unchanged : List String}
    (h : Tracks env wire host s (before ++ old :: after) touched)
    (hdistinct : Distinct env wire host (before ++ old :: after))
    (hdistinct' : Distinct env wire host (before ++ new :: after))
    (hplain : ∀ c ∈ p.key, storedCell env wire host c old ≠ .null ∧ c.name ∉ unchanged)
    (hkept : ∀ column ∈ unchanged, new column = old column) :
    ∃ s', route env (changeOf wire p (.update old new unchanged)) s = .ok () s' ∧
      Tracks env wire host s' (before ++ new :: after) (touched ++ [old, new]) := by
  obtain ⟨db, hupdate, hholds⟩ := h.holds.update hdistinct hdistinct' (fun c hc => (hplain c hc).1) hkept s.version
  have hrow : liteRow env.stringify (wireRow wire (p.sent unchanged) new) host.spec =
      .ok (liteCells env wire host (p.sent unchanged) new) := liteRow_wireRow (fun _ => mem_of_mem_sent) new
  have hnewKey : getKey (liteCells env wire host (p.sent unchanged) new) .default (p.key.map RelationColumn.name) p.table
      host.spec.primaryKey = .ok (liteCells env wire host p.key new) :=
    getKey_filter (fun c hc hkey => by simpa using (hplain c (mem_filter.mpr ⟨hc, hkey⟩)).2) new _
  by_cases hmoved : p.identity = .full ∨ p.sameKey old new = false
  · have hrun := @applyUpdate_run_moved env s p.relation host.spec _ rfl h.serves.spec _ _ _ _ _ _ _ _ _ hrow
      (liteRow_wireRow (fun _ => mem_of_mem_key) old) (getKey_filter (fun _ _ hc => hc) old _) hnewKey
      (logRow_run (normalizedKeyOrder_logKey old) _ _)
      (h.serves.logRow_run (normalizedKeyOrder_logKey new) _ _ _) hupdate
    rw [changeOf, if_pos hmoved]
    refine ⟨_, hrun, ⟨h.serves.spec, h.serves.idle⟩, hholds, ?_⟩
    have hdeleted := @Logs.log p env wire host s (before ++ old :: after) (before ++ after) touched h.logs old .del
      (by rw [hdistinct.logKey_ne (fun c hc => (hplain c hc).1)]; rfl) (fun other hother => by simp [Ne.symm hother])
    have hset := @Logs.log p env wire host (s.logging p.table (orderedKey env wire host old) .del) (before ++ after)
      (before ++ new :: after) (touched ++ [old]) hdeleted new .set (by simp) (fun other hother => by simp [Ne.symm hother])
    rw [append_assoc] at hset
    exact hset
  · obtain ⟨hfull, hsame⟩ : p.identity ≠ .full ∧ p.sameKey old new = true := by simpa using hmoved
    rw [liteCells_of_sameKey hsame] at hupdate
    have hrun := @applyUpdate_run_same env s p.relation host.spec _ rfl h.serves.spec _ _ _ _ _ hrow hnewKey
      (h.serves.logRow_run (normalizedKeyOrder_logKey new) _ _ _) hupdate
    rw [changeOf, if_neg hmoved]
    refine ⟨_, hrun, ⟨h.serves.spec, h.serves.idle⟩, hholds, ?_⟩
    have hkey : logKey env wire host old = logKey env wire host new := logKey_of_sameKey hsame
    have hset := @Logs.log p env wire host s (before ++ old :: after) (before ++ new :: after) touched h.logs new .set
      (by simp) (fun other hother => by simp [hkey, Ne.symm hother])
    refine hset.mono (fun row hmem => ?_)
    rcases mem_append.mp hmem with hold | hnew
    · exact ⟨row, mem_append_left _ hold, rfl⟩
    · refine ⟨new, mem_append_right _ mem_cons_self, ?_⟩
      rcases mem_cons.mp hnew with rfl | hnew
      · exact hkey.symm
      · rw [mem_singleton.mp hnew]

/-- A change of the source that finds its row is applied, and the dispatcher follows the source. -/
theorem Tracks.apply (h : Tracks env wire host s rows touched) (hin : s.inTransaction = true) {change : SourceChange}
    (hstep : SourceStep rows change rows') (hdistinct : Distinct env wire host rows)
    (hdistinct' : Distinct env wire host rows') (hplain : Plain env wire host change) :
    ∃ s', apply env (changeOf wire p change) s = .ok () s' ∧
      Tracks env wire host s' rows' (touched ++ change.rows) := by
  rw [apply_inside env hin]
  cases hstep with
  | insert => exact h.insert hdistinct'
  | update before after old new unchanged hkept => exact h.update hdistinct hdistinct' hplain hkept
  | delete => exact h.delete hdistinct hplain

/-! ## Runs -/

/-- Changes of the source one after another, each of which finds its row. -/
inductive Changes (env : Env) (wire : Wire) (host : Host p) :
    List SourceRow → List SourceChange → List SourceRow → Prop
  | nil (rows : List SourceRow) : Changes env wire host rows [] rows
  | cons {rows rows' rows'' : List SourceRow} {change : SourceChange} {rest : List SourceChange}
      (step : SourceStep rows change rows') (plain : Plain env wire host change)
      (distinct : Distinct env wire host rows') (run : Changes env wire host rows' rest rows'') :
      Changes env wire host rows (change :: rest) rows''

/-- Transactions of the source one after another. -/
inductive History (env : Env) (wire : Wire) (host : Host p) :
    List SourceRow → List SourceTransaction → List SourceRow → Prop
  | nil (rows : List SourceRow) : History env wire host rows [] rows
  | cons {rows rows' rows'' : List SourceRow} {transaction : SourceTransaction} {rest : List SourceTransaction}
      (changes : Changes env wire host rows transaction.changes rows')
      (run : History env wire host rows' rest rows'') : History env wire host rows (transaction :: rest) rows''

/-- A message that is translated to a change is applied by it. -/
theorem applyMessage_of_translate {tracker relations : RelationTracker} {message : PgoutputMessage} {change : Change}
    (hbegin : ∀ lsn, message ≠ .begin lsn) (hcommit : ∀ lsn, message ≠ .commit lsn)
    (h : translate wire tracker message = .ok (relations, some change)) :
    applyMessage wire env message ⟨tracker, s⟩ = onDispatcher (apply env change) ⟨relations, s⟩ := by
  cases message with
  | begin lsn => exact absurd rfl (hbegin lsn)
  | commit lsn => exact absurd rfl (hcommit lsn)
  | _ =>
    unfold applyMessage
    dsimp only
    rw [h]

section

variable {tracker : RelationTracker} (hknown : Assoc.get? tracker p.relationId = some p.cached)

include hknown

theorem applyMessage_messageOf
    {change : SourceChange} {s' : Dispatcher} (h : apply env (changeOf wire p change) s = .ok () s') :
    applyMessage wire env (p.messageOf change) ⟨tracker, s⟩ = .ok () ⟨tracker, s'⟩ := by
  rw [applyMessage_of_translate ?_ ?_ (translate_messageOf hknown change)]
  · simp only [onDispatcher, h]
  all_goals
    cases change <;> grind [messageOf]

/-- The changes of a transaction are applied one after another. -/
theorem Tracks.changes {changes : List SourceChange} (hchanges : Changes env wire host rows changes rows')
    (h : Tracks env wire host s rows touched) (hin : s.inTransaction = true) (hdistinct : Distinct env wire host rows) :
    ∃ s', applyMessages wire env (changes.map p.messageOf) ⟨tracker, s⟩ = .ok () ⟨tracker, s'⟩ ∧
      Tracks env wire host s' rows' (touched ++ changes.flatMap SourceChange.rows) ∧ Within s s' ∧
      Distinct env wire host rows' := by
  induction hchanges generalizing s touched with
  | nil => exact ⟨s, rfl, by simpa using h, refl_of Within s, hdistinct⟩
  | @cons rows next last change rest hstep hplain hdistinct' hrest ih =>
    obtain ⟨t, happly, htracks⟩ := h.apply hin hstep hdistinct hdistinct' hplain
    have hwithin : Within s t := by
      have hmove := apply_within env (changeOf wire p change) s
      rwa [finalState, happly] at hmove
    obtain ⟨s', hrun, htracks', hwithin', hlast⟩ := ih htracks (hwithin.inTransaction.trans hin) hdistinct'
    refine ⟨s', ?_, by simpa using htracks', trans_of Within hwithin hwithin', hlast⟩
    exact (bind_run (applyMessage_messageOf hknown happly) _).trans hrun

end

/-- The applier between transactions. -/
structure Boundary (env : Env) (wire : Wire) (host : Host p) (transactions : List SourceTransaction)
    (applier : Applier) (rows touched : List SourceRow) : Prop where
  outside : applier.dispatcher.inTransaction = false
  committed : applier.dispatcher.replica = applier.dispatcher.committed
  serves : applier.dispatcher.Serves p.table host.spec
  holds : Holds env wire host applier.dispatcher.replica.database rows
  logged : ∀ row ∈ touched, Logged env wire host applier.dispatcher.replica.changeLog rows row
  distinct : Distinct env wire host rows
  fresh : ∀ entry ∈ applier.dispatcher.replica.changeLog, ∀ transaction ∈ transactions,
    entry.stateVersion ≠ wire.versionFromLsn transaction.lsn
  versions : (transactions.map (fun transaction => wire.versionFromLsn transaction.lsn)).Nodup
  announced : Assoc.get? applier.relations p.relationId = some p.cached ∨
    ∀ transaction ∈ transactions.head?, transaction.announced = true

/-- The relations known once a transaction of the table was announced, or was known before. -/
theorem applyMessages_announced {transaction : SourceTransaction} {tracker : RelationTracker}
    (h : get? tracker p.relationId = some p.cached ∨ transaction.announced = true) (s : Dispatcher) :
    ∃ tracker', get? tracker' p.relationId = some p.cached ∧
      applyMessages wire env (if transaction.announced then [p.announcement] else []) ⟨tracker, s⟩ =
        .ok () ⟨tracker', s⟩ := by
  cases hannounced : transaction.announced with
  | true => exact ⟨tracker.set p.relationId p.cached, by rw [get?_set, if_pos rfl], rfl⟩
  | false => exact ⟨tracker, by simpa [hannounced] using h, rfl⟩

/-- A transaction is applied and committed. -/
theorem Boundary.transaction {transaction : SourceTransaction} {rest : List SourceTransaction} {applier : Applier}
    (h : Boundary env wire host (transaction :: rest) applier rows touched)
    (hchanges : Changes env wire host rows transaction.changes rows') :
    ∃ applier', applyMessages wire env (p.messagesOf transaction) applier = .ok () applier' ∧
      Boundary env wire host rest applier' rows' (touched ++ transaction.changes.flatMap SourceChange.rows) := by
  obtain ⟨tracker, d⟩ := applier
  obtain ⟨hnew, hrest⟩ := nodup_cons.mp h.versions
  have hbegin : applyMessage wire env (.begin transaction.lsn) ⟨tracker, d⟩ =
      .ok () ⟨tracker, d.begun (wire.versionFromLsn transaction.lsn)⟩ :=
    onDispatcher_run (s := ⟨tracker, d⟩) (begin_run h.outside _)
  have hannounced : get? tracker p.relationId = some p.cached ∨ transaction.announced = true :=
    h.announced.imp_right (fun hhead => hhead transaction rfl)
  obtain ⟨tracker', hknown, hannouncement⟩ := @applyMessages_announced p env wire transaction tracker hannounced
    (d.begun (wire.versionFromLsn transaction.lsn))
  have htracks : Tracks env wire host (d.begun (wire.versionFromLsn transaction.lsn)) rows touched :=
    { serves := ⟨h.serves.spec, h.serves.idle⟩
      holds := h.holds
      logs := ⟨fun entry hentry hversion => absurd hversion (h.fresh entry hentry transaction mem_cons_self),
        h.logged⟩ }
  obtain ⟨d', hrun, htracks', hwithin, hdistinct⟩ := htracks.changes hknown hchanges rfl h.distinct
  obtain ⟨result, hcommit⟩ := commit_run (hwithin.inTransaction.trans rfl) (wire.versionFromLsn transaction.lsn)
  have hcommitted : applyMessage wire env (.commit transaction.lsn) ⟨tracker', d'⟩ = .ok () ⟨tracker', d'.closed⟩ :=
    onDispatcher_run (s := ⟨tracker', d'⟩) hcommit
  refine ⟨⟨tracker', d'.closed⟩, ?_, ⟨rfl, rfl, ⟨htracks'.serves.spec, htracks'.serves.idle⟩, htracks'.holds, htracks'.logs.logged, hdistinct,
    fun entry hentry other hother => ?_, hrest, .inl hknown⟩⟩
  · refine (bind_run hbegin _).trans ?_
    rw [append_assoc]
    refine (forM_run_append hannouncement).trans ((forM_run_append hrun).trans ?_)
    exact bind_run hcommitted _
  · rcases hwithin.changeLog entry hentry with hold | hlogged
    · exact h.fresh entry hold other (mem_cons_of_mem _ hother)
    · rw [hlogged]
      exact fun heq => hnew (mem_map.mpr ⟨other, hother, heq.symm⟩)

/-- Transactions are applied and committed one after another. -/
theorem Boundary.history (hhistory : History env wire host rows transactions rows')
    {applier : Applier} (h : Boundary env wire host transactions applier rows touched) :
    ∃ applier', applyMessages wire env (transactions.flatMap p.messagesOf) applier = .ok () applier' ∧
      Boundary env wire host [] applier' rows'
        (touched ++ (transactions.flatMap SourceTransaction.changes).flatMap SourceChange.rows) := by
  induction hhistory generalizing applier touched with
  | nil => exact ⟨applier, rfl, by simpa using h⟩
  | cons hchanges hrest ih =>
    obtain ⟨applier₁, hrun, hboundary⟩ := h.transaction hchanges
    obtain ⟨applier₂, hruns, hlast⟩ := ih hboundary
    refine ⟨applier₂, (forM_run_append hrun).trans hruns, ?_⟩
    rw [flatMap_cons, flatMap_append, ← append_assoc]
    exact hlast

/-! ## From the start -/

/-- A replica that was synced with the rows of the source, has nothing under backfill, and is at a version before the
transactions to come, the first of which announces the table. -/
structure Synced (env : Env) (wire : Wire) (host : Host p) (rows : List SourceRow)
    (transactions : List SourceTransaction) : Prop where
  held : List.Forall₂ (Images env wire host) host.table.rows rows
  distinct : Distinct env wire host rows
  idle : ∀ row ∈ host.file.columnMetadata, row.tableName = p.table → row.backfill = none
  fresh : ∀ entry ∈ host.file.changeLog, ∀ transaction ∈ transactions,
    entry.stateVersion ≠ wire.versionFromLsn transaction.lsn
  versions : (transactions.map (fun transaction => wire.versionFromLsn transaction.lsn)).Nodup
  announced : ∀ transaction ∈ transactions.head?, transaction.announced = true

theorem get?_loadTableSpecs (host : Host p) : (loadTableSpecs host.file).get? p.table = some host.spec := by
  have hlisted : host.file.database.tables.find? (fun t => !hiddenTable t.name && t.name == p.table) = some host.table := by
    rw [← host.found]
    refine find?_congr (fun t _ => ?_)
    cases hname : t.name == p.table with
    | false => simp
    | true => simp [eq_of_beq hname, host.listed]
  rw [loadTableSpecs, get?, find?_map, find?_filter]
  have hfound : host.file.database.tables.find? (fun t => !hiddenTable t.name && decide (t.name = p.table)) =
      some host.table := hlisted
  simp only [comp_def, decide_and, decide_eq_true, hfound]
  rfl

theorem get?_loadBackfillingColumns (host : Host p)
    (hidle : ∀ row ∈ host.file.columnMetadata, row.tableName = p.table → row.backfill = none) :
    (loadBackfillingColumns host.file (loadTableSpecs host.file)).get? p.table = none := by
  rw [get?_eq_none]
  intro hkey
  obtain ⟨⟨name, columns⟩, hentry, rfl⟩ := mem_map.mp hkey
  obtain ⟨hmem, hsome⟩ := mem_filter.mp hentry
  obtain ⟨entry, -, heq⟩ := mem_map.mp hmem
  obtain ⟨hname, hcolumns⟩ := Prod.mk.inj heq
  have hnone : host.file.columnMetadata.filter (fun row => row.tableName == entry.1 && row.backfill.isSome) = [] := by
    rw [filter_eq_nil_iff]
    intro row hrow
    by_cases htable : row.tableName = entry.1
    · simp [hidle row hrow (htable.trans hname)]
    · simp [htable]
  rw [hnone] at hcolumns
  simp [← hcolumns] at hsome

theorem Synced.boundary (h : Synced env wire host rows transactions) :
    Boundary env wire host transactions ⟨[], new host.file⟩ rows [] :=
  { outside := rfl
    committed := rfl
    serves := ⟨get?_loadTableSpecs host, get?_loadBackfillingColumns host h.idle⟩
    holds := ⟨rfl, host.table.rows, host.found, h.held⟩
    logged := by simp
    distinct := h.distinct
    fresh := h.fresh
    versions := h.versions
    announced := .inr h.announced }

/-- After the transactions of a history whose changes find their rows the replica holds exactly the rows of the source,
and the latest entry of every touched row says whether it is there. What is sent up to any commit is again such a
history. -/
theorem mirrors_of_history {p : Published} (env : Env) (wire : Wire) (host : Host p) {rows rows' : List SourceRow}
    {transactions : List SourceTransaction} (hsynced : Synced env wire host rows transactions)
    (hhistory : History env wire host rows transactions rows') :
    ∃ applier, applyMessages wire env (transactions.flatMap p.messagesOf) ⟨[], Dispatcher.new host.file⟩ =
        .ok () applier ∧ applier.dispatcher.inTransaction = false ∧
      Mirrors env wire host applier.dispatcher.committed rows'
        ((transactions.flatMap SourceTransaction.changes).flatMap SourceChange.rows) := by
  obtain ⟨applier, hrun, hlast⟩ := hsynced.boundary.history hhistory
  obtain ⟨stored, htable, hstored⟩ := hlast.holds.stored
  refine ⟨applier, hrun, hlast.outside, ?_, ?_⟩
  · rw [← hlast.committed]
    exact ⟨host.holding stored, rows', htable, List.Perm.refl _, hstored⟩
  · rw [← hlast.committed]
    simpa using hlast.logged

/-! ## A row with a NULL -/

/-- A table of issues whose titles may be NULL, under an identity that flags the title as the identity does. -/
def issues (identity : ReplicaIdentity) : Published :=
  { relationId := 1, schema := "public", name := "issue", identity := identity
    columns := [⟨true, "id", 25⟩, ⟨identity = .full, "title", 25⟩]
    nodup := by simp
    unversioned := by simp [zeroVersionColumnName]
    keyed := by simp
    full := by simp }

/-- A replica with an empty table of issues. -/
def issuesReplica : ReplicaFile :=
  { database :=
      { tables := [⟨"issue", [⟨"id", "text", false, none⟩, ⟨"title", "text", false, none⟩,
          ⟨"_0_version", "text", false, none⟩], [], []⟩]
        indexes := [⟨"issue_pkey", "issue", true, [("id", .asc)]⟩] }
    changeLog := [], columnMetadata := [], tableMetadata := [], stateVersion := "00" }

/-- The replica of the issues. -/
def issuesHost (identity : ReplicaIdentity) : Host (issues identity) :=
  { file := issuesReplica
    table := ⟨"issue", [⟨"id", "text", false, none⟩, ⟨"title", "text", false, none⟩,
      ⟨"_0_version", "text", false, none⟩], [], []⟩
    found := rfl
    listed := by cases identity <;> decide
    nullable := by simp [Table.Nullable]
    columns := by simp [issues]
    versioned := by simp [zeroVersionColumnName]
    unique := by cases identity <;> decide }

/-- Texts are decoded as themselves. -/
def plainWire : Wire := ⟨fun _ s => .string s, fun _ => "", fun lsn => if lsn = 1 then "01" else "02"⟩

/-- An issue without a title. -/
def untitled (id : String) : SourceRow := fun column => if column = "id" then some id else none

/-- An issue is added, and changes its id in a later transaction. -/
def renumbered : List SourceTransaction :=
  [⟨1, true, [.insert (untitled "i1")]⟩, ⟨2, false, [.update (untitled "i1") (untitled "i2") []]⟩]

/-- Under the default identity the issue is found by its id. -/
theorem mirrors_renumbered : Synced plainEnv plainWire (issuesHost .default) [] renumbered ∧
    History plainEnv plainWire (issuesHost .default) [] renumbered [untitled "i2"] ∧
    ∃ applier, applyMessages plainWire plainEnv (renumbered.flatMap (issues .default).messagesOf)
        ⟨[], Dispatcher.new issuesReplica⟩ = .ok () applier ∧ applier.dispatcher.inTransaction = false ∧
      Mirrors plainEnv plainWire (issuesHost .default) applier.dispatcher.committed [untitled "i2"]
        [untitled "i1", untitled "i1", untitled "i2"] := by
  have hsynced : Synced plainEnv plainWire (issuesHost .default) [] renumbered :=
    ⟨.nil, rfl, by simp [issuesHost, issuesReplica], by simp [issuesHost, issuesReplica], by decide, by simp [renumbered]⟩
  have hinsert : Changes plainEnv plainWire (issuesHost .default) [] [.insert (untitled "i1")] [untitled "i1"] :=
    .cons (.insert [] _) trivial rfl (.nil _)
  have hupdate : Changes plainEnv plainWire (issuesHost .default) [untitled "i1"]
      [.update (untitled "i1") (untitled "i2") []] [untitled "i2"] := by
    refine .cons (.update [] [] _ _ _ (by simp)) ?_ rfl (.nil _)
    intro c hc
    obtain rfl : c = ⟨true, "id", 25⟩ := by simpa [key, issues] using hc
    exact ⟨by decide, by simp⟩
  have hhistory : History plainEnv plainWire (issuesHost .default) [] renumbered [untitled "i2"] :=
    .cons hinsert (.cons hupdate (.nil _))
  exact ⟨hsynced, hhistory, mirrors_of_history plainEnv plainWire (issuesHost .default) hsynced hhistory⟩

/-- An issue is added and deleted. -/
def deleted : List SourceTransaction :=
  [⟨1, true, [.insert (untitled "i1")]⟩, ⟨2, false, [.delete (untitled "i1")]⟩]

/-- The replica with the issue. -/
def untitledReplica : ReplicaFile :=
  { issuesReplica with
    database := { issuesReplica.database with
      tables := [⟨"issue", [⟨"id", "text", false, none⟩, ⟨"title", "text", false, none⟩,
        ⟨"_0_version", "text", false, none⟩], [],
        [[("id", .text "i1"), ("title", .null), ("_0_version", .text "01")]]⟩] }
    changeLog := [⟨"01", 0, "issue", .json [("id", .string "i1"), ("title", .null)], .set, []⟩] }

/-- Under full identity the delete compares the title with NULL and finds no row, which stays in the replica while
the log says that it is gone. -/
theorem not_mirrors_deleted : Synced plainEnv plainWire (issuesHost .full) [] deleted ∧
    SourceStep [] (.insert (untitled "i1")) [untitled "i1"] ∧
    SourceStep [untitled "i1"] (.delete (untitled "i1")) [] ∧
    ∃ applier, applyMessages plainWire plainEnv (deleted.flatMap (issues .full).messagesOf)
        ⟨[], Dispatcher.new issuesReplica⟩ = .ok () applier ∧
      ¬ Mirrors plainEnv plainWire (issuesHost .full) applier.dispatcher.committed [] [untitled "i1", untitled "i1"] := by
  refine ⟨⟨.nil, rfl, by simp [issuesHost, issuesReplica], by simp [issuesHost, issuesReplica], by decide, by simp [deleted]⟩, .insert [] _,
    .delete [] [] _, ?_⟩
  have hinsert : applyMessages plainWire plainEnv ((issues .full).messagesOf ⟨1, true, [.insert (untitled "i1")]⟩)
      ⟨[], new issuesReplica⟩ = .ok () ⟨[(1, (issues .full).cached)], { new issuesReplica with
          committed := untitledReplica, replica := untitledReplica, version := "01", pos := 1, numChangeLogEntries := 1 }⟩ :=
    rfl
  have hdelete : ∃ applier, applyMessages plainWire plainEnv
      ((issues .full).messagesOf ⟨2, false, [.delete (untitled "i1")]⟩ ++ []) ⟨[(1, (issues .full).cached)],
        { new issuesReplica with
          committed := untitledReplica, replica := untitledReplica, version := "01", pos := 1, numChangeLogEntries := 1 }⟩ =
        .ok () applier ∧ (applier.dispatcher.committed.database.table? (issues .full).table).map Table.rows =
        some [[("id", .text "i1"), ("title", .null), ("_0_version", .text "01")]] := ⟨_, rfl, rfl⟩
  obtain ⟨applier, hrun, hrows⟩ := hdelete
  refine ⟨applier, (forM_run_append hinsert).trans hrun, fun hmirrors => ?_⟩
  obtain ⟨t, listed, htable, hperm, hheld⟩ := hmirrors.held
  obtain rfl := hperm.eq_nil
  have hnone : t.rows = [] := forall₂_nil_right_iff.mp hheld
  rw [htable, Option.map_some, hnone] at hrows
  simp at hrows

end ZeroCache.ChangeSource
