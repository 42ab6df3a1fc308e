import ZeroCache.ChangeSource.Translate
import ZeroCache.Lib.Result

/-!
# The history of a published table

A source table is a list of rows, and its history a list of transactions of inserts, updates and
deletes. Each change is sent as the messages that the replica identity of the table prescribes: under
the default identity or an index an update carries the old key when that changed and a delete the key,
under full identity every column is flagged as key and the whole old row is sent. A value stored out
of line that an update leaves alone may be sent as unchanged.
-/

namespace ZeroCache.ChangeSource

open Replica Lib List RelationColumn TupleColumn

/-- A published table, as its relation message announces it. -/
structure Published where
  relationId : ℤ
  schema : String
  name : String
  identity : ReplicaIdentity
  columns : List RelationColumn
  /-- Column names are distinct, and none is that of the replica's version column. -/
  nodup : (columns.map RelationColumn.name).Nodup
  unversioned : zeroVersionColumnName ∉ columns.map RelationColumn.name
  /-- There is a replica identity, which is every column under full identity. -/
  keyed : columns.any RelationColumn.isKey = true
  full : identity = .full → ∀ c ∈ columns, c.isKey = true

/-- A row: the text form of the value of each column, or NULL. -/
abbrev SourceRow := String → Option String

/-- A change of one row; an update names the columns that are sent as unchanged. -/
inductive SourceChange where
  | insert (new : SourceRow)
  | update (old new : SourceRow) (unchanged : List String)
  | delete (old : SourceRow)

/-- What a change does to the rows of the source table. -/
inductive SourceStep : List SourceRow → SourceChange → List SourceRow → Prop
  | insert (rows : List SourceRow) (new : SourceRow) : SourceStep rows (.insert new) (rows ++ [new])
  | update (before after : List SourceRow) (old new : SourceRow) (unchanged : List String)
      (kept : ∀ column ∈ unchanged, new column = old column) :
      SourceStep (before ++ old :: after) (.update old new unchanged) (before ++ new :: after)
  | delete (before after : List SourceRow) (old : SourceRow) :
      SourceStep (before ++ old :: after) (.delete old) (before ++ after)

/-- A transaction of the source: its position in the log, whether the relation is announced in it, and its
changes. -/
structure SourceTransaction where
  lsn : ℕ
  announced : Bool
  changes : List SourceChange

/-- A value as it is sent. -/
def sentValue : Option String → TupleColumn
  | none => .null
  | some s => .text s

namespace Published

variable (p : Published)

/-- The flagged columns. -/
def key : List RelationColumn := p.columns.filter RelationColumn.isKey

/-- A tuple with every value of a row. -/
def fullTuple (row : SourceRow) : List TupleColumn := p.columns.map (fun c => sentValue (row c.name))

/-- A tuple with the values of the key columns. -/
def keyTuple (row : SourceRow) : List TupleColumn :=
  p.columns.map (fun c => if c.isKey then sentValue (row c.name) else .null)

/-- The new tuple of an update. -/
def newTuple (row : SourceRow) (unchanged : List String) : List TupleColumn :=
  p.columns.map (fun c => if c.name ∈ unchanged then .unchangedToast else sentValue (row c.name))

/-- The key of a row is the same. -/
def sameKey (a b : SourceRow) : Bool := p.key.all (fun c => a c.name = b c.name)

/-- The message of a change. -/
def messageOf : SourceChange → PgoutputMessage
  | .insert new => .insert p.relationId (p.fullTuple new)
  | .update old new unchanged =>
    if p.identity = .full then .update p.relationId (some (p.fullTuple old)) false (p.newTuple new unchanged)
    else if p.sameKey old new then .update p.relationId none false (p.newTuple new unchanged)
    else .update p.relationId (some (p.keyTuple old)) true (p.newTuple new unchanged)
  | .delete old =>
    if p.identity = .full then .delete p.relationId (p.fullTuple old) false
    else .delete p.relationId (p.keyTuple old) true

/-- The announcement of the table. -/
def announcement : PgoutputMessage := .relation p.relationId p.schema p.name p.identity p.columns

/-- The messages of a transaction. -/
def messagesOf (transaction : SourceTransaction) : List PgoutputMessage :=
  .begin transaction.lsn :: ((if transaction.announced then [p.announcement] else []) ++
    transaction.changes.map p.messageOf ++ [.commit transaction.lsn])

/-- The relation of the table's changes. -/
def relation : Relation :=
  { schema := p.schema, name := p.name, keyColumns := p.key.map RelationColumn.name, keyKind := some .default }

/-- The relation as the tracker keeps it. -/
def cached : CachedRelation := cachedRelation p.schema p.name p.identity p.columns

variable {p}

theorem key_ne_nil : p.key ≠ [] := by
  have hkeyed := p.keyed
  rw [any_eq_true] at hkeyed
  obtain ⟨c, hc, hkey⟩ := hkeyed
  exact ne_nil_of_mem (mem_filter.mpr ⟨hc, hkey⟩)

theorem relationOf_cached : relationOf p.cached = p.relation := by
  have hkey : (p.key.map RelationColumn.name).isEmpty = false := by
    simpa [isEmpty_eq_false_iff] using p.key_ne_nil
  unfold key at hkey
  simp [relationOf, cached, cachedRelation, relation, key, hkey]

/-- Under full identity the key is every column. -/
theorem key_of_full (h : p.identity = .full) : p.key = p.columns := filter_eq_self.mpr (p.full h)

/-- A column is found by its name. -/
theorem find?_name {c : RelationColumn} (hc : c ∈ p.columns) :
    p.columns.find? (fun other => other.name == c.name) = some c := by
  cases hfind : p.columns.find? (fun other => other.name == c.name) with
  | none => exact absurd (find?_eq_none.mp hfind c hc) (by simp)
  | some other =>
    have hname : other.name = c.name := by simpa using find?_some hfind
    rw [inj_on_of_nodup_map p.nodup (mem_of_find?_eq_some hfind) hc hname]

end Published

/-! ## Translated rows -/

variable (wire : Wire)

/-- The wire value of a column. -/
def wireValue (c : RelationColumn) (value : Option String) : JsonValue :=
  match value with
  | none => .null
  | some s => wire.textToJson c.typeOid s

/-- The wire values of some columns of a row. -/
def wireRow (columns : List RelationColumn) (row : SourceRow) : Row :=
  columns.map (fun c => (c.name, wireValue wire c (row c.name)))

variable {wire} {p : Published}

theorem tupleColumnToJson_sentValue (c : RelationColumn) (value : Option String) :
    tupleColumnToJson wire (sentValue value) c.typeOid = wireValue wire c value := by
  cases value <;> rfl

theorem sentValue_ne_unchangedToast (value : Option String) : sentValue value ≠ .unchangedToast := by
  cases value <;> simp [sentValue]

variable (f : RelationColumn → TupleColumn)

theorem zip_tuple : p.cached.columns.zip (p.columns.map f) = p.columns.map (fun c => ((c.name, c.typeOid), f c)) :=
  zip_map'

/-- A tuple translates to the columns that were sent. -/
theorem tupleToRow_map : tupleToRow wire p.cached (p.columns.map f) =
      .ok ((p.columns.filter (fun c => f c ≠ .unchangedToast)).map
        (fun c => (c.name, tupleColumnToJson wire (f c) c.typeOid))) := by
  unfold tupleToRow
  rw [if_neg (by simp [Published.cached, cachedRelation]), zip_tuple, filter_map, map_map]
  rfl

variable (row : SourceRow)

theorem tupleToRow_fullTuple : tupleToRow wire p.cached (p.fullTuple row) = .ok (wireRow wire p.columns row) := by
  have hsent : p.columns.filter (fun c => sentValue (row c.name) ≠ .unchangedToast) = p.columns :=
    filter_eq_self.mpr (fun c _ => by simpa using sentValue_ne_unchangedToast _)
  rw [Published.fullTuple, tupleToRow_map, hsent]
  simp only [tupleColumnToJson_sentValue, wireRow]

/-- The columns an update sends. -/
def Published.sent (p : Published) (unchanged : List String) : List RelationColumn :=
  p.columns.filter (fun c => c.name ∉ unchanged)

theorem tupleToRow_newTuple (unchanged : List String) :
    tupleToRow wire p.cached (p.newTuple row unchanged) = .ok (wireRow wire (p.sent unchanged) row) := by
  have hsent : p.columns.filter (fun c => (if c.name ∈ unchanged then unchangedToast
      else sentValue (row c.name)) ≠ .unchangedToast) = p.sent unchanged := by
    refine filter_congr (fun c _ => ?_)
    by_cases hc : c.name ∈ unchanged
    · simp [hc]
    · simpa [hc] using sentValue_ne_unchangedToast _
  rw [Published.newTuple, tupleToRow_map, hsent]
  congr 1
  refine map_congr_left (fun c hc => ?_)
  have hnot : c.name ∉ unchanged := by simpa using (mem_filter.mp hc).2
  rw [if_neg hnot, tupleColumnToJson_sentValue]

theorem keyTupleToRow_keyTuple : keyTupleToRow wire p.cached (p.keyTuple row) = .ok (wireRow wire p.key row) := by
  have hnames : p.cached.keyColumnNames = p.key.map name := rfl
  unfold keyTupleToRow Published.keyTuple
  rw [if_neg (by simp [Published.cached, cachedRelation]), zip_tuple, hnames, filterMap_map]
  congr 1
  refine filterMap_eq_map_iff_forall_eq_some.mpr (fun c hc => ?_)
  obtain ⟨hmem, hkey⟩ := mem_filter.mp hc
  have hfind : (p.columns.map (fun c => ((c.name, c.typeOid),
      if c.isKey then sentValue (row c.name) else null))).find? (fun entry => entry.1.1 == c.name) =
        some ((c.name, c.typeOid), sentValue (row c.name)) := by
    rw [find?_map]
    change Option.map _ (p.columns.find? (fun other => other.name == c.name)) = _
    rw [p.find?_name hmem]
    simp [hkey]
  simp only [Function.comp_apply, hfind, Option.map_some, tupleColumnToJson_sentValue]

/-! ## Translated changes -/

/-- The change of the change stream that a change of the source is translated to. -/
def changeOf (wire : Wire) (p : Published) : SourceChange → Change
  | .insert new => .insert p.relation (wireRow wire p.columns new)
  | .update old new unchanged =>
    .update p.relation
      (if p.identity = .full ∨ p.sameKey old new = false then some (wireRow wire p.key old) else none)
      (wireRow wire (p.sent unchanged) new)
  | .delete old => .delete p.relation (wireRow wire p.key old)

/-- The message of a change is translated to it once the table was announced. -/
theorem translate_messageOf {tracker : RelationTracker} (h : Assoc.get? tracker p.relationId = some p.cached)
    (change : SourceChange) :
    translate wire tracker (p.messageOf change) = .ok (tracker, some (changeOf wire p change)) := by
  have hget : RelationTracker.get tracker p.relationId = .ok p.cached := by rw [RelationTracker.get, h]
  cases change with
  | insert =>
    simp only [Published.messageOf, translate, hget, ok_bind, tupleToRow_fullTuple, Published.relationOf_cached]
    rfl
  | update old new unchanged =>
    have hrow := @tupleToRow_newTuple wire p new unchanged
    by_cases hfull : p.identity = .full
    · have hold : oldKeyRow wire p.cached (some (p.fullTuple old)) false = .ok (some (wireRow wire p.key old)) := by
        simp only [oldKeyRow, tupleToRow_fullTuple, p.key_of_full hfull]
        rfl
      simp only [Published.messageOf, hfull, if_true, translate, hget, ok_bind, hrow, hold,
        Published.relationOf_cached, changeOf, true_or]
      rfl
    · cases hsame : p.sameKey old new with
      | true =>
        simp only [Published.messageOf, hfull, if_false, hsame, if_true, translate, hget, ok_bind, hrow,
          Published.relationOf_cached, changeOf]
        rfl
      | false =>
        have hold : oldKeyRow wire p.cached (some (p.keyTuple old)) true = .ok (some (wireRow wire p.key old)) := by
          simp only [oldKeyRow, keyTupleToRow_keyTuple]
          rfl
        simp only [Published.messageOf, hfull, if_false, hsame, Bool.false_eq_true, translate, hget, ok_bind, hrow,
          hold, Published.relationOf_cached, changeOf, or_true, if_true]
        rfl
  | delete =>
    by_cases hfull : p.identity = .full
    · simp only [Published.messageOf, hfull, if_true, translate, hget, ok_bind, tupleToRow_fullTuple,
      Published.relationOf_cached, changeOf, p.key_of_full hfull]
      rfl
    · simp only [Published.messageOf, hfull, if_false, translate, hget, ok_bind, if_true,
      keyTupleToRow_keyTuple, Published.relationOf_cached]
      rfl

end ZeroCache.ChangeSource
