import ZeroCache.Replica.Dispatcher

/-!
# From pgoutput messages to changes

The relation tracker of `pg_to_change.rs` turns decoded replication messages into changes of the
change stream. A relation message announces the columns of a table and which of them are its key;
later row messages name the relation by its id and carry one value per column, in the announced
order. The decoder of a text value and the version of a log position are the wire's, and every
result holds for any of them.
-/

namespace ZeroCache.ChangeSource

open Replica

/-- A column value of a tuple. -/
inductive TupleColumn where
  | null
  | unchangedToast
  | text (s : String)
  | binary (bytes : List UInt8)
  deriving DecidableEq, Repr

/-- A column as a relation message announces it. -/
structure RelationColumn where
  isKey : Bool
  name : String
  typeOid : ℤ
  deriving DecidableEq, Repr

/-- The replica identity of a table. -/
inductive ReplicaIdentity where
  | default
  | nothing
  | full
  | index
  deriving DecidableEq, Repr

/-- A decoded message. -/
inductive PgoutputMessage where
  | begin (finalLsn : ℕ)
  | commit (commitLsn : ℕ)
  | relation (relationId : ℤ) (schema name : String) (replicaIdentity : ReplicaIdentity)
      (columns : List RelationColumn)
  | insert (relationId : ℤ) (new : List TupleColumn)
  | update (relationId : ℤ) (old : Option (List TupleColumn)) (oldIsKeyOnly : Bool) (new : List TupleColumn)
  | delete (relationId : ℤ) (key : List TupleColumn) (isKeyOnly : Bool)
  | truncate (relationIds : List ℤ)
  | message (topic : String) (content : List UInt8)
  | origin
  | type
  | unsupported (kind : UInt8)

/-- A relation as it was announced. -/
structure CachedRelation where
  schema : String
  name : String
  /-- Names and type ids, in wire order. -/
  columns : List (String × ℤ)
  keyColumnNames : List String
  replicaIdentity : ReplicaIdentity
  deriving DecidableEq, Repr

/-- Why a message could not be translated. -/
inductive TranslateError where
  | unknownRelation (relationId : ℤ)
  | columnCountMismatch (expected actual : ℕ)
  deriving DecidableEq, Repr

/-- The relations announced so far. -/
abbrev RelationTracker := Assoc ℤ CachedRelation

/-- What messages are decoded with. -/
structure Wire where
  textToJson : ℤ → String → JsonValue
  fromUtf8Lossy : List UInt8 → String
  versionFromLsn : ℕ → String

variable (wire : Wire)

/-- A column value as a wire value. -/
def tupleColumnToJson (column : TupleColumn) (typeOid : ℤ) : JsonValue :=
  match column with
  | .null => .null
  | .unchangedToast => .null
  | .text s => wire.textToJson typeOid s
  | .binary bytes => .string (wire.fromUtf8Lossy bytes)

/-- A full tuple as a row, without the values that did not change and were not sent. -/
def tupleToRow (rel : CachedRelation) (tuple : List TupleColumn) : Except TranslateError Row :=
  if tuple.length ≠ rel.columns.length then
    .error (.columnCountMismatch rel.columns.length tuple.length)
  else
    .ok (((rel.columns.zip tuple).filter (fun entry => entry.2 ≠ .unchangedToast)).map
      (fun entry => (entry.1.1, tupleColumnToJson wire entry.2 entry.1.2)))

/-- The key columns of a tuple, which has a value for every column of the relation. -/
def keyTupleToRow (rel : CachedRelation) (tuple : List TupleColumn) : Except TranslateError Row :=
  if tuple.length ≠ rel.columns.length then
    .error (.columnCountMismatch rel.columns.length tuple.length)
  else
    .ok (rel.keyColumnNames.filterMap (fun key =>
      ((rel.columns.zip tuple).find? (fun entry => entry.1.1 == key)).map
        (fun entry => (entry.1.1, tupleColumnToJson wire entry.2 entry.1.2))))

/-- The relation of a change: flagged columns are the key, and only full identity without any flag is
left to the table's primary key. -/
def relationOf (rel : CachedRelation) : Relation :=
  { schema := rel.schema, name := rel.name, keyColumns := rel.keyColumnNames,
    keyKind := some (if !rel.keyColumnNames.isEmpty then .default
      else if rel.replicaIdentity = .full then .full else .nothing) }

/-- The announced relation of an id. -/
def RelationTracker.get (tracker : RelationTracker) (relationId : ℤ) : Except TranslateError CachedRelation :=
  match Assoc.get? tracker relationId with
  | some rel => .ok rel
  | none => .error (.unknownRelation relationId)

/-- The relation a message announces. -/
def cachedRelation (schema name : String) (replicaIdentity : ReplicaIdentity) (columns : List RelationColumn) :
    CachedRelation :=
  { schema := schema, name := name, columns := columns.map (fun c => (c.name, c.typeOid)),
    keyColumnNames := (columns.filter RelationColumn.isKey).map RelationColumn.name,
    replicaIdentity := replicaIdentity }

/-- The key of an update, when the message carries an old tuple. -/
def oldKeyRow (rel : CachedRelation) (old : Option (List TupleColumn)) (keyOnly : Bool) :
    Except TranslateError (Option Row) :=
  match old with
  | none => .ok none
  | some tuple => some <$> if keyOnly then keyTupleToRow wire rel tuple else tupleToRow wire rel tuple

/-- Translate a message: the relations known afterwards, and its change if it makes one. -/
def translate (tracker : RelationTracker) :
    PgoutputMessage → Except TranslateError (RelationTracker × Option Change)
  | .begin _ => .ok (tracker, some .begin)
  | .commit _ => .ok (tracker, some .commit)
  | .relation relationId schema name replicaIdentity columns =>
    .ok (tracker.set relationId (cachedRelation schema name replicaIdentity columns), none)
  | .insert relationId new => do
    let rel ← tracker.get relationId
    let row ← tupleToRow wire rel new
    return (tracker, some (.insert (relationOf rel) row))
  | .update relationId old oldIsKeyOnly new => do
    let rel ← tracker.get relationId
    let row ← tupleToRow wire rel new
    let key ← oldKeyRow wire rel old oldIsKeyOnly
    return (tracker, some (.update (relationOf rel) key row))
  | .delete relationId key isKeyOnly => do
    let rel ← tracker.get relationId
    let row ← if isKeyOnly then keyTupleToRow wire rel key else tupleToRow wire rel key
    return (tracker, some (.delete (relationOf rel) row))
  | .truncate relationIds => do
    let relations ← relationIds.mapM (fun relationId => relationOf <$> tracker.get relationId)
    return (tracker, some (.truncate relations))
  | .message _ _ => .ok (tracker, none)
  | .origin => .ok (tracker, none)
  | .type => .ok (tracker, none)
  | .unsupported _ => .ok (tracker, none)

/-! ## Applying messages -/

/-- Why a message could not be applied. -/
inductive StreamError where
  | translate (e : TranslateError)
  | dispatch (e : DispatchError)
  deriving DecidableEq, Repr

/-- The replication applier: the relations announced so far and the dispatcher. -/
structure Applier where
  relations : RelationTracker
  dispatcher : Dispatcher

/-- Run a dispatcher call. -/
def onDispatcher {α : Type} (call : Apply α) : EStateM StreamError Applier Unit := fun s =>
  match call s.dispatcher with
  | .ok _ dispatcher => .ok () { s with dispatcher := dispatcher }
  | .error e dispatcher => .error (.dispatch e) { s with dispatcher := dispatcher }

theorem onDispatcher_run {α : Type} {call : Apply α} {s : Applier} {a : α} {dispatcher : Dispatcher}
    (h : call s.dispatcher = .ok a dispatcher) : onDispatcher call s = .ok () { s with dispatcher := dispatcher } := by
  simp only [onDispatcher, h]

variable (env : Env)

/-- Apply a message (`apply_message` of `replication_apply.rs`, of a stream without schema messages):
a transaction is opened and closed at the versions of its positions, any other message is translated. -/
def applyMessage : PgoutputMessage → EStateM StreamError Applier Unit
  | .begin finalLsn => onDispatcher (begin (wire.versionFromLsn finalLsn))
  | .commit commitLsn => onDispatcher (commit (wire.versionFromLsn commitLsn))
  | message => fun s =>
    match translate wire s.relations message with
    | .error e => .error (.translate e) s
    | .ok (relations, none) => .ok () { s with relations := relations }
    | .ok (relations, some change) => onDispatcher (apply env change) { s with relations := relations }

/-- Apply messages in order, up to the first that fails. -/
def applyMessages (messages : List PgoutputMessage) : EStateM StreamError Applier Unit :=
  messages.forM (applyMessage wire env)

end ZeroCache.ChangeSource
