import ZeroCache.Zql.SortedRows
import Mathlib.Data.Finset.Card

/-!
# Limits

The operator of `limit` (`ivm/take.rs`): it keeps the first rows of its input, stores how many they are
and the last of them, the bound, and accepts or rejects what is pushed by the bound. A row that enters a
full window pushes the bound out, a row that leaves it is replaced by the first row after the bound. For a
partitioned limit, as a correlated subquery has it, there is such a state for each partition, and the
largest bound there has been. While a change is pushed the input already has it. The rows that nodes carry
are modelled, not the children attached to them, which the operator only passes on; storage is keyed by
the values whose JSON text is the key in the source. `none` is a panic.
-/

namespace ZeroCache.Zql

/-- The rows kept for a partition: how many and the last of them. -/
structure TakeState where
  size : ℕ
  bound : Option Row
  deriving DecidableEq

/-- The states of the partitions, and the largest bound there has been. -/
structure TakeStorage where
  states : Assoc JsonValue TakeState
  maxBound : Option Row
  deriving DecidableEq

/-- A limit on an input in some order. -/
structure Take where
  sort : QueryOrdering
  limit : ℕ
  partitionKey : Option (List String)

/-- What a push does: the state it stores, if any, and the changes it emits, in order. -/
structure TakeOutcome where
  state : Option TakeState
  emitted : List SourceChange
  deriving DecidableEq

/-- The key a state is stored under (`get_take_state_key`). -/
def takeStateKey (partitionKey : Option (List String)) (fields : Option (Fields JsonValue)) : JsonValue :=
  .array (.string "take" :: match partitionKey, fields with
    | some key, some fields => key.map (Row.get fields)
    | _, _ => [])

namespace Take

variable (take : Take)

/-- Compare rows in the order of the input. -/
def cmp (a b : Row) : Option Ordering := compareRows take.sort a b

/-- Store the state of a partition, and its bound as the largest if it is (`set_take_state`). -/
def setTakeState (storage : TakeStorage) (key : JsonValue) (state : TakeState) : Option TakeStorage :=
  let stored := { storage with states := Assoc.set storage.states key state }
  match state.bound, storage.maxBound with
  | none, _ => some stored
  | some bound, none => some { stored with maxBound := some bound }
  | some bound, some maxBound => (take.cmp bound maxBound).map (fun result =>
      if result = .gt then { stored with maxBound := some bound } else stored)

/-- The constraint that selects the partition of a row. -/
def partitionConstraint (row : Row) : Option Constraint :=
  take.partitionKey.map (fun key => key.map (fun column => (column, Row.get row column)))

/-- Read the input from a bound. -/
def fetchBounded (rows : List Row) (constraint : Option Constraint) (bound : Row) (basis : StartBasis)
    (reverse : Bool) : List Row :=
  readInput take.sort rows ⟨constraint, [], some ⟨bound, basis⟩, reverse⟩

/-! ## Fetching -/

/-- The first fetch of a partition keeps its first rows. -/
def initialFetch (storage : TakeStorage) (rows : List Row) (req : FetchRequest) :
    Option (TakeStorage × List Row) :=
  let key := takeStateKey take.partitionKey req.constraint
  let out := (readInput take.sort rows req).take take.limit
  if req.start.isSome || req.reverse then none
  else if take.limit = 0 then some (storage, [])
  else if !constraintMatchesPartitionKey req.constraint take.partitionKey then none
  else if (Assoc.get? storage.states key).isSome then none
  else (take.setTakeState storage key ⟨out.length, out.getLast?⟩).map (fun storage => (storage, out))

/-- A row is hidden while it is about to enter the window. -/
def isHidden (hidden : Option Row) (row : Row) : Option Bool :=
  match hidden with
  | none => some false
  | some hidden => (take.cmp hidden row).map (· = .eq)

/-- The rows up to a bound, without the hidden one. -/
def upTo (bound : Row) (hidden : Option Row) : List Row → Option (List Row)
  | [] => some []
  | row :: rest => do
    if (← take.cmp bound row) = .lt then return []
    else if ← take.isHidden hidden row then upTo bound hidden rest
    else return row :: (← upTo bound hidden rest)

/-- A row is not after the bound of its own partition. -/
def admits (storage : TakeStorage) (row : Row) : Option Bool :=
  match (Assoc.get? storage.states (takeStateKey take.partitionKey (some row))).bind TakeState.bound with
  | none => some false
  | some bound => (take.cmp bound row).map (· ≠ .lt)

/-- The rows up to the largest bound that their partitions admit. -/
def admitted (storage : TakeStorage) (maxBound : Row) : List Row → Option (List Row)
  | [] => some []
  | row :: rest => do
    if (← take.cmp row maxBound) = .gt then return []
    else if ← take.admits storage row then return row :: (← admitted storage maxBound rest)
    else admitted storage maxBound rest

/-- A fetch: of one partition, up to its bound, or of all of them. -/
def fetch (storage : TakeStorage) (hidden : Option Row) (rows : List Row) (req : FetchRequest) :
    Option (TakeStorage × List Row) :=
  let nodes := readInput take.sort rows req
  if take.partitionKey.isNone ||
      (req.constraint.isSome && constraintMatchesPartitionKey req.constraint take.partitionKey) then
    match Assoc.get? storage.states (takeStateKey take.partitionKey req.constraint) with
    | none => take.initialFetch storage rows req
    | some ⟨_, none⟩ => some (storage, [])
    | some ⟨_, some bound⟩ => (take.upTo bound hidden nodes).map (fun out => (storage, out))
  else
    match storage.maxBound with
    | none => some (storage, [])
    | some maxBound => (take.admitted storage maxBound nodes).map (fun out => (storage, out))

/-! ## Pushing -/

section Push

variable (rows : List Row) (constraint : Option Constraint) (state : TakeState)

/-- A row is added to a window that has room. -/
def addWithin (row : Row) : Option TakeOutcome := do
  let bound ← match state.bound with
    | none => some row
    | some bound => (take.cmp bound row).map (fun result => if result = .lt then row else bound)
  return ⟨some ⟨state.size + 1, some bound⟩, [.add row]⟩

/-- A row is added before the bound of a full window: the row at the bound goes first. -/
def addEvicting (row bound : Row) : Option TakeOutcome := do
  let nodes := take.fetchBounded rows constraint bound .at (take.limit ≠ 1)
  let boundNode ← nodes.head?
  let newBound ← match if take.limit = 1 then none else nodes.tail.head? with
    | none => some row
    | some before => (take.cmp row before).map (fun result => if result = .gt then row else before)
  return ⟨some ⟨state.size, some newBound⟩, [.remove boundNode, .add row]⟩

/-- A row is added to the input (`push_add`). -/
def pushAdd (row : Row) : Option TakeOutcome :=
  if state.size < take.limit then take.addWithin state row
  else match state.bound with
    | none => some ⟨none, []⟩
    | some bound => do
      if (← take.cmp row bound) = .lt then take.addEvicting rows constraint state row bound
      else return ⟨none, []⟩

/-- A candidate for the bound, and whether it is after the old one. -/
def candidate (bound row : Row) : Option (Row × Bool) :=
  (take.cmp row bound).map (fun result => (row, result = .gt))

/-- The last candidate, up to the first that is after the bound. -/
def lastCandidate (bound : Row) : Option (Row × Bool) → List Row → Option (Option (Row × Bool))
  | found, [] => some found
  | found, row :: rest =>
    if found.any Prod.snd then some found
    else do lastCandidate bound (some (← take.candidate bound row)) rest

/-- The row that takes the place of the bound when a row of the window goes. -/
def replacement (bound : Row) : Option (Option (Row × Bool)) := do
  let before ← (take.fetchBounded rows constraint bound .after true).head?.mapM (take.candidate bound)
  take.lastCandidate bound before (take.fetchBounded rows constraint bound .at false)

/-- A row is removed from the input (`push_remove`). -/
def pushRemove (row : Row) : Option TakeOutcome :=
  match state.bound with
  | none => some ⟨none, []⟩
  | some bound => do
    if (← take.cmp row bound) = .gt then return ⟨none, []⟩
    else match ← take.replacement rows constraint bound with
      | some (newBound, true) => return ⟨some ⟨state.size, some newBound⟩, [.remove row, .add newBound]⟩
      | found => return ⟨some ⟨state.size - 1, found.map Prod.fst⟩, [.remove row]⟩

/-- The row of the bound is edited. -/
def editBound (bound row oldRow : Row) (newCmp : Ordering) : Option TakeOutcome :=
  match newCmp with
  | .eq => some ⟨none, [.edit row oldRow]⟩
  | .lt =>
    if take.limit = 1 then some ⟨some ⟨state.size, some row⟩, [.edit row oldRow]⟩
    else do
      let before ← (take.fetchBounded rows constraint bound .after true).head?
      return ⟨some ⟨state.size, some before⟩, [.edit row oldRow]⟩
  | .gt => do
    let newBound ← (take.fetchBounded rows constraint bound .at false).head?
    if (← take.cmp newBound row) = .eq then return ⟨some ⟨state.size, some row⟩, [.edit row oldRow]⟩
    else return ⟨some ⟨state.size, some newBound⟩, [.remove oldRow, .add newBound]⟩

/-- A row after the bound is edited. -/
def editOutside (bound row : Row) (newCmp : Ordering) : Option TakeOutcome :=
  match newCmp with
  | .eq => none
  | .gt => some ⟨none, []⟩
  | .lt => do
    let nodes := take.fetchBounded rows constraint bound .at true
    let oldBound ← nodes.head?
    let newBound ← nodes.tail.head?
    return ⟨some ⟨state.size, some newBound⟩, [.remove oldBound, .add row]⟩

/-- A row before the bound is edited. -/
def editInside (bound row oldRow : Row) (newCmp : Ordering) : Option TakeOutcome :=
  match newCmp with
  | .eq => none
  | .lt => some ⟨none, [.edit row oldRow]⟩
  | .gt => do
    let after ← (take.fetchBounded rows constraint bound .after false).head?
    if (← take.cmp after row) = .eq then return ⟨some ⟨state.size, some row⟩, [.edit row oldRow]⟩
    else return ⟨some ⟨state.size, some after⟩, [.remove oldRow, .add after]⟩

/-- A row of the input is edited (`push_edit`). -/
def pushEdit (row oldRow : Row) : Option TakeOutcome := do
  let bound ← state.bound
  let oldCmp ← take.cmp oldRow bound
  let newCmp ← take.cmp row bound
  match oldCmp with
  | .eq => take.editBound rows constraint state bound row oldRow newCmp
  | .gt => take.editOutside rows constraint state bound row newCmp
  | .lt => take.editInside rows constraint state bound row oldRow newCmp

/-- What a change does to the partition it falls into. -/
def pushPartition : SourceChange → Option TakeOutcome
  | .add row => take.pushAdd rows constraint state row
  | .remove row => take.pushRemove rows constraint state row
  | .edit row oldRow => take.pushEdit rows constraint state row oldRow

end Push

/-- An edit keeps a row in its partition. -/
def samePartition (row oldRow : Row) : Bool :=
  (take.partitionKey.getD []).all (fun key => compareValues (Row.get oldRow key) (Row.get row key) = some .eq)

/-- The row that tells the partition of a change; an edit across partitions is refused. -/
def partitionRow : SourceChange → Option Row
  | .add row => some row
  | .remove row => some row
  | .edit row oldRow => if take.samePartition row oldRow then some oldRow else none

/-- Store what a push decided. -/
def store (storage : TakeStorage) (key : JsonValue) (outcome : TakeOutcome) : Option TakeStorage :=
  match outcome.state with
  | none => some storage
  | some state => take.setTakeState storage key state

/-- A change of the input is pushed; a partition that was never fetched ignores it. -/
def push (storage : TakeStorage) (rows : List Row) (change : SourceChange) :
    Option (TakeStorage × List SourceChange) := do
  let row ← take.partitionRow change
  let key := takeStateKey take.partitionKey (some row)
  match Assoc.get? storage.states key with
  | none => return (storage, [])
  | some state => do
    let outcome ← take.pushPartition rows (take.partitionConstraint row) state change
    return (← take.store storage key outcome, outcome.emitted)

end Take

end ZeroCache.Zql
