import ZeroCache.Lib.Sorting
import ZeroCache.Zql.Order
import ZeroCache.Zql.Query
import Mathlib.Data.List.Dedup
import Mathlib.Data.List.Pairwise

/-!
# Operators

The operator graph of a query and what fetching from it returns (`ivm/`). A node is a row with the
children that joins have attached to it by name. Only the pull direction is modelled, as hydration
drives it: no request is reversed and none carries batched constraints. `none` is a panic.

The rows of a table come from SQLite. A `Source` says what is assumed of it: a read returns exactly
the rows that match, in the order asked for.
-/

namespace ZeroCache.Zql

open List

/-! ## Sources -/

/-- Equated columns; NULL equals nothing. -/
abbrev Constraint := Fields JsonValue

/-- A row matches a constraint. -/
def constraintMatches (constraint : Option Constraint) (row : Row) : Bool :=
  match constraint with
  | none => true
  | some fields => fields.all (fun entry => entry.2 ≠ .null && row.get entry.1 = entry.2)

/-- Whether a bounded read includes its start. -/
inductive StartBasis where
  | at
  | after
  deriving DecidableEq, Repr

/-- Where a read starts. -/
structure Start where
  row : Row
  basis : StartBasis

/-- The leading part of an ordering that a bound names. -/
def namedPart (order : QueryOrdering) (bound : Row) : QueryOrdering :=
  order.takeWhile (fun entry => (bound.get? entry.1).isSome)

/-- A row is not before the start of a read; a start that names no leading column bounds nothing
(`gather_start_constraints`). -/
def startMatches (order : QueryOrdering) (start : Option Start) (row : Row) : Bool :=
  match start with
  | none => true
  | some start =>
    let order := namedPart order start.row
    order.isEmpty || match compareRows order row start.row with
      | some .gt => true
      | some .eq => start.basis = .at
      | _ => false

/-- The rows of the tables and how they are read. -/
structure Source where
  rows : String → List Row
  fetch : String → QueryOrdering → Option Constraint → Option Start → List Row
  mem_fetch : ∀ table order constraint start row, row ∈ fetch table order constraint start ↔
    row ∈ rows table ∧ constraintMatches constraint row = true ∧ startMatches order start row = true
  sorted : ∀ table order constraint start, SortsApart order (rows table) →
    (fetch table order constraint start).Pairwise (Before order)

/-- The rows of a table kept in memory that a read returns, in order. -/
def readRows (rows : List Row) (order : QueryOrdering) (constraint : Option Constraint) (start : Option Start) :
    List Row :=
  (rows.dedup.filter (fun row => constraintMatches constraint row && startMatches order start row)).insertionSort
    (fun a b => compareRows order a b ≠ some .gt)

section

variable {rows : List Row} {order : QueryOrdering} {constraint : Option Constraint} {start : Option Start}

theorem mem_readRows {row : Row} : row ∈ readRows rows order constraint start ↔
      row ∈ rows ∧ constraintMatches constraint row = true ∧ startMatches order start row = true := by
  rw [readRows, mem_insertionSort, mem_filter, mem_dedup, Bool.and_eq_true]

theorem readRows_sorted (h : SortsApart order rows) :
    (readRows rows order constraint start).Pairwise (Before order) := by
  generalize hkept : rows.dedup.filter
    (fun row => constraintMatches constraint row && startMatches order start row) = kept
  have hmem : ∀ row ∈ kept, row ∈ rows := by
    intro row hrow
    rw [← hkept] at hrow
    exact mem_dedup.mp (mem_of_mem_filter hrow)
  have hnodup : kept.Nodup := hkept ▸ (nodup_dedup rows).filter _
  have hpairs := Lib.pairwise_insertionSort_of (r := fun a b : Row => compareRows order a b ≠ some .gt)
    (l := kept) ?_ ?_
  · rw [readRows, hkept]
    have hin : ∀ row, row ∈ kept.insertionSort (fun a b => compareRows order a b ≠ some .gt) → row ∈ rows :=
      fun row hrow => hmem row ((mem_insertionSort _).mp hrow)
    have hne : (kept.insertionSort (fun a b => compareRows order a b ≠ some .gt)).Pairwise (· ≠ ·) :=
      (perm_insertionSort _ _).nodup_iff.mpr hnodup
    refine (hpairs.and hne).imp_of_mem (fun {a b} ha hb hab => ?_)
    exact ((h.not_gt_iff (hin a ha) (hin b hb)).mp hab.1).resolve_left hab.2
  · intro a _ b _ hgt
    rw [not_not] at hgt
    rw [before_of_gt hgt]
    simp
  · intro a ha b hb c hc hab hbc
    rw [h.not_gt_iff (hmem a ha) (hmem b hb)] at hab
    rw [h.not_gt_iff (hmem b hb) (hmem c hc)] at hbc
    rw [h.not_gt_iff (hmem a ha) (hmem c hc)]
    rcases hab with rfl | hab
    · exact hbc
    · rcases hbc with rfl | hbc
      · exact .inr hab
      · exact .inr (hab.trans hbc)

end

/-- Tables kept in memory. -/
def Source.ofTables (tables : String → List Row) : Source where
  rows := tables
  fetch table order constraint start := readRows (tables table) order constraint start
  mem_fetch _ _ _ _ _ := mem_readRows
  sorted _ _ _ _ h := readRows_sorted h

/-! ## Nodes -/

/-- A row with its joined children. -/
inductive Node where
  | mk (row : Row) (relationships : List (String × List Node))

namespace Node

def row : Node → Row
  | .mk row _ => row

def relationships : Node → List (String × List Node)
  | .mk _ relationships => relationships

/-- A row without children. -/
def leaf (row : Row) : Node := .mk row []

/-- The children of a name, if a join has attached them. -/
def children? (node : Node) (name : String) : Option (List Node) := Assoc.get? node.relationships name

/-- Attach children under a name, in place of those already there. -/
def attach (node : Node) (name : String) (children : List Node) : Node :=
  .mk node.row (Assoc.set node.relationships name children)

@[simp]
theorem row_leaf (row : Row) : (leaf row).row = row := rfl

@[simp]
theorem children?_leaf (row : Row) (name : String) : (leaf row).children? name = none := rfl

@[simp]
theorem row_attach (node : Node) (name : String) (children : List Node) :
    (node.attach name children).row = node.row := rfl

theorem children?_attach (node : Node) (name other : String) (children : List Node) :
    (node.attach name children).children? other =
      if other = name then some children else node.children? other := Assoc.get?_set _ _ _ _

end Node

/-! ## Operators -/

/-- The lower bound of a skip. -/
structure SkipBound where
  row : Row
  exclusive : Bool

/-- The operators of a pipeline. -/
inductive Operator where
  | source (table : String) (order : QueryOrdering)
  | skip (input : Operator) (bound : SkipBound)
  | filter (input : Operator) (condition : Condition)
  | join (parent child : Operator) (parentKey childKey : List String) (name : String)
  | exist (input : Operator) (name : String) (op : ExistsOp)
  | take (input : Operator) (limit : ℕ) (partitionKey : Option (List String))
  | fanOut (input : Operator)
  | fanIn (order : QueryOrdering) (inputs : List Operator)

/-- The order of the rows an operator returns. -/
def Operator.order : Operator → QueryOrdering
  | .source _ order => order
  | .skip input _ => input.order
  | .filter input _ => input.order
  | .join parent _ _ _ _ => parent.order
  | .exist input _ _ => input.order
  | .take input _ _ => input.order
  | .fanOut input => input.order
  | .fanIn order _ => order

/-- The start a skip passes on: the later of its bound and the start asked for (`get_start`). -/
def SkipBound.start (bound : SkipBound) (order : QueryOrdering) (asked : Option Start) : Option (Option Start) :=
  let own : Start := ⟨bound.row, if bound.exclusive then .after else .at⟩
  match asked with
  | none => some (some own)
  | some asked =>
    let order := if (namedPart order bound.row).isEmpty then order else namedPart order bound.row
    (compareRows order bound.row asked.row).map (fun
      | .gt => some own
      | .eq => some (if bound.exclusive ∨ asked.basis = .after then ⟨bound.row, .after⟩ else own)
      | .lt => some asked)

/-- The constraint of the children of a row. -/
def childConstraint (parentKey childKey : List String) (row : Row) : Constraint :=
  (parentKey.zip childKey).map (fun pair => (pair.2, row.get pair.1))

/-- A constraint is on exactly the columns of a partition. -/
def constraintMatchesPartitionKey : Option Constraint → Option (List String) → Bool
  | none, none => true
  | some fields, some key => key.length = fields.length && key.all (fun column =>
      fields.any (fun entry => entry.1 = column))
  | _, _ => false

/-- The first fetch of a partition keeps the first nodes, up to the limit; a partitioned take that
is not asked for one of its partitions has none to return. -/
def takeNodes (limit : ℕ) (partitionKey : Option (List String)) (constraint : Option Constraint)
    (nodes : List Node) : Option (List Node) :=
  if partitionKey.isNone || (constraint.isSome && constraintMatchesPartitionKey constraint partitionKey) then
    if limit = 0 then some []
    else if constraintMatchesPartitionKey constraint partitionKey then some (nodes.take limit)
    else none
  else some []

/-- The nodes of runs of equal rows, the first of each run. -/
def dedupFrom (order : QueryOrdering) (last : Node) : List Node → List Node
  | [] => []
  | node :: rest =>
    if compareRows order last.row node.row = some .eq then dedupFrom order last rest
    else node :: dedupFrom order node rest

/-- The first node of each run of equal rows. -/
def dedupRuns (order : QueryOrdering) : List Node → List Node
  | [] => []
  | node :: rest => node :: dedupFrom order node rest

/-- Merge the nodes of branches: sort them, keeping the order of equal rows, and drop repeated
rows. -/
def mergeNodes (order : QueryOrdering) (nodes : List Node) : Option (List Node) :=
  if nodes.all (fun a => nodes.all (fun b => (compareRows order a.row b.row).isSome)) then
    some (dedupRuns order (nodes.insertionSort (fun a b => compareRows order a.row b.row ≠ some .gt)))
  else none

/-- Whether a node passes an existence test. -/
def passesExist (name : String) (op : ExistsOp) (node : Node) : Bool :=
  match op with
  | .exist => !((node.children? name).getD []).isEmpty
  | .notExist => ((node.children? name).getD []).isEmpty

mutual
/-- What an operator returns for a constraint and a start. A partition of a take that is fetched
again returns the same nodes (`takeUpTo_take`), so each fetch is modelled as the first. -/
def fetch (source : Source) : Operator → Option Constraint → Option Start → Option (List Node)
  | .source table order, constraint, start =>
    some ((source.fetch table order constraint start).map Node.leaf)
  | .skip input bound, constraint, start => do
    if input.order.isEmpty then none
    else fetch source input constraint (← bound.start input.order start)
  | .filter input condition, constraint, start => do
    let predicate ← createPredicate condition
    let nodes ← fetch source input constraint start
    nodes.filterM (fun node => predicate node.row)
  | .join parent child parentKey childKey name, constraint, start => do
    let nodes ← fetch source parent constraint start
    nodes.mapM (fun node => do
      let children ← fetch source child (some (childConstraint parentKey childKey node.row)) none
      return node.attach name children)
  | .exist input name op, constraint, start =>
    (fetch source input constraint start).map (fun nodes => nodes.filter (passesExist name op))
  | .take input limit partitionKey, constraint, start => do
    if input.order.isEmpty then none
    else takeNodes limit partitionKey constraint (← fetch source input constraint start)
  | .fanOut input, constraint, start => fetch source input constraint start
  | .fanIn order inputs, constraint, start => do mergeNodes order (← fetchAll source inputs constraint start)

/-- The nodes of all inputs, one input after another. -/
def fetchAll (source : Source) : List Operator → Option Constraint → Option Start → Option (List Node)
  | [], _, _ => some []
  | input :: rest, constraint, start => do
    return (← fetch source input constraint start) ++ (← fetchAll source rest constraint start)
end

/-! ## Partitions fetched again -/

/-- The nodes of a partition up to the bound its first fetch left. -/
def takeUpTo (order : QueryOrdering) (bound : Row) (nodes : List Node) : List Node :=
  nodes.takeWhile (fun node => compareRows order bound node.row ≠ some .lt)

section Merge

variable {order : QueryOrdering} {base : List Row}

theorem before_or_before (hbase : base.Pairwise (Before order)) {a b : Row} (ha : a ∈ base) (hb : b ∈ base)
    (hne : a ≠ b) : Before order a b ∨ Before order b a := by
  have hsymm : Std.Symm (fun a b : Row => Before order a b ∨ Before order b a) := ⟨fun _ _ h => h.symm⟩
  have heither : base.Pairwise (fun a b => Before order a b ∨ Before order b a) := hbase.imp .inl
  exact heither.forall ha hb hne

/-- On rows of a sorted list, not comparing greater is being equal or coming before. -/
theorem not_gt_iff (hbase : base.Pairwise (Before order))
    (hself : ∀ a ∈ base, compareRows order a a = some .eq) {a b : Row} (ha : a ∈ base) (hb : b ∈ base) :
    compareRows order a b ≠ some .gt ↔ a = b ∨ Before order a b := by
  by_cases hab : a = b
  · subst hab
    simp [hself a ha]
  · rcases before_or_before hbase ha hb hab with h | h
    · have hlt : compareRows order a b = some .lt := h
      simp [hlt, h]
    · have hgt : compareRows order a b = some .gt := by
        rw [compareRows_swap, h]
        rfl
      have hnot : ¬ Before order a b := fun h' => not_before_self order a (h'.trans h)
      simp [hgt, hab, hnot]

theorem dedupFrom_sublist (last : Node) (nodes : List Node) : (dedupFrom order last nodes).Sublist nodes := by
  induction nodes generalizing last with
  | nil => exact List.Sublist.refl _
  | cons node rest ih =>
    rw [dedupFrom]
    split
    · exact (ih last).cons _
    · exact (ih node).cons_cons _

/-- Dropping repeated rows of a sorted list leaves each row once, in order. -/
theorem dedupFrom_sorted (hself : ∀ a ∈ base, compareRows order a a = some .eq) {last : Node}
    {nodes : List Node} (hmem : ∀ node ∈ last :: nodes, node.row ∈ base)
    (hsorted : (last :: nodes).Pairwise (fun a b => a.row = b.row ∨ Before order a.row b.row)) :
    ((last :: dedupFrom order last nodes).map Node.row).Pairwise (Before order) ∧
      ∀ node ∈ nodes, node.row ∈ (last :: dedupFrom order last nodes).map Node.row := by
  induction nodes generalizing last with
  | nil => simp [dedupFrom]
  | cons node rest ih =>
    obtain ⟨hlast, htail⟩ := pairwise_cons.mp hsorted
    rw [dedupFrom]
    split
    · next heq =>
      have hsame : last.row = node.row := by
        rcases hlast node mem_cons_self with h | h
        · exact h
        · rw [h] at heq
          cases heq
      have hskip : (last :: rest).Pairwise (fun a b => a.row = b.row ∨ Before order a.row b.row) :=
        pairwise_cons.mpr ⟨fun n hn => hlast n (mem_cons_of_mem _ hn), (pairwise_cons.mp htail).2⟩
      have hin : ∀ n ∈ last :: rest, n.row ∈ base := by
        intro n hn
        rcases mem_cons.mp hn with rfl | h
        · exact hmem n mem_cons_self
        · exact hmem n (mem_cons_of_mem _ (mem_cons_of_mem _ h))
      obtain ⟨hpairs, hall⟩ := ih hin hskip
      refine ⟨hpairs, fun n hn => ?_⟩
      rcases mem_cons.mp hn with rfl | h
      · simp [hsame]
      · exact hall n h
    · next hne =>
      have hbefore : Before order last.row node.row := by
        rcases hlast node mem_cons_self with h | h
        · exact absurd (h ▸ hself last.row (hmem last mem_cons_self)) hne
        · exact h
      obtain ⟨hpairs, hall⟩ := ih (fun n hn => hmem n (mem_cons_of_mem _ hn)) htail
      refine ⟨?_, fun n hn => ?_⟩
      · rw [map_cons, pairwise_cons]
        refine ⟨fun row hrow => ?_, hpairs⟩
        rw [map_cons, mem_cons] at hrow
        rcases hrow with rfl | h
        · exact hbefore
        · exact hbefore.trans ((pairwise_cons.mp hpairs).1 row h)
      · rcases mem_cons.mp hn with rfl | h
        · simp
        · exact mem_cons_of_mem _ (hall n h)

/-- Merging branches over one sorted list returns a node of some branch for each row that occurs
in one, in order. -/
theorem mergeNodes_spec (hbase : base.Pairwise (Before order))
    (hself : ∀ a ∈ base, compareRows order a a = some .eq) {nodes : List Node}
    (hmem : ∀ node ∈ nodes, node.row ∈ base) :
    ∃ merged, mergeNodes order nodes = some merged ∧ (∀ node ∈ merged, node ∈ nodes) ∧
      merged.map Node.row = base.filter (fun row => nodes.any (fun node => node.row = row)) := by
  have hcompare : nodes.all (fun a => nodes.all (fun b => (compareRows order a.row b.row).isSome)) = true := by
    simp only [all_eq_true]
    intro a ha b hb
    by_cases hab : a.row = b.row
    · rw [hab, hself b.row (hmem b hb)]
      rfl
    · rcases before_or_before hbase (hmem a ha) (hmem b hb) hab with h | h
      · rw [h]
        rfl
      · rw [compareRows_swap, h]
        rfl
  generalize hsort : nodes.insertionSort (fun a b => compareRows order a.row b.row ≠ some .gt) = sorted
  have hin : ∀ node, node ∈ sorted ↔ node ∈ nodes := by
    intro node
    rw [← hsort]
    exact mem_insertionSort _
  have hpairs : sorted.Pairwise (fun a b => a.row = b.row ∨ Before order a.row b.row) := by
    have hle := Lib.pairwise_insertionSort_of (r := fun a b : Node => compareRows order a.row b.row ≠ some .gt)
      (l := nodes) ?_ ?_
    · rw [hsort] at hle
      exact hle.imp_of_mem (fun {a b} ha hb h =>
        (not_gt_iff hbase hself (hmem a ((hin a).mp ha)) (hmem b ((hin b).mp hb))).mp h)
    · intro a ha b hb hgt
      rw [not_not] at hgt
      rw [before_of_gt hgt]
      simp
    · intro a ha b hb c hc hab hbc
      rw [not_gt_iff hbase hself (hmem a ha) (hmem b hb)] at hab
      rw [not_gt_iff hbase hself (hmem b hb) (hmem c hc)] at hbc
      rw [not_gt_iff hbase hself (hmem a ha) (hmem c hc)]
      rcases hab with hab | hab
      · rwa [hab]
      · rcases hbc with hbc | hbc
        · exact .inr (hbc ▸ hab)
        · exact .inr (hab.trans hbc)
  refine ⟨dedupRuns order sorted, ?_, ?_, ?_⟩
  · rw [mergeNodes, if_pos hcompare, hsort]
  · intro node hnode
    cases sorted with
    | nil => simp [dedupRuns] at hnode
    | cons first rest =>
      refine (hin node).mp ?_
      rcases mem_cons.mp hnode with rfl | h
      · exact mem_cons_self
      · exact mem_cons_of_mem _ ((dedupFrom_sublist first rest).subset h)
  · cases sorted with
    | nil =>
      have hempty : ∀ node, node ∉ nodes := fun node hnode => by simpa using (hin node).mpr hnode
      rw [eq_nil_iff_forall_not_mem.mpr hempty]
      simp [dedupRuns]
    | cons first rest =>
      have hrows : ∀ node ∈ first :: rest, node.row ∈ base := fun node hnode => hmem node ((hin node).mp hnode)
      obtain ⟨hstrict, hall⟩ := dedupFrom_sorted hself hrows hpairs
      refine eq_of_sorted hstrict (hbase.filter _) (fun row => ?_)
      simp only [mem_filter, any_eq_true, decide_eq_true_eq]
      constructor
      · intro hrow
        obtain ⟨node, hnode, rfl⟩ := mem_map.mp hrow
        have hsub : node ∈ first :: rest := by
          rcases mem_cons.mp hnode with rfl | h
          · exact mem_cons_self
          · exact mem_cons_of_mem _ ((dedupFrom_sublist first rest).subset h)
        exact ⟨hrows node hsub, node, (hin node).mp hsub, rfl⟩
      · rintro ⟨-, node, hnode, rfl⟩
        rcases mem_cons.mp ((hin node).mpr hnode) with rfl | h
        · exact mem_map_of_mem mem_cons_self
        · exact hall node h

end Merge

end ZeroCache.Zql
