import ZeroCache.ViewSyncer.Rows
import ZeroCache.Zql.Correct

/-!
# Hydration through the operator graph

The rows of a query are read by building its pipeline, fetching all nodes and walking down the
children of each node (`pipeline_driver.rs`). The walk does not look at the pipeline: it works out
from the query alone under which name the children of each subquery are found. The tables are read
through a `Source`; its table of a name is the one the specification of that name describes.
-/

namespace ZeroCache.ViewSyncer

open Replica Zql List

variable {α β : Type}

/-- The order a table is read in: the order asked for, completed by the primary key. -/
def sourceOrdering (orderBy : Option QueryOrdering) (primaryKey : List String) : QueryOrdering :=
  primaryKey.foldl (fun ordering key =>
    if ordering.any (fun entry => entry.1 = key) then ordering else ordering ++ [(key, .asc)]) (orderBy.getD [])

/-- The order of the source of a table. Tables without a specification are not read. -/
def graphSourceOrder (specs : Fields SnapshotTableSpec) (table : String) (orderBy : Option QueryOrdering) :
    QueryOrdering :=
  match specs.get? table with
  | some spec => sourceOrdering orderBy spec.primaryKey
  | none => []

/-- The tables a query reads, with their orders (`referenced_sources`). -/
def referencedSources (ast : Ast) : List (String × Option QueryOrdering) :=
  foldAst (fun q => (q.table, q.orderBy) :: q.subs.flatMap Subquery.query) ast

/-- The related subqueries a walk follows: of two under one name the last one, named by its alias
or its position. -/
def relatedHops (related : List (Subquery α)) : List (Subquery α × String) :=
  (lastByKey (fun sub seen => relationshipName sub.alias_ seen) related).zipIdx.map
    (fun entry => (entry.1, relationshipName entry.1.alias_ entry.2))

/-- The subqueries of a condition a walk follows: those that must have a row, named by their
positions among all of them. -/
def existHops (formula : Formula α) : List (Subquery α × String) :=
  (formula.gather.zipIdx.filter (fun entry => entry.1.1 = .exist)).map
    (fun entry => (entry.1.2, existName formula.isCompound entry.1.2.alias_ entry.2))

/-- The subqueries of a level whose rows are collected, with the names their children are expected
under (`graph_child_hops`). -/
def graphChildHops (q : Query α) : List (Subquery α × String) :=
  relatedHops q.related ++ match q.where_ with
    | none => []
    | some formula => existHops formula

/-- The children of nodes under a name. -/
def childNodes (nodes : List Node) (name : String) : List Node :=
  nodes.flatMap (fun node => (node.children? name).getD [])

section Model

variable (env : Env) (specs : Fields SnapshotTableSpec)

/-- Hold a fetched row of a table. -/
def insertNodeRow (output : Fields MaterializedRow) (entry : String × Row) :
    Except PipelineError (Fields MaterializedRow) :=
  insertRow env entry.1 (clampRowVersion entry.2 (minRowVersionOf specs entry.1)) specs output

/-- Hold the rows of nodes and of the children below them. -/
abbrev Inserter := List Node → Fields MaterializedRow → Except PipelineError (Fields MaterializedRow)

/-- Hold the rows of one level, then those of its subqueries. -/
def insertLevel (q : Query Inserter) : Inserter := fun nodes output => do
  let output ← (nodes.map (fun node => (q.table, node.row))).foldlM (insertNodeRow env specs) output
  (graphChildHops q).foldlM (fun output hop => hop.1.query (childNodes nodes hop.2) output) output

/-- Hold all rows a hydrated graph returned for a query (`insert_graph_nodes`). -/
def insertGraphNodes (ast : Ast) : Inserter := foldAst (insertLevel env specs) ast

/-- The rows of a query, by key (`hydrate_graph_with_db`). -/
def hydrateGraph (source : Source) (ast : Ast) : Except PipelineError (Fields MaterializedRow) :=
  match (referencedSources ast).find? (fun entry => (specs.get? entry.1).isNone) with
  | some unknown => .error (.unknownTable unknown.1)
  | none =>
    match fetch source (buildPipeline (graphSourceOrder specs) ast) none none with
    | none => .error .panic
    | some roots => insertGraphNodes env specs ast roots []

end Model

/-! ## The pairs a walk collects -/

/-- The rows of nodes of one level and of the children below them, with their tables. -/
def collectLevel (q : Query (List Node → List (String × Row))) (nodes : List Node) : List (String × Row) :=
  nodes.map (fun node => (q.table, node.row)) ++
    (graphChildHops q).flatMap (fun hop => hop.1.query (childNodes nodes hop.2))

/-- The rows a walk collects, with the tables they are filed under. -/
def collected (ast : Ast) : List Node → List (String × Row) := foldAst collectLevel ast

theorem mem_referencedSources_sub {ast : Ast} {sub : Subquery Ast} (hsub : sub ∈ (queryOf ast).subs)
    {entry : String × Option QueryOrdering} (h : entry ∈ referencedSources sub.query) :
    entry ∈ referencedSources ast := by
  rw [referencedSources, foldAst_eq, Query.subs_map, flatMap_map]
  exact mem_cons_of_mem _ (mem_flatMap.mpr ⟨sub, hsub, h⟩)

theorem table_mem_referencedSources (ast : Ast) : (ast.table, ast.orderBy) ∈ referencedSources ast := by
  rw [referencedSources, foldAst_eq]
  exact mem_cons_self

variable (f : α → β)

theorem relatedHops_map (related : List (Subquery α)) :
    relatedHops (related.map (Subquery.map f)) = (relatedHops related).map (fun hop => (hop.1.map f, hop.2)) := by
  have hchosen : lastByKey (fun sub seen => relationshipName sub.alias_ seen) (related.map (Subquery.map f)) =
      (lastByKey (fun sub seen => relationshipName sub.alias_ seen) related).map (Subquery.map f) :=
    lastByKey_map (Subquery.map f) (fun _ _ => rfl) related
  rw [relatedHops, relatedHops, hchosen, zipIdx_map, map_map, map_map]
  rfl

theorem isCompound_map (f : Subquery α → Subquery β) (formula : Formula α) :
    (formula.map f).isCompound = formula.isCompound := by
  cases formula <;> rfl

theorem existHops_map (formula : Formula α) :
    existHops (formula.map (Subquery.map f)) = (existHops formula).map (fun hop => (hop.1.map f, hop.2)) := by
  rw [existHops, existHops, isCompound_map, Formula.gather_map, zipIdx_map, filter_map, map_map, map_map]
  rfl

theorem graphChildHops_eq (q : Query α) :
    graphChildHops q = relatedHops q.related ++ (q.where_.map existHops).getD [] := by
  rw [graphChildHops]
  cases q.where_ with
  | none | some => rfl

theorem graphChildHops_map (q : Query α) :
    graphChildHops (q.map f) = (graphChildHops q).map (fun hop => (hop.1.map f, hop.2)) := by
  rw [graphChildHops_eq, graphChildHops_eq, map_append, Query.map, relatedHops_map]
  cases q.where_ with
  | none => rfl
  | some formula => exact congrArg _ (existHops_map f formula)

theorem mem_subs_of_graphChildHops {q : Query α} {hop : Subquery α × String} (h : hop ∈ graphChildHops q) :
    hop.1 ∈ q.subs := by
  rcases mem_append.mp h with hmem | hmem
  · obtain ⟨entry, hentry, rfl⟩ := mem_map.mp hmem
    have hkept : entry.1 ∈ lastByKey (fun sub seen => relationshipName sub.alias_ seen) q.related := by
      rw [← zipIdx_map_fst 0 (lastByKey _ q.related)]
      exact mem_map_of_mem hentry
    exact mem_append_left _ (mem_of_mem_lastByKey hkept)
  · cases hwhere : q.where_ with
    | none => simp [hwhere] at hmem
    | some formula =>
      rw [hwhere] at hmem
      obtain ⟨entry, hentry, rfl⟩ := mem_map.mp hmem
      have hgather : q.existHops = formula.gather := by
        rw [Query.existHops, hwhere]
      refine mem_append_right _ (mem_map_of_mem ?_)
      rw [hgather, ← zipIdx_map_fst 0 formula.gather]
      exact mem_map_of_mem (mem_of_mem_filter hentry)

theorem collected_eq (ast : Ast) (nodes : List Node) :
    collected ast nodes = nodes.map (fun node => (ast.table, node.row)) ++
      (graphChildHops (queryOf ast)).flatMap (fun hop => collected hop.1.query (childNodes nodes hop.2)) := by
  rw [collected, foldAst_eq, collectLevel, graphChildHops_map, flatMap_map]
  rfl

/-- Holding the rows of a graph is holding the pairs its walk collects, one after another. -/
theorem insertGraphNodes_eq (env : Env) (specs : Fields SnapshotTableSpec) (ast : Ast) (nodes : List Node)
    (output : Fields MaterializedRow) :
    insertGraphNodes env specs ast nodes output = (collected ast nodes).foldlM (insertNodeRow env specs) output := by
  induction ast generalizing nodes output with
  | level ast ih =>
    rw [insertGraphNodes, foldAst_eq, insertLevel, collected_eq, foldlM_append, graphChildHops_map]
    refine congrArg _ (funext (fun output => ?_))
    have hhops : ∀ hops : List (Subquery Ast × String), (∀ hop ∈ hops, hop.1 ∈ (queryOf ast).subs) → ∀ output,
        (hops.map (fun hop => (hop.1.map (insertGraphNodes env specs), hop.2))).foldlM
            (fun output hop => hop.1.query (childNodes nodes hop.2) output) output =
          (hops.flatMap (fun hop => collected hop.1.query (childNodes nodes hop.2))).foldlM
            (insertNodeRow env specs) output := by
      intro hops hsubs
      induction hops with
      | nil => exact fun _ => rfl
      | cons hop rest ihrest =>
        intro output
        rw [flatMap_cons, foldlM_append]
        have hfirst := ih hop.1 (hsubs hop mem_cons_self) (childNodes nodes hop.2) output
        refine (congrArg (· >>= _) hfirst).trans (congrArg _ (funext (fun output => ?_)))
        exact ihrest (fun hop hhop => hsubs hop (mem_cons_of_mem _ hhop)) output
    exact hhops _ (fun hop hhop => mem_subs_of_graphChildHops hhop) output

theorem mem_collected {ast : Ast} {nodes : List Node} {pair : String × Row} :
    pair ∈ collected ast nodes ↔ (∃ node ∈ nodes, (ast.table, node.row) = pair) ∨
      ∃ hop ∈ graphChildHops (queryOf ast), pair ∈ collected hop.1.query (childNodes nodes hop.2) := by
  rw [collected_eq, mem_append, mem_map, mem_flatMap]

/-- What is collected from many lists of nodes is collected from one of them. -/
theorem mem_collected_flatMap {γ : Type} {ast : Ast} {items : List γ} {f : γ → List Node} {pair : String × Row} :
    pair ∈ collected ast (items.flatMap f) ↔ ∃ item ∈ items, pair ∈ collected ast (f item) := by
  induction ast generalizing items f with
  | level ast ih =>
    have hchildren : ∀ name, childNodes (items.flatMap f) name = items.flatMap (fun item => childNodes (f item) name) :=
      fun name => flatMap_assoc
    rw [mem_collected]
    constructor
    · rintro (⟨node, hnode, rfl⟩ | ⟨hop, hhop, hpair⟩)
      · obtain ⟨item, hitem, hnode⟩ := mem_flatMap.mp hnode
        exact ⟨item, hitem, mem_collected.mpr (.inl ⟨node, hnode, rfl⟩)⟩
      · rw [hchildren] at hpair
        obtain ⟨item, hitem, hmem⟩ := (ih hop.1 (mem_subs_of_graphChildHops hhop)).mp hpair
        exact ⟨item, hitem, mem_collected.mpr (.inr ⟨hop, hhop, hmem⟩)⟩
    · rintro ⟨item, hitem, hpair⟩
      rcases mem_collected.mp hpair with ⟨node, hnode, rfl⟩ | ⟨hop, hhop, hpair⟩
      · exact .inl ⟨node, mem_flatMap.mpr ⟨item, hitem, hnode⟩, rfl⟩
      · refine .inr ⟨hop, hhop, ?_⟩
        rw [hchildren]
        exact (ih hop.1 (mem_subs_of_graphChildHops hhop)).mpr ⟨item, hitem, hpair⟩

end ZeroCache.ViewSyncer
