import ZeroCache.ViewSyncer.Graph

/-!
# Hydration and the meaning of queries

The walk over a hydrated graph collects the rows a query reaches, each under its own table, when
the names it works out are those the pipeline used and no subquery that must have a row is below a
disjunction. In general it can miss rows, since merging the branches of a disjunction keeps the
children of one branch only, and it can file rows under a wrong table, since the pipeline and the
walk treat related subqueries without an alias differently.
-/

namespace ZeroCache.ViewSyncer

open Replica Zql List Option Assoc Query ExistsOp Source Prod

variable {α β : Type}

/-- The names of related subqueries, by their positions. -/
def relatedNames (related : List (Subquery α)) : List String :=
  related.zipIdx.map (fun entry => relationshipName entry.1.alias_ entry.2)

/-- The names of the subqueries of a level tell them apart. -/
structure WellNamed (q : Query α) : Prop where
  aliases : (q.related.map (fun sub => sub.alias_.getD "")).Nodup
  names : (relatedNames q.related).Nodup
  apart : ∀ formula ∈ q.where_, ∀ hop ∈ existHops formula, hop.2 ∉ relatedNames q.related

namespace WellNamed

variable {q : Query α}

theorem relatedHops_eq (h : WellNamed q) :
    relatedHops q.related = q.related.zipIdx.map (fun entry => (entry.1, relationshipName entry.1.alias_ entry.2)) := by
  have hchosen : lastByKey (fun sub seen => relationshipName sub.alias_ seen) q.related = q.related :=
    lastByKey_of_nodup h.names
  rw [relatedHops, hchosen]

theorem relatedEntries_eq (h : WellNamed q) : q.relatedEntries = relatedHops q.related := by
  have haliases : (q.related.zipIdx.map (fun entry => entry.1.alias_.getD "")).Nodup := by
    have hmap := h.aliases
    rw [← zipIdx_map_fst 0 q.related, List.map_map] at hmap
    exact hmap
  rw [h.relatedHops_eq, relatedEntries, lastByKey_of_nodup haliases]

theorem names_relatedEntries (h : WellNamed q) : q.relatedEntries.map snd = relatedNames q.related := by
  rw [h.relatedEntries_eq, h.relatedHops_eq, List.map_map]
  rfl

/-- The walk follows exactly the subqueries whose rows belong to the result. -/
theorem mem_hops_iff (h : WellNamed q) {sub : Subquery α} :
    sub ∈ q.hops ↔ ∃ name, (sub, name) ∈ graphChildHops q := by
  have hrelated : sub ∈ q.related ↔ ∃ name, (sub, name) ∈ relatedHops q.related := by
    rw [h.relatedHops_eq]
    constructor
    · intro hsub
      rw [← zipIdx_map_fst 0 q.related] at hsub
      obtain ⟨entry, hentry, rfl⟩ := mem_map.mp hsub
      exact ⟨_, mem_map_of_mem hentry⟩
    · rintro ⟨name, hmem⟩
      obtain ⟨entry, hentry, heq⟩ := mem_map.mp hmem
      cases heq
      rw [← zipIdx_map_fst 0 q.related]
      exact mem_map_of_mem hentry
  have hexist : sub ∈ (q.existHops.filter (fun hop => hop.1 = .exist)).map snd ↔
      ∃ name, (sub, name) ∈ (q.where_.map existHops).getD [] := by
    cases hwhere : q.where_ with
    | none => simp [Query.existHops, hwhere]
    | some formula =>
      have hgather : q.existHops = formula.gather.zipIdx.map fst := by
        rw [Query.existHops, hwhere, zipIdx_map_fst]
      rw [hgather, List.filter_map, List.map_map]
      constructor
      · intro hsub
        obtain ⟨entry, hentry, rfl⟩ := mem_map.mp hsub
        exact ⟨_, mem_map_of_mem hentry⟩
      · rintro ⟨name, hmem⟩
        obtain ⟨entry, hentry, heq⟩ := mem_map.mp hmem
        cases heq
        exact mem_map_of_mem hentry
  rw [hops, graphChildHops_eq, mem_append, hrelated, hexist, ← exists_or]
  simp only [mem_append]

theorem map (f : α → β) (h : WellNamed q) : WellNamed (q.map f) := by
  have hnames : relatedNames (q.map f).related = relatedNames q.related := by
    rw [relatedNames, Query.map, zipIdx_map, List.map_map]
    rfl
  constructor
  · rw [Query.map, List.map_map]
    exact h.aliases
  · rw [hnames]
    exact h.names
  · intro formula hformula hop hhop
    obtain ⟨original, horiginal, rfl⟩ := map_eq_some_iff.mp hformula
    rw [existHops_map] at hhop
    obtain ⟨hop, hmem, rfl⟩ := mem_map.mp hhop
    rw [hnames]
    exact h.apart original horiginal hop hmem

end WellNamed

/-! ## Children a walk finds -/

section Walk

variable {source : Source} {q : Query Built} {nodes : List Node} {node : Node} {hop : Subquery Built × String}

/-- A subquery of a condition among those with names as aliases. -/
theorem mem_namedExist {formula : Formula Built} (hwhere : q.where_ = some formula) (hhop : hop ∈ existHops formula) :
    (exist, hop.1.rename (some hop.2)) ∈ q.namedExist := by
  obtain ⟨entry, hentry, rfl⟩ := mem_map.mp hhop
  obtain ⟨hmem, hmust⟩ := mem_filter.mp hentry
  have hnamed : q.namedExist = namedHops formula.isCompound formula.gather 0 := by
    rw [namedExist, hwhere]
    exact formula.gather_named
  rw [hnamed]
  refine mem_map.mpr ⟨entry, hmem, ?_⟩
  rw [of_decide_eq_true hmust]

section

variable (hnodes : LevelNodes source q nodes) (hnamed : WellNamed q)

include hnodes hnamed

/-- A named subquery is a related one, whose children a node has, or one of the condition. -/
theorem children_or_namedExist (hnode : node ∈ nodes)
    (hhop : hop ∈ graphChildHops q) : node.children? hop.2 = some (childrenOf source hop.1 node.row) ∨
      hop.2 ∉ q.relatedEntries.map snd ∧ (exist, hop.1.rename (some hop.2)) ∈ q.namedExist := by
  rcases mem_append.mp hhop with hmem | hmem
  · refine .inl (hnodes.related ?_ node hnode hop ?_)
    · rw [hnamed.names_relatedEntries]
      exact hnamed.names
    · rwa [hnamed.relatedEntries_eq]
  · cases hwhere : q.where_ with
    | none => simp [hwhere] at hmem
    | some formula =>
      rw [hwhere] at hmem
      refine .inr ⟨?_, mem_namedExist hwhere hmem⟩
      rw [hnamed.names_relatedEntries]
      exact hnamed.apart formula hwhere hop hmem

/-- Under the name of a subquery a node has the children of that subquery, or none. -/
theorem children_of_hop (hnode : node ∈ nodes) (hhop : hop ∈ graphChildHops q) :
    node.children? hop.2 = none ∨ node.children? hop.2 = some (childrenOf source hop.1 node.row) := by
  rcases children_or_namedExist hnodes hnamed hnode hhop with hrelated | ⟨hapart, hown⟩
  · exact .inr hrelated
  · refine (hnodes.exist node hnode hop.2 hapart).imp_right ?_
    rintro ⟨other, hother, hname, hchildren⟩
    have hnodup : (q.namedExist.map (fun hop => hop.2.name)).Nodup := by
      unfold namedExist
      cases q.where_ with
      | none => exact nodup_nil
      | some formula => exact formula.nodup_named
    have hsame : other = (exist, hop.1.rename (some hop.2)) := inj_on_of_nodup_map hnodup hother hown hname
    rw [hchildren, hsame]
    rfl

/-- If no subquery that must have a row is below a disjunction, a node has the children of each. -/
theorem children_of_solid_hop (hunder : ∀ formula ∈ q.where_, formula.existUnderOr = false) (hnode : node ∈ nodes)
    (hhop : hop ∈ graphChildHops q) : node.children? hop.2 = some (childrenOf source hop.1 node.row) := by
  rcases children_or_namedExist hnodes hnamed hnode hhop with hrelated | ⟨hapart, hown⟩
  · exact hrelated
  · exact hnodes.solid hunder node hnode _ hown rfl hapart

end

end Walk

/-! ## Collected and reached rows -/

section Reached

variable {source : Source} {sourceOrder : String → Option QueryOrdering → QueryOrdering}

/-- The names of a query tell its subqueries apart at every level. -/
def WellNamedAll (ast : Ast) : Prop := Everywhere (fun ast => WellNamed (queryOf ast)) ast

/-- No subquery that must have a row is below a disjunction, at any level. -/
def NoExistUnderOr (ast : Ast) : Prop :=
  Everywhere (fun ast => ∀ condition ∈ ast.where_, (formulaOf condition).existUnderOr = false) ast

theorem not_mem_collected_nil (ast : Ast) (pair : String × Row) : pair ∉ collected ast [] := by
  intro hmem
  obtain ⟨item, hitem, -⟩ := (@mem_collected_flatMap Unit ast [] (fun _ => []) pair).mp hmem
  cases hitem

section

variable {ast : Ast} (hsane : Everywhere (Sane source sourceOrder) ast) (hnamed : WellNamedAll ast)

include hsane hnamed

variable {partitionKey : Option (List String)} {constraint : Option Constraint}

variable {nodes : List Node} {pair : String × Row}

/-- Every row a walk collects is reached by the query, in the table it is filed under. -/
theorem reached_of_collected
    (hpartition : ast.limit.isSome → constraintMatchesPartitionKey constraint partitionKey = true)
    (hfetch : fetch source (built sourceOrder ast partitionKey) constraint none = some nodes)
    (hpair : pair ∈ collected ast nodes) : pair ∈ (meaning source sourceOrder ast).reached constraint := by
  induction ast generalizing partitionKey constraint nodes with
  | level ast ih =>
    obtain ⟨nodes', hfetch', hrows, hnodes⟩ := fetches_of_sane hsane partitionKey constraint hpartition
    obtain rfl : nodes' = nodes := by simpa [hfetch'] using hfetch
    have hrow : ∀ node ∈ nodes', node.row ∈ (meaning source sourceOrder ast).rows constraint :=
      fun node hnode => hrows ▸ mem_map_of_mem hnode
    rcases mem_collected.mp hpair with ⟨node, hnode, rfl⟩ | ⟨hop, hhop, hmem⟩
    · exact mem_reached.mpr ⟨node.row, hrow node hnode, .inl rfl⟩
    · obtain ⟨node, hnode, hchild⟩ := mem_collected_flatMap.mp hmem
      have hsub := mem_subs_of_graphChildHops hhop
      have hbuilt : (hop.1.map (built sourceOrder), hop.2) ∈ graphChildHops ((queryOf ast).map (built sourceOrder)) := by
        rw [graphChildHops_map]
        exact mem_map_of_mem hhop
      rcases children_of_hop hnodes (hnamed.level.map _) hnode hbuilt with hnone | hsome
      · rw [hnone] at hchild
        exact absurd hchild (not_mem_collected_nil hop.1.query pair)
      · rw [hsome] at hchild
        have hfetches := fetches_of_sane (hsane.sub hsub)
        have hkeyed := hsane.level.keyed hop.1 hsub
        obtain ⟨children, hchildren, -⟩ := hfetches.children hkeyed node.row
        have hsome' : childrenOf source (hop.1.map (built sourceOrder)) node.row = children := by
          rw [childrenOf, hchildren]
          rfl
        rw [hsome'] at hchild
        refine mem_reached.mpr ⟨node.row, hrow node hnode, .inr ⟨hop.1, ?_, ?_⟩⟩
        · exact hnamed.level.mem_hops_iff.mpr ⟨hop.2, hhop⟩
        · exact ih hop.1 hsub (hsane.sub hsub) (hnamed.sub hsub)
            (fun hlimit => constraint_matches node.row (hkeyed hlimit)) hchildren hchild

/-- Every row a query reaches is collected, if no subquery that must have a row is below a
disjunction. -/
theorem collected_of_reached (hunder : NoExistUnderOr ast)
    (hpartition : ast.limit.isSome → constraintMatchesPartitionKey constraint partitionKey = true)
    (hfetch : fetch source (built sourceOrder ast partitionKey) constraint none = some nodes)
    (hpair : pair ∈ (meaning source sourceOrder ast).reached constraint) : pair ∈ collected ast nodes := by
  induction ast generalizing partitionKey constraint nodes with
  | level ast ih =>
    obtain ⟨nodes', hfetch', hrows, hnodes⟩ := fetches_of_sane hsane partitionKey constraint hpartition
    obtain rfl : nodes' = nodes := by simpa [hfetch'] using hfetch
    obtain ⟨row, hrow, hpair⟩ := mem_reached.mp hpair
    rw [← hrows] at hrow
    obtain ⟨node, hnode, rfl⟩ := mem_map.mp hrow
    rcases hpair with rfl | ⟨sub, hsub, hpair⟩
    · exact mem_collected.mpr (.inl ⟨node, hnode, rfl⟩)
    · obtain ⟨name, hhop⟩ := hnamed.level.mem_hops_iff.mp hsub
      have hsub := mem_subs_of_graphChildHops hhop
      have hbuilt : (sub.map (built sourceOrder), name) ∈ graphChildHops ((queryOf ast).map (built sourceOrder)) := by
        rw [graphChildHops_map]
        exact mem_map_of_mem hhop
      have hkeyed := hsane.level.keyed sub hsub
      obtain ⟨children, hchildren, -⟩ := (fetches_of_sane (hsane.sub hsub)).children hkeyed node.row
      have hfound : node.children? name = some children := by
        rw [children_of_solid_hop hnodes (hnamed.level.map _) ?_ hnode hbuilt, childrenOf, hchildren]
        · rfl
        · intro formula hformula
          simp only [queryOf, Query.map, mem_def, Option.map_map, map_eq_some_iff] at hformula
          obtain ⟨condition, hcondition, rfl⟩ := hformula
          exact (Formula.existUnderOr_map _ _).trans (hunder.level condition hcondition)
      have hchild := ih sub hsub (hsane.sub hsub) (hnamed.sub hsub) (hunder.sub hsub)
        (fun hlimit => constraint_matches node.row (hkeyed hlimit)) hchildren hpair
      refine mem_collected.mpr (.inr ⟨(sub, name), hhop, mem_collected_flatMap.mpr ⟨node, hnode, ?_⟩⟩)
      rw [hfound]
      exact hchild

end

end Reached

variable {pair : String × Row}

theorem table_of_collected {ast : Ast} {nodes : List Node} (h : pair ∈ collected ast nodes) :
    ∃ entry ∈ referencedSources ast, entry.1 = pair.1 := by
  induction ast generalizing nodes with
  | level ast ih =>
    rw [referencedSources, foldAst_eq]
    rcases mem_collected.mp h with ⟨node, -, rfl⟩ | ⟨hop, hhop, hpair⟩
    · exact ⟨_, mem_cons_self, rfl⟩
    · have hsub := mem_subs_of_graphChildHops hhop
      obtain ⟨entry, hentry, htable⟩ := ih hop.1 hsub hpair
      refine ⟨entry, mem_cons_of_mem _ ?_, htable⟩
      rw [subs_map, flatMap_map]
      exact mem_flatMap.mpr ⟨hop.1, hsub, hentry⟩

/-! ## Held rows -/

section Held

variable (env : Env) (specs : Fields SnapshotTableSpec)

/-- A row as it is shown, with its version raised to the least of its table. -/
def shown (pair : String × Row) : String × Row := (pair.1, clampRowVersion pair.2 (minRowVersionOf specs pair.1))

/-- A row as it is held. -/
def heldRow (pair : String × Row) : MaterializedRow :=
  { table := pair.1
    row := (shown specs pair).2
    rowKey := ((specs.get? pair.1).map (fun spec => rowKeyOf spec (shown specs pair).2)).getD [] }

/-- Hold rows one after another. -/
def holdAll (output : Fields MaterializedRow) (pairs : List (String × Row)) : Fields MaterializedRow :=
  pairs.foldl (fun output pair => output.set (materializedKey env (heldRow specs pair)) (heldRow specs pair)) output

/-- The keys of the rows of a database tell them apart. -/
def KeysApart (source : Source) : Prop :=
  ∀ pair other : String × Row, pair.2 ∈ source.rows pair.1 → other.2 ∈ source.rows other.1 →
    materializedKey env (heldRow specs pair) = materializedKey env (heldRow specs other) → pair = other

/-- Hydration holds exactly the rows a query reaches, each under its own table. -/
def HydratesMeaning (source : Source) (ast : Ast) : Prop :=
  ∃ output, hydrateGraph env specs source ast = .ok output ∧ ∀ table row,
    (∃ key entry, output.get? key = some entry ∧ entry.table = table ∧ entry.row = row) ↔
      (table, row) ∈ ((meaning source (graphSourceOrder specs) ast).reached none).map (shown specs)

variable {env specs}

theorem insertNodeRow_eq {pair : String × Row} (h : (specs.get? pair.1).isSome) (output : Fields MaterializedRow) :
    insertNodeRow env specs output pair =
      .ok (output.set (materializedKey env (heldRow specs pair)) (heldRow specs pair)) := by
  obtain ⟨spec, hspec⟩ := isSome_iff_exists.mp h
  simp only [insertNodeRow, insertRow, materializedRow, hspec, heldRow]
  rfl

section

variable {pairs : List (String × Row)}

theorem foldlM_insertNodeRow (h : ∀ pair ∈ pairs, (specs.get? pair.1).isSome) (output : Fields MaterializedRow) :
    pairs.foldlM (insertNodeRow env specs) output = .ok (holdAll env specs output pairs) := by
  induction pairs generalizing output with
  | nil => rfl
  | cons pair rest ih =>
    rw [foldlM_cons, insertNodeRow_eq (h pair mem_cons_self)]
    exact ih (fun other hother => h other (mem_cons_of_mem _ hother)) _

/-- Holding rows whose keys tell them apart holds all of them. -/
theorem held_iff {source : Source} (hkeys : KeysApart env specs source)
    (hrows : ∀ pair ∈ pairs, pair.2 ∈ source.rows pair.1) (table : String) (row : Row) :
    (∃ key entry, (holdAll env specs [] pairs).get? key = some entry ∧ entry.table = table ∧ entry.row = row) ↔
      (table, row) ∈ pairs.map (shown specs) := by
  have hvalues : ∀ pair ∈ pairs, ∀ other ∈ pairs,
      materializedKey env (heldRow specs pair) = materializedKey env (heldRow specs other) →
        heldRow specs pair = heldRow specs other :=
    fun pair hpair other hother heq => congrArg _ (hkeys pair other (hrows pair hpair) (hrows other hother) heq)
  have hget : ∀ key, (holdAll env specs [] pairs).get? key =
      (pairs.find? (fun pair => materializedKey env (heldRow specs pair) = key)).map (heldRow specs) := by
    intro key
    rw [holdAll, get?_foldl_set (fun pair => materializedKey env (heldRow specs pair)) (heldRow specs) []
      hvalues, get?_nil, or_none]
  simp only [hget, map_eq_some_iff, List.mem_map]
  constructor
  · rintro ⟨key, entry, ⟨pair, hfind, rfl⟩, rfl, rfl⟩
    exact ⟨pair, mem_of_find?_eq_some hfind, rfl⟩
  · rintro ⟨pair, hpair, heq⟩
    have hfound : (pairs.find? (fun other =>
        materializedKey env (heldRow specs other) = materializedKey env (heldRow specs pair))).isSome := by
      rw [find?_isSome]
      exact ⟨pair, hpair, by simp⟩
    obtain ⟨other, hother⟩ := isSome_iff_exists.mp hfound
    have hsame : other = pair := hkeys other pair (hrows other (mem_of_find?_eq_some hother)) (hrows pair hpair)
      (by simpa using find?_some hother)
    subst hsame
    cases heq
    exact ⟨_, _, ⟨other, hother, rfl⟩, rfl, rfl⟩

theorem mem_of_get?_holdAll {output : Fields MaterializedRow} {key : String}
    {entry : MaterializedRow} (h : (holdAll env specs output pairs).get? key = some entry) :
    output.get? key = some entry ∨ ∃ pair ∈ pairs, entry = heldRow specs pair := by
  induction pairs generalizing output with
  | nil => exact .inl h
  | cons pair rest ih =>
    rcases ih h with hbefore | ⟨other, hother, heq⟩
    · rw [get?_set] at hbefore
      split_ifs at hbefore with hkey
      · exact .inr ⟨pair, mem_cons_self, by simpa using hbefore.symm⟩
      · exact .inl hbefore
    · exact .inr ⟨other, mem_cons_of_mem _ hother, heq⟩

end

variable {source : Source} {ast : Ast}

/-- Every row hydration holds is one the query reaches. -/
theorem reached_of_hydrated {output : Fields MaterializedRow}
    (hsane : Everywhere (Sane source (graphSourceOrder specs)) ast) (hnamed : WellNamedAll ast)
    (houtput : hydrateGraph env specs source ast = .ok output) {key : String} {entry : MaterializedRow}
    (hentry : output.get? key = some entry) :
    ∃ pair ∈ (meaning source (graphSourceOrder specs) ast).reached none, entry = heldRow specs pair := by
  obtain ⟨nodes, hfetch, -, -⟩ := fetches_of_sane hsane none none (fun _ => rfl)
  cases hunknown : (referencedSources ast).find? (fun entry => (specs.get? entry.1).isNone) with
  | some => simp [hydrateGraph, hunknown] at houtput
  | none =>
    have htables : ∀ pair ∈ collected ast nodes, (specs.get? pair.1).isSome := by
      intro pair hpair
      obtain ⟨source, hsource, htable⟩ := table_of_collected hpair
      have hknown := find?_eq_none.mp hunknown source hsource
      rw [← htable]
      simpa [isSome_iff_ne_none] using hknown
    rw [hydrateGraph, hunknown, buildPipeline] at houtput
    rw [built] at hfetch
    rw [hfetch] at houtput
    have hheld : Except.ok (holdAll env specs [] (collected ast nodes)) = Except.ok output :=
      ((insertGraphNodes_eq env specs ast nodes []).trans (foldlM_insertNodeRow htables [])).symm.trans houtput
    cases hheld
    rcases mem_of_get?_holdAll hentry with hnil | ⟨pair, hpair, heq⟩
    · cases hnil
    · exact ⟨pair, reached_of_collected hsane hnamed (fun _ => rfl) hfetch hpair, heq⟩

/-- Hydration returns and holds, one after another, rows that are those the query reaches. -/
theorem hydrateGraph_reached (env : Env) (hknown : ∀ entry ∈ referencedSources ast, (specs.get? entry.1).isSome)
    (hsane : Everywhere (Sane source (graphSourceOrder specs)) ast) (hnamed : WellNamedAll ast)
    (hunder : NoExistUnderOr ast) : ∃ pairs, hydrateGraph env specs source ast = .ok (holdAll env specs [] pairs) ∧
      ∀ pair, pair ∈ pairs ↔ pair ∈ (meaning source (graphSourceOrder specs) ast).reached none := by
  have hroot : ast.limit.isSome → constraintMatchesPartitionKey none none = true := fun _ => rfl
  obtain ⟨nodes, hfetch, -, -⟩ := fetches_of_sane hsane none none hroot
  have htables : ∀ pair ∈ collected ast nodes, (specs.get? pair.1).isSome := by
    intro pair hpair
    obtain ⟨entry, hentry, htable⟩ := table_of_collected hpair
    exact htable ▸ hknown entry hentry
  have hnone : (referencedSources ast).find? (fun entry => (specs.get? entry.1).isNone) = none := by
    rw [find?_eq_none]
    intro entry hentry
    simpa using isSome_iff_ne_none.mp (hknown entry hentry)
  refine ⟨collected ast nodes, ?_, fun pair => ?_⟩
  · rw [built] at hfetch
    rw [hydrateGraph, hnone, buildPipeline, hfetch]
    exact (insertGraphNodes_eq env specs ast nodes []).trans (foldlM_insertNodeRow htables [])
  · exact ⟨reached_of_collected hsane hnamed hroot hfetch, collected_of_reached hsane hnamed hunder hroot hfetch⟩

end Held

/-! ## Issues with comments and labels -/

def trackerSpec (table : String) : SnapshotTableSpec := ⟨table, ["id", "issue"], [], ["id"], [], none⟩

def trackerSpecs : Fields SnapshotTableSpec :=
  [("issue", trackerSpec "issue"), ("comment", trackerSpec "comment"), ("label", trackerSpec "label")]

def trackerRow (id issue : String) : Row := [("id", .string id), ("issue", .string issue)]

/-- One issue with one comment and one label. -/
def trackerTables (table : String) : List Row :=
  if table = "issue" then [trackerRow "i" ""]
  else if table = "comment" then [trackerRow "c" "i"]
  else if table = "label" then [trackerRow "l" "i"]
  else []

/-- The rows of a table that belong to an issue. -/
def ofIssue (table : String) (alias_ : Option String) : CorrelatedSubquery :=
  .mk ⟨["id"], ["issue"]⟩ (.mk none table alias_ none [] none none none) none none

/-- The issue must have a row in a table. -/
def hasRowIn (table : String) : Condition :=
  .correlatedSubquery (ofIssue table (some table)) .exist none none none

/-- Issues that satisfy a condition, with related rows. -/
def issuesWith (condition : Option Condition) (related : List CorrelatedSubquery) : Ast :=
  .mk none "issue" none condition related none none none

/-- A query with one related table and a condition on another. -/
def commentsOfLabelled : Ast := issuesWith (some (.and [hasRowIn "label"])) [ofIssue "comment" (some "comments")]

theorem sortsApart_singleton {order : QueryOrdering} {row : Row} (h : compareRows order row row = some .eq) :
    SortsApart order [row] := by
  intro a ha b hb
  rw [mem_singleton.mp ha, mem_singleton.mp hb]
  exact ⟨.eq, h, fun _ => rfl⟩

variable {table : String} {alias_ : Option String}

/-- A subquery without a condition is sane if the order of its table tells the rows apart. -/
theorem saneLeaf (h : SortsApart (graphSourceOrder trackerSpecs table none) (trackerTables table)) :
    Sane (ofTables trackerTables) (graphSourceOrder trackerSpecs) (ofIssue table alias_).subquery := by
  refine ⟨by simp [ofIssue, CorrelatedSubquery.subquery, Ast.start, Ast.limit], h, ?_, ?_, ?_⟩
  · exact fun condition hcondition => by cases hcondition
  · exact fun condition hcondition => by cases hcondition
  · exact fun sub hsub => by cases hsub

/-- The rows of the tracker with their tables. -/
def trackerPairs : List (String × Row) :=
  [("issue", trackerRow "i" ""), ("comment", trackerRow "c" "i"), ("label", trackerRow "l" "i")]

theorem mem_trackerTables (h : pair.2 ∈ trackerTables pair.1) : pair ∈ trackerPairs := by
  cases pair
  unfold trackerTables at h
  split_ifs at h with hissue hcomment hlabel
  · simp_all [trackerPairs]
  · simp_all [trackerPairs]
  · simp_all [trackerPairs]
  · cases h

theorem keysApart_tracker : KeysApart textKeyEnv trackerSpecs (ofTables trackerTables) := by
  have hall : ∀ pair ∈ trackerPairs, ∀ other ∈ trackerPairs, materializedKey textKeyEnv (heldRow trackerSpecs pair) =
      materializedKey textKeyEnv (heldRow trackerSpecs other) → pair = other := by
    decide
  exact fun pair other hpair hother => hall pair (mem_trackerTables hpair) other (mem_trackerTables hother)

theorem subs_commentsOfLabelled : (queryOf commentsOfLabelled).subs =
    [subOf (ofIssue "comment" (some "comments")), subOf (ofIssue "label" (some "label"))] := rfl

variable {P : Ast → Prop}

/-- A property of the query of comments and of its two subqueries. -/
theorem everywhere_commentsOfLabelled (hroot : P commentsOfLabelled)
    (hcomment : Everywhere P (ofIssue "comment" (some "comments")).subquery)
    (hlabel : Everywhere P (ofIssue "label" (some "label")).subquery) : Everywhere P commentsOfLabelled := by
  refine .intro _ hroot (fun sub hsub => ?_)
  rw [subs_commentsOfLabelled, mem_cons, mem_singleton] at hsub
  rcases hsub with rfl | rfl
  · exact hcomment
  · exact hlabel

/-- A property of a subquery without subqueries. -/
theorem everywhere_leaf (h : P (ofIssue table alias_).subquery) : Everywhere P (ofIssue table alias_).subquery :=
  .intro _ h (fun _ hsub => by cases hsub)

theorem sane_commentsOfLabelled :
    Everywhere (Sane (ofTables trackerTables) (graphSourceOrder trackerSpecs)) commentsOfLabelled := by
  refine everywhere_commentsOfLabelled ⟨by simp [commentsOfLabelled, issuesWith, Ast.start, Ast.limit],
    sortsApart_singleton (by decide), ?_, ?_, ?_⟩ (everywhere_leaf ?_) (everywhere_leaf ?_)
  · intro condition hcondition simple hsimple
    cases hcondition
    cases hsimple
  · intro condition hcondition
    cases hcondition
    decide
  · intro sub hsub _
    rw [subs_commentsOfLabelled, mem_cons, mem_singleton] at hsub
    rcases hsub with rfl | rfl
    · exact le_refl 1
    · exact le_refl 1
  · exact saneLeaf (sortsApart_singleton (by decide))
  · exact saneLeaf (sortsApart_singleton (by decide))

theorem wellNamed_commentsOfLabelled : WellNamedAll commentsOfLabelled := by
  refine everywhere_commentsOfLabelled ⟨by decide, by decide, ?_⟩
    (everywhere_leaf ⟨by decide, by decide, ?_⟩) (everywhere_leaf ⟨by decide, by decide, ?_⟩)
  · intro formula hformula
    cases hformula
    decide
  · exact fun formula hformula => by cases hformula
  · exact fun formula hformula => by cases hformula

/-- Of an issue with a comment and a label, the branch that finds the comment is kept. -/
theorem hydrateGraph_branches : hydrateGraph textKeyEnv trackerSpecs (ofTables trackerTables)
    (issuesWith (some (.or [hasRowIn "comment", hasRowIn "label"])) []) =
      .ok [("issue:i", ⟨"issue", trackerRow "i" "", [("id", .string "i")]⟩),
        ("comment:c", ⟨"comment", trackerRow "c" "i", [("id", .string "c")]⟩)] := by
  rfl

-- Without aliases the pipeline joins only the labels, and the walk files them under the comments.
example : hydrateGraph textKeyEnv trackerSpecs (Source.ofTables trackerTables)
    (issuesWith none [ofIssue "comment" none, ofIssue "label" none]) =
      .ok [("issue:i", ⟨"issue", trackerRow "i" "", [("id", .string "i")]⟩),
        ("comment:l", ⟨"comment", trackerRow "l" "i", [("id", .string "l")]⟩)] := by
  rfl

end ZeroCache.ViewSyncer
