import ZeroCache.Lib.Result
import ZeroCache.Zql.Meaning
import Mathlib.Data.List.Flatten

/-!
# What a built condition returns

A stage of a pipeline takes nodes over the rows of one table, keeps those whose rows pass a test
and attaches children to them. `applyWhere_stage` shows that the operators built for a condition
are a stage that tests it. Each subquery that is not below a disjunction has its children attached
to every node that is left; of the others a node may have the children or not, since merging the
branches of a disjunction keeps one node of each row.
-/

namespace ZeroCache.Zql

open List Option Subquery Node Formula Prod Function

variable {α : Type}

/-! ## Children -/

/-- What fetching a subquery returns for a row of its parent. -/
def fetched (source : Source) (sub : Subquery Built) (row : Row) : Option (List Node) :=
  fetch source (sub.query (some sub.correlation.childField)) (sub.constraint row) none

/-- The children of a row under a subquery. -/
def childrenOf (source : Source) (sub : Subquery Built) (row : Row) : List Node :=
  (fetched source sub row).getD []

/-- An existence test by the children of a row. -/
def existFetched (source : Source) (op : ExistsOp) (sub : Subquery Built) (row : Row) : Bool :=
  match op with
  | .exist => !(childrenOf source sub row).isEmpty
  | .notExist => (childrenOf source sub row).isEmpty

/-- A subquery can be fetched for every row of a list. -/
def FetchedOn (source : Source) (rows : List Row) (sub : Subquery Built) : Prop :=
  ∀ row ∈ rows, (fetched source sub row).isSome

theorem FetchedOn.eq_some {source : Source} {rows : List Row} {sub : Subquery Built} (h : FetchedOn source rows sub)
    {row : Row} (hrow : row ∈ rows) : fetched source sub row = some (childrenOf source sub row) := by
  obtain ⟨children, hchildren⟩ := isSome_iff_exists.mp (h row hrow)
  rw [childrenOf, hchildren]
  rfl

/-- The name of a subquery with an alias. -/
def Subquery.name (sub : Subquery α) : String := sub.alias_.getD ""

theorem Subquery.relationshipName_eq {sub : Subquery α} (h : sub.alias_.isSome) (index : ℕ) :
    relationshipName sub.alias_ index = sub.name := by
  obtain ⟨name, hname⟩ := isSome_iff_exists.mp h
  rw [Subquery.name, hname]
  rfl

/-- A node with the children of subqueries attached, each under the name it comes with. -/
def joined (source : Source) (subs : List (Subquery Built × String)) (node : Node) : Node :=
  subs.foldl (fun node entry => node.attach entry.2 (childrenOf source entry.1 node.row)) node

section Joined

variable {source : Source} {subs : List (Subquery Built × String)} (node : Node)

@[simp]
theorem row_joined : (joined source subs node).row = node.row := by
  induction subs generalizing node with
  | nil => rfl
  | cons entry rest ih =>
    exact ih _

theorem children?_joined_of_not_mem {name : String} (h : name ∉ subs.map snd) :
    (joined source subs node).children? name = node.children? name := by
  induction subs generalizing node with
  | nil => rfl
  | cons entry rest ih =>
    rw [map_cons, mem_cons, not_or] at h
    refine (ih _ h.2).trans ?_
    rw [children?_attach, if_neg h.1]

theorem children?_joined (source : Source) (node : Node) (hnames : (subs.map snd).Nodup)
    {sub : Subquery Built} {name : String} (h : (sub, name) ∈ subs) :
    (joined source subs node).children? name = some (childrenOf source sub node.row) := by
  induction subs generalizing node with
  | nil => cases h
  | cons entry rest ih =>
    rw [map_cons, nodup_cons] at hnames
    rcases mem_cons.mp h with rfl | hrest
    · refine (children?_joined_of_not_mem _ hnames.1).trans ?_
      rw [children?_attach, if_pos rfl]
    · exact (ih _ hnames.2 hrest).trans (by rw [row_attach])

theorem children?_joined_cases (name : String) :
    (joined source subs node).children? name = node.children? name ∨ ∃ sub, (sub, name) ∈ subs ∧
        (joined source subs node).children? name = some (childrenOf source sub node.row) := by
  induction subs generalizing node with
  | nil => exact .inl rfl
  | cons entry rest ih =>
    rcases ih (node.attach entry.2 (childrenOf source entry.1 node.row)) with h | ⟨sub, hsub, h⟩
    · by_cases hname : name = entry.2
      · refine .inr ⟨entry.1, ?_, h.trans ?_⟩
        · rw [hname]
          exact mem_cons_self
        · rw [children?_attach, if_pos hname]
      · refine .inl (h.trans ?_)
        rw [children?_attach, if_neg hname]
    · exact .inr ⟨sub, mem_cons_of_mem _ hsub, h⟩

end Joined

/-! ## Single operators -/

section Operators

variable {source : Source} {constraint : Option Constraint} {start : Option Start} {rows : List Row}
  {input : Operator} {nodes : List Node}

theorem fetch_joinSub {sub : Subquery Built} (name : String) (hsub : FetchedOn source rows sub)
    (hrows : ∀ node ∈ nodes, node.row ∈ rows) (h : fetch source input constraint start = some nodes) :
    fetch source (joinSub input sub name) constraint start =
      some (nodes.map (fun node => node.attach name (childrenOf source sub node.row))) := by
  rw [joinSub, fetch, h]
  refine Lib.mapM_eq_some (fun node hnode => ?_)
  have hchildren := hsub.eq_some (hrows node hnode)
  rw [fetched, Subquery.constraint] at hchildren
  rw [hchildren]
  rfl

/-- Joining named subqueries attaches their children to every node. -/
theorem fetch_foldl_joinSub {entries : List (Subquery Built × String)}
    (hsubs : ∀ entry ∈ entries, FetchedOn source rows entry.1)
    (hrows : ∀ node ∈ nodes, node.row ∈ rows) (h : fetch source input constraint start = some nodes) :
    fetch source (entries.foldl (fun input entry => joinSub input entry.1 entry.2) input) constraint start =
      some (nodes.map (joined source entries)) := by
  induction entries generalizing input nodes with
  | nil => exact h.trans (congrArg some (map_id nodes).symm)
  | cons entry rest ih =>
    have hfirst := fetch_joinSub entry.2 (hsubs entry mem_cons_self) hrows h
    have hrows' : ∀ node ∈ nodes.map (fun node => node.attach entry.2 (childrenOf source entry.1 node.row)),
        node.row ∈ rows := by
      intro node hnode
      obtain ⟨node, hmem, rfl⟩ := mem_map.mp hnode
      exact hrows node hmem
    rw [foldl_cons, ih (fun e he => hsubs e (mem_cons_of_mem _ he)) hrows' hfirst, List.map_map]
    rfl

theorem joinSubs_eq (input : Operator) (subs : List (Subquery Built)) :
    joinSubs input subs = (subs.zipIdx.map (fun entry => (entry.1, relationshipName entry.1.alias_ entry.2))).foldl
      (fun input entry => joinSub input entry.1 entry.2) input := by
  rw [joinSubs, foldl_map]

theorem fetch_foldl_exist {entries : List (ExistsOp × String)}
    (h : fetch source input constraint start = some nodes) :
    fetch source (entries.foldl (fun input entry => .exist input entry.2 entry.1) input) constraint start =
      some (nodes.filter (fun node => entries.all (fun entry => passesExist entry.2 entry.1 node))) := by
  induction entries generalizing input nodes with
  | nil => simpa using h
  | cons entry rest ih =>
    have hfirst : fetch source (.exist input entry.2 entry.1) constraint start =
        some (nodes.filter (passesExist entry.2 entry.1)) := by
      rw [fetch, h]
      rfl
    rw [foldl_cons, ih hfirst, List.filter_filter]
    simp only [all_cons, Bool.and_comm]

theorem existSubs_eq (input : Operator) (hops : List (ExistsOp × Subquery Built)) : existSubs input hops =
      (hops.zipIdx.map (fun entry => (entry.1.1, relationshipName entry.1.2.alias_ entry.2))).foldl
        (fun input entry => .exist input entry.2 entry.1) input := by
  rw [existSubs, foldl_map]

theorem fetch_filter {condition : Condition} {property : Row → Bool} (htests : Tests rows condition property)
    (hrows : ∀ node ∈ nodes, node.row ∈ rows) (h : fetch source input constraint start = some nodes) :
    fetch source (.filter input condition) constraint start =
      some (nodes.filter (fun node => property node.row)) := by
  obtain ⟨test, hbuild, htest⟩ := htests
  rw [fetch, hbuild, h]
  exact Lib.filterM_eq_some (fun node hnode => htest node.row (hrows node hnode))

end Operators

/-! ## Stages -/

/-- Nodes after a stage: those whose rows pass its test, each with children of its subqueries
attached; those of the solid ones are attached to every node. -/
structure Stage (source : Source) (test : Row → Bool) (hops solid : List (Subquery Built))
    (nodes nodes' : List Node) : Prop where
  rows_eq : nodes'.map Node.row = (nodes.map Node.row).filter test
  origin : ∀ node' ∈ nodes', ∃ node ∈ nodes, node'.row = node.row ∧ ∀ name,
    node'.children? name = node.children? name ∨
      ∃ sub ∈ hops, sub.name = name ∧ node'.children? name = some (childrenOf source sub node.row)
  solid : ∀ node' ∈ nodes', ∀ sub ∈ solid,
    node'.children? sub.name = some (childrenOf source sub node'.row)

namespace Stage

variable {source : Source} {test test' : Row → Bool} {hops hops' solid solid' : List (Subquery Built)}
  {nodes nodes' nodes'' : List Node}

theorem refl (source : Source) (nodes : List Node) : Stage source (fun _ => true) [] [] nodes nodes where
  rows_eq := by simp
  origin := fun node hnode => ⟨node, hnode, rfl, fun _ => .inl rfl⟩
  solid := by simp

section

variable (h : Stage source test hops solid nodes nodes')

include h

theorem mem_rows {rows : List Row} (hrows : ∀ node ∈ nodes, node.row ∈ rows) : ∀ node ∈ nodes', node.row ∈ rows := by
  intro node' hnode'
  obtain ⟨node, hnode, hrow, -⟩ := h.origin node' hnode'
  rw [hrow]
  exact hrows node hnode

theorem mono (htest : ∀ node ∈ nodes, test' node.row = test node.row)
    (hhops : hops ⊆ hops') (hsolid : solid' ⊆ solid) : Stage source test' hops' solid' nodes nodes' where
  rows_eq := by
    rw [h.rows_eq]
    refine filter_congr (fun row hrow => ?_)
    obtain ⟨node, hnode, rfl⟩ := mem_map.mp hrow
    exact (htest node hnode).symm
  origin := by
    intro node' hnode'
    obtain ⟨node, hnode, hrow, hname⟩ := h.origin node' hnode'
    refine ⟨node, hnode, hrow, fun name => (hname name).imp_right ?_⟩
    rintro ⟨sub, hsub, heq⟩
    exact ⟨sub, hhops hsub, heq⟩
  solid := fun node' hnode' sub hsub => h.solid node' hnode' sub (hsolid hsub)

/-- One stage after another, where the second does not attach under the names of the first. -/
theorem trans (h' : Stage source test' hops' solid' nodes' nodes'')
    (hnames : ∀ sub ∈ solid, ∀ sub' ∈ hops', sub.name ≠ sub'.name) :
    Stage source (fun row => test row && test' row) (hops ++ hops') (solid ++ solid') nodes nodes'' where
  rows_eq := by
    rw [h'.rows_eq, h.rows_eq, List.filter_filter]
    simp only [Bool.and_comm]
  origin := by
    intro node'' hnode''
    obtain ⟨node', hnode', hrow', hname'⟩ := h'.origin node'' hnode''
    obtain ⟨node, hnode, hrow, hname⟩ := h.origin node' hnode'
    refine ⟨node, hnode, hrow'.trans hrow, fun name => ?_⟩
    rcases hname' name with heq | ⟨sub, hsub, hsame, heq⟩
    · rw [heq]
      rcases hname name with heq | ⟨sub, hsub, hsame, heq⟩
      · exact .inl heq
      · exact .inr ⟨sub, mem_append_left _ hsub, hsame, heq⟩
    · exact .inr ⟨sub, mem_append_right _ hsub, hsame, by rw [heq, hrow]⟩
  solid := by
    intro node'' hnode'' sub hsub
    rcases mem_append.mp hsub with hmem | hmem
    · obtain ⟨node', hnode', hrow', hname'⟩ := h'.origin node'' hnode''
      rcases hname' sub.name with heq | ⟨sub', hsub', hsame, -⟩
      · rw [heq, h.solid node' hnode' sub hmem, hrow']
      · exact absurd hsame.symm (hnames sub hmem sub' hsub')
    · exact h'.solid node'' hnode'' sub hmem

end

end Stage

/-! ## Conditions without correlated subqueries below a disjunction -/

/-- What building a condition over the rows of a table relies on: its subqueries have different
names and can be fetched, and its comparisons can be evaluated. -/
structure Ready (source : Source) (rows : List Row) (formula : Formula Built) : Prop where
  named : ∀ hop ∈ formula.gather, hop.2.alias_.isSome
  names : (formula.gather.map (fun hop => hop.2.name)).Nodup
  evaluable : formula.EvaluableOn rows
  kept : formula.armsKept = true
  fetched : ∀ hop ∈ formula.gather, FetchedOn source rows hop.2

theorem named_zipIdx {γ : Type} {entries : List γ} (sub : γ → Subquery Built)
    (hnamed : ∀ entry ∈ entries, (sub entry).alias_.isSome) :
    entries.zipIdx.map (fun entry => (entry.1, relationshipName (sub entry.1).alias_ entry.2)) =
      entries.map (fun entry => (entry, (sub entry).name)) := by
  have hstep : entries.zipIdx.map (fun entry => (entry.1, relationshipName (sub entry.1).alias_ entry.2)) =
      entries.zipIdx.map (fun entry => (entry.1, (sub entry.1).name)) := by
    refine map_congr_left (fun entry hentry => ?_)
    have hmem : entry.1 ∈ entries := (mem_zipIdx' hentry).2 ▸ getElem_mem _
    rw [relationshipName_eq (hnamed entry.1 hmem)]
  rw [hstep]
  conv_rhs => rw [← zipIdx_map_fst 0 entries, List.map_map]
  rfl

section Flat

variable {source : Source} {constraint : Option Constraint} {start : Option Start} {rows : List Row}
  {input : Operator} {nodes : List Node}

theorem nodup_entries {subs : List (Subquery Built)} (hnames : (subs.map name).Nodup) :
    ((subs.map (fun sub => (sub, sub.name))).map snd).Nodup := by
  rwa [List.map_map]

theorem passesExist_joined (source : Source) {hops : List (ExistsOp × Subquery Built)}
    (hnames : ((hops.map snd).map name).Nodup) (node : Node) :
    (hops.map (fun hop => (hop.1, hop.2.name))).all (fun entry => passesExist entry.2 entry.1
        (joined source ((hops.map snd).map (fun sub => (sub, sub.name))) node)) =
      hops.all (fun hop => existFetched source hop.1 hop.2 node.row) := by
  rw [List.all_map]
  refine Lib.all_congr_mem (fun hop hhop => ?_)
  have hmem : (hop.2, hop.2.name) ∈ (hops.map snd).map (fun sub => (sub, sub.name)) :=
    mem_map_of_mem (f := fun sub : Subquery Built => (sub, sub.name)) (mem_map_of_mem hhop)
  have hchildren := children?_joined source node (nodup_entries hnames) hmem
  obtain ⟨op, sub⟩ := hop
  cases op with
  | exist | notExist => simp only [comp_apply, passesExist, existFetched, hchildren, getD_some]

/-- Filtering nodes and attaching the children of subqueries is a stage. -/
theorem stage_joined (source : Source) (test : Row → Bool) {subs : List (Subquery Built)}
    (hnames : (subs.map name).Nodup) (nodes : List Node) : Stage source test subs subs nodes
      ((nodes.filter (fun node => test node.row)).map (joined source (subs.map (fun sub => (sub, sub.name))))) where
  rows_eq := by
    rw [List.map_map, List.filter_map]
    exact map_congr_left (fun node _ => row_joined node)
  origin := by
    intro node' hnode'
    obtain ⟨node, hnode, rfl⟩ := mem_map.mp hnode'
    refine ⟨node, mem_of_mem_filter hnode, row_joined node, fun name => ?_⟩
    rcases children?_joined_cases node name with h | ⟨sub, hsub, h⟩
    · exact .inl h
    · obtain ⟨sub, hmem, heq⟩ := mem_map.mp hsub
      cases heq
      exact .inr ⟨sub, hmem, rfl, h⟩
  solid := by
    intro node' hnode' sub hsub
    obtain ⟨node, -, rfl⟩ := mem_map.mp hnode'
    rw [row_joined]
    exact children?_joined source node (nodup_entries hnames)
      (mem_map_of_mem (f := fun sub : Subquery Built => (sub, sub.name)) hsub)

variable {formula : Formula Built}

theorem fetch_joinSubs (hready : Ready source rows formula)
    (hrows : ∀ node ∈ nodes, node.row ∈ rows) (h : fetch source input constraint start = some nodes) :
    fetch source (joinSubs input (formula.gather.map snd)) constraint start =
      some (nodes.map (joined source ((formula.gather.map snd).map (fun sub => (sub, sub.name))))) := by
  have hnamed : ∀ sub ∈ formula.gather.map snd, sub.alias_.isSome := by
    intro sub hsub
    obtain ⟨hop, hhop, rfl⟩ := mem_map.mp hsub
    exact hready.named hop hhop
  rw [joinSubs_eq, named_zipIdx (fun sub => sub) hnamed]
  refine fetch_foldl_joinSub (fun entry hentry => ?_) hrows h
  rw [List.map_map] at hentry
  obtain ⟨hop, hhop, rfl⟩ := mem_map.mp hentry
  exact hready.fetched hop hhop

theorem fetch_existSubs (hready : Ready source rows formula) (h : fetch source input constraint start = some nodes) :
    fetch source (existSubs input formula.gather) constraint start =
      some (nodes.filter (fun node => (formula.gather.map (fun hop => (hop.1, hop.2.name))).all
        (fun entry => passesExist entry.2 entry.1 node))) := by
  have hentries : formula.gather.zipIdx.map (fun entry => (entry.1.1, relationshipName entry.1.2.alias_ entry.2)) =
      formula.gather.map (fun hop => (hop.1, hop.2.name)) := by
    have hzip := congrArg (List.map (fun entry : (ExistsOp × Subquery Built) × String => (entry.1.1, entry.2)))
      (named_zipIdx snd hready.named)
    rwa [List.map_map, List.map_map] at hzip
  rw [existSubs_eq, hentries]
  exact fetch_foldl_exist h

/-- Filtering joined nodes by what stripping leaves of a condition tests its residual. -/
theorem fetch_stripped {entries : List (Subquery Built × String)}
    (hready : Ready source rows formula) (hunder : formula.underOr = false)
    (hrows : ∀ node ∈ nodes, node.row ∈ rows)
    (h : fetch source input constraint start = some (nodes.map (joined source entries))) :
    fetch source (match formula.strip with
        | some condition => .filter input condition
        | none => input) constraint start =
      some ((nodes.filter (fun node => formula.residual node.row)).map (joined source entries)) := by
  obtain ⟨hnone, hsome⟩ := stripTests formula hunder hready.kept hready.evaluable
  cases hstrip : formula.strip with
  | none =>
    rw [filter_eq_self.mpr (fun node _ => hnone hstrip node.row)]
    exact h
  | some condition =>
    have hrows' : ∀ node ∈ nodes.map (joined source entries), node.row ∈ rows := by
      intro node' hnode'
      obtain ⟨node, hnode, rfl⟩ := mem_map.mp hnode'
      rw [row_joined]
      exact hrows node hnode
    refine (fetch_filter (hsome condition hstrip) hrows' h).trans (congrArg some ?_)
    rw [List.filter_map]
    refine congrArg _ (filter_congr (fun node _ => ?_))
    rw [comp_apply, row_joined]

/-- A condition without correlated subqueries below a disjunction is a stage that tests it and
attaches the children of all its subqueries. -/
theorem applyFlat_stage (hready : Ready source rows formula)
    (hunder : formula.underOr = false) (hrows : ∀ node ∈ nodes, node.row ∈ rows)
    (h : fetch source input constraint start = some nodes) :
    ∃ nodes', fetch source (applyFlat input formula) constraint start = some nodes' ∧
      Stage source (fun row => formula.holdsWith (existFetched source) row) (formula.gather.map snd)
        (formula.gather.map snd) nodes nodes' := by
  have hnames : ((formula.gather.map snd).map name).Nodup := by
    rw [List.map_map]
    exact hready.names
  refine ⟨_, ?_, stage_joined source _ hnames nodes⟩
  cases hcorrelated : formula.hasCorrelated with
  | false =>
    have hgather := gather_of_not_hasCorrelated hcorrelated
    have hholds : ∀ row, formula.holdsWith (existFetched source) row = formula.residual row := by
      intro row
      rw [holdsWith_eq_residual _ _ hunder, hgather]
      simp
    rw [applyFlat, hcorrelated, hgather]
    simp only [hholds]
    refine (fetch_filter (tests_plain formula hcorrelated hready.evaluable) hrows h).trans ?_
    exact congrArg some (map_id _).symm
  | true =>
    have hjoin := fetch_joinSubs hready hrows h
    have hfiltered := fetch_stripped hready hunder hrows hjoin
    rw [applyFlat, hcorrelated]
    refine (fetch_existSubs hready hfiltered).trans (congrArg some ?_)
    rw [List.filter_map, List.filter_filter]
    refine congrArg _ (filter_congr (fun node _ => ?_))
    rw [holdsWith_eq_residual _ _ hunder, comp_apply, passesExist_joined source hnames, Bool.and_comm]

end Flat

/-! ## All conditions -/

namespace Formula

mutual
/-- The correlated subqueries of a condition that are not below a disjunction. -/
def solidHops : Formula α → List (Subquery α)
  | .simple _ _ _ => []
  | .and formulas => allSolidHops formulas
  | .or _ => []
  | .exist _ sub => [sub]

/-- The same of a list of conditions. -/
def allSolidHops : List (Formula α) → List (Subquery α)
  | [] => []
  | formula :: rest => solidHops formula ++ allSolidHops rest
end

@[simp]
theorem allSolidHops_eq (formulas : List (Formula α)) : allSolidHops formulas = formulas.flatMap solidHops := by
  induction formulas with
  | nil => rfl
  | cons formula rest ih => rw [allSolidHops, ih, flatMap_cons]

theorem solidHops_subset (formula : Formula α) : formula.solidHops ⊆ formula.gather.map snd := by
  induction formula with
  | simple | or => exact nil_subset _
  | exist => exact List.Subset.refl _
  | and formulas ih =>
    intro sub hsub
    rw [solidHops, allSolidHops_eq] at hsub
    obtain ⟨f, hf, hmem⟩ := mem_flatMap.mp hsub
    rw [gather, gatherAll_eq, map_flatMap]
    exact mem_flatMap.mpr ⟨f, hf, ih f hf hmem⟩

end Formula

/-- An operator returns nodes over rows of a table, in order. -/
structure Feeds (source : Source) (rows : List Row) (input : Operator) (constraint : Option Constraint)
    (start : Option Start) (nodes : List Node) : Prop where
  fetched : fetch source input constraint start = some nodes
  inRows : ∀ node ∈ nodes, node.row ∈ rows
  sorted : (nodes.map Node.row).Pairwise (Before input.order)
  self : ∀ row ∈ rows, compareRows input.order row row = some .eq

/-- An operator over an input is a stage. -/
def StageOver (source : Source) (test : Row → Bool) (hops solid : List (Subquery Built)) (input output : Operator)
    (constraint : Option Constraint) (start : Option Start) (nodes : List Node) : Prop :=
  output.order = input.order ∧
    ∃ nodes', fetch source output constraint start = some nodes' ∧ Stage source test hops solid nodes nodes'

section Where

variable {source : Source} {constraint : Option Constraint} {start : Option Start} {rows : List Row}
  {input output : Operator} {nodes nodes' : List Node} {test : Row → Bool} {hops solid : List (Subquery Built)}

theorem Feeds.stage (h : Feeds source rows input constraint start nodes) (horder : output.order = input.order)
    (hfetch : fetch source output constraint start = some nodes')
    (hstage : Stage source test hops solid nodes nodes') : Feeds source rows output constraint start nodes' where
  fetched := hfetch
  inRows := hstage.mem_rows h.inRows
  sorted := by
    rw [hstage.rows_eq, horder]
    exact h.sorted.filter _
  self := horder ▸ h.self

/-- The operators built for a condition are a stage that tests it. -/
def Applies (source : Source) (rows : List Row) (formula : Formula Built) : Prop :=
  ∀ {input constraint start nodes}, Feeds source rows input constraint start nodes →
    StageOver source (fun row => formula.holdsWith (existFetched source) row) (formula.gather.map Prod.snd)
      formula.solidHops input (applyWhere formula input) constraint start nodes

theorem order_joinSubs (input : Operator) (subs : List (Subquery Built)) : (joinSubs input subs).order = input.order := by
  rw [joinSubs]
  induction subs.zipIdx generalizing input with
  | nil => rfl
  | cons entry rest ih => exact (ih _).trans rfl

theorem order_existSubs (input : Operator) (hops : List (ExistsOp × Subquery Built)) :
    (existSubs input hops).order = input.order := by
  rw [existSubs]
  induction hops.zipIdx generalizing input with
  | nil => rfl
  | cons entry rest ih => exact (ih _).trans rfl

theorem order_applyFlat (input : Operator) (formula : Formula Built) :
    (applyFlat input formula).order = input.order := by
  rw [applyFlat]
  split
  · rfl
  · rw [order_existSubs]
    split
    · exact order_joinSubs input _
    · exact order_joinSubs input _

variable {formula : Formula Built}

theorem applyFlat_over (hready : Ready source rows formula)
    (hunder : formula.underOr = false) (h : Feeds source rows input constraint start nodes) :
    StageOver source (fun row => formula.holdsWith (existFetched source) row) (formula.gather.map snd)
      formula.solidHops input (applyFlat input formula) constraint start nodes := by
  obtain ⟨nodes', hfetch, hstage⟩ := applyFlat_stage hready hunder h.inRows h.fetched
  exact ⟨order_applyFlat input formula, nodes', hfetch,
    hstage.mono (fun _ _ => rfl) (List.Subset.refl _) formula.solidHops_subset⟩

/-! ### Arms of a conjunction -/

variable {formulas : List (Formula Built)}

theorem Ready.sub {formulas' : List (Formula Built)} (h : Ready source rows (.and formulas))
    (hsub : formulas'.Sublist formulas) : Ready source rows (.and formulas') := by
  have hgather : (formulas'.flatMap gather).Sublist (formulas.flatMap gather) := hsub.flatMap _
  obtain ⟨hnamed, hnames, hevaluable, hkept, hfetched⟩ := h
  rw [gather, gatherAll_eq] at hnamed hnames hfetched
  rw [armsKept, allArmsKept_eq, List.all_eq_true] at hkept
  constructor
  · rw [gather, gatherAll_eq]
    exact fun hop hhop => hnamed hop (hgather.subset hhop)
  · rw [gather, gatherAll_eq]
    exact hnames.sublist (hgather.map _)
  · intro simple hsimple
    refine hevaluable simple ?_
    rw [simples, allSimples_eq] at hsimple ⊢
    exact (hsub.flatMap _).subset hsimple
  · rw [armsKept, allArmsKept_eq, List.all_eq_true]
    exact fun f hf => hkept f (hsub.subset hf)
  · rw [gather, gatherAll_eq]
    exact fun hop hhop => hfetched hop (hgather.subset hhop)

/-- A conjunction of one condition is that condition. -/
theorem Ready.single (h : Ready source rows (.and [formula])) : Ready source rows formula := by
  obtain ⟨hnamed, hnames, hevaluable, hkept, hfetched⟩ := h
  simp only [gather, gatherAll_eq, flatMap_singleton] at hnamed hnames hfetched
  exact ⟨hnamed, hnames, hevaluable.arm mem_cons_self, by simpa [armsKept] using hkept, hfetched⟩

theorem Ready.arm (h : Ready source rows (.and formulas)) (hmem : formula ∈ formulas) : Ready source rows formula :=
  (h.sub (singleton_sublist.mpr hmem)).single

/-- The arms of a disjunction are as ready as those of a conjunction. -/
theorem Ready.ofOr (h : Ready source rows (.or formulas)) : Ready source rows (.and formulas) := by
  obtain ⟨hnamed, hnames, hevaluable, hkept, hfetched⟩ := h
  refine ⟨hnamed, hnames, hevaluable, ?_, hfetched⟩
  rw [armsKept, Bool.and_eq_true] at hkept
  exact hkept.1

/-- A conjunction is applied as its single condition or as it is. -/
theorem Ready.conjunction (h : Ready source rows (.and formulas)) : Ready source rows (conjunction formulas) := by
  cases formulas with
  | nil => exact h
  | cons formula rest =>
    cases rest with
    | nil => exact h.single
    | cons => exact h

/-- Different arms attach under different names. -/
theorem Ready.names_ne {left right : List (Formula Built)} (h : Ready source rows (.and formulas))
    (hperm : formulas.Perm (left ++ right)) {sub : Subquery Built} (hsub : sub ∈ left.flatMap solidHops) :
    ∀ sub' ∈ (right.flatMap gather).map snd, sub.name ≠ sub'.name := by
  have hnames : ((left.flatMap gather ++ right.flatMap gather).map (fun hop => hop.2.name)).Nodup := by
    have hall := h.names
    rw [gather, gatherAll_eq] at hall
    rw [← flatMap_append]
    exact ((hperm.flatMap_right _).map _).nodup_iff.mp hall
  rw [map_append, nodup_append] at hnames
  intro sub' hsub'
  obtain ⟨f, hf, hmem⟩ := mem_flatMap.mp hsub
  obtain ⟨hop, hhop, rfl⟩ := mem_map.mp (f.solidHops_subset hmem)
  obtain ⟨hop', hhop', rfl⟩ := mem_map.mp hsub'
  exact hnames.2.2 _ (mem_map_of_mem (f := fun hop : ExistsOp × Subquery Built => hop.2.name)
    (mem_flatMap.mpr ⟨f, hf, hhop⟩)) _ (mem_map_of_mem hhop')

theorem conjunction_eq (source : Source) (formulas : List (Formula Built)) :
    (∀ row, (conjunction formulas).holdsWith (existFetched source) row =
      formulas.all (holdsWith (existFetched source) row)) ∧ (conjunction formulas).gather = formulas.flatMap gather ∧
    (conjunction formulas).solidHops = formulas.flatMap solidHops ∧
    (conjunction formulas).underOr = formulas.any underOr := by
  cases formulas with
  | nil => simp [conjunction, holdsWith, gather, solidHops, underOr]
  | cons formula rest =>
    cases rest with
    | nil => simp [conjunction]
    | cons => simp [conjunction, holdsWith, gather, solidHops, underOr]

section

variable (hready : Ready source rows (.and formulas)) (harms : ∀ f ∈ formulas, Applies source rows f)

include hready harms

/-- The arms of a conjunction with correlated subqueries below a disjunction, one after another. -/
theorem chain_over (h : Feeds source rows input constraint start nodes) :
    StageOver source (fun row => (formulas.filter underOr).all (holdsWith (existFetched source) row))
      (((formulas.filter underOr).flatMap gather).map snd)
      ((formulas.filter underOr).flatMap solidHops) input (chain formulas input) constraint start nodes := by
  induction formulas generalizing input nodes with
  | nil =>
    exact ⟨rfl, nodes, h.fetched, Stage.refl source nodes⟩
  | cons formula rest ih =>
    have hrest : Ready source rows (.and rest) := hready.sub (sublist_cons_self _ _)
    have hrestArms : ∀ f ∈ rest, Applies source rows f := fun f hf => harms f (mem_cons_of_mem _ hf)
    rw [chain]
    cases hunder : formula.underOr with
    | false =>
      rw [filter_cons_of_neg (by simp [hunder])]
      exact ih hrest hrestArms h
    | true =>
      obtain ⟨horder, nodes', hfetch, hstage⟩ := harms formula mem_cons_self h
      obtain ⟨horder', nodes'', hfetch', hstage'⟩ := ih hrest hrestArms (h.stage horder hfetch hstage)
      rw [filter_cons_of_pos hunder]
      refine ⟨horder'.trans horder, nodes'', hfetch', ?_⟩
      simp only [flatMap_cons, map_append]
      have hperm : ((formula :: rest).filter underOr).Perm
          ([formula] ++ rest.filter underOr) := by
        rw [filter_cons_of_pos hunder]
        exact List.Perm.refl _
      refine hstage.trans hstage' (fun sub hsub => ?_)
      exact (hready.sub filter_sublist).names_ne hperm (by simpa using hsub)

/-- A conjunction: first the arms without correlated subqueries below a disjunction, then the
others. -/
theorem applies_and : Applies source rows (.and formulas) := by
  intro input constraint start nodes h
  cases hunder : anyUnderOr formulas with
  | false =>
    rw [applyWhere, hunder]
    exact applyFlat_over hready hunder h
  | true =>
    rw [applyWhere, hunder]
    generalize hrest : formulas.filter (fun formula => !formula.underOr) = rest
    have hsub : rest.Sublist formulas := hrest ▸ filter_sublist
    have hperm : formulas.Perm (rest ++ formulas.filter underOr) := by
      rw [← hrest]
      exact ((perm_append_comm.trans (filter_append_perm underOr formulas))).symm
    have hfirst : StageOver source (fun row => rest.all (holdsWith (existFetched source) row))
        ((rest.flatMap gather).map snd) (rest.flatMap solidHops) input
        (if rest.isEmpty then input else applyFlat input (conjunction rest)) constraint start nodes := by
      cases hempty : rest.isEmpty with
      | true =>
        rw [List.isEmpty_iff] at hempty
        subst hempty
        exact ⟨rfl, nodes, h.fetched, Stage.refl source nodes⟩
      | false =>
        obtain ⟨hholds, hgather, hsolid, hany⟩ := conjunction_eq source rest
        have hflatRest : (conjunction rest).underOr = false := by
          rw [hany, ← hrest]
          simp
        have hflat := applyFlat_over (hready.sub hsub).conjunction hflatRest h
        rw [if_neg (by simp)]
        simpa only [hholds, hgather, hsolid] using hflat
    obtain ⟨horder, nodes', hfetch, hstage⟩ := hfirst
    obtain ⟨horder', nodes'', hfetch', hstage'⟩ := chain_over hready harms (h.stage horder hfetch hstage)
    refine ⟨horder'.trans horder, nodes'', hfetch', ?_⟩
    have hboth := hstage.trans hstage' (fun sub hsub => hready.names_ne hperm hsub)
    refine hboth.mono (fun node _ => ?_) ?_ ?_
    · rw [holdsWith, allHold_eq, ← all_append]
      exact hperm.all_eq
    · rw [gather, gatherAll_eq, ← map_append, ← flatMap_append]
      exact ((hperm.flatMap_right _).map _).symm.subset
    · rw [solidHops, allSolidHops_eq, ← flatMap_append]
      exact (hperm.flatMap_right _).subset

end

/-! ### Arms of a disjunction -/

/-- Nodes of branches over an input: each comes from a node of the input, and a row of the input is
among them when a branch has it. -/
structure Branches (source : Source) (test : Row → Bool) (hops : List (Subquery Built)) (nodes all : List Node) :
    Prop where
  origin : ∀ node' ∈ all, ∃ node ∈ nodes, node'.row = node.row ∧ ∀ name,
    node'.children? name = node.children? name ∨
      ∃ sub ∈ hops, sub.name = name ∧ node'.children? name = some (childrenOf source sub node.row)
  mem_iff : ∀ node ∈ nodes, (∃ node' ∈ all, node'.row = node.row) ↔ test node.row = true

theorem Stage.branch (h : Stage source test hops solid nodes nodes') : Branches source test hops nodes nodes' where
  origin := h.origin
  mem_iff := by
    intro node hnode
    rw [← List.mem_map, h.rows_eq, mem_filter]
    exact and_iff_right (mem_map_of_mem hnode)

theorem Branches.append {test' : Row → Bool} {hops' : List (Subquery Built)} {all all' : List Node}
    (h : Branches source test hops nodes all) (h' : Branches source test' hops' nodes all') :
    Branches source (fun row => test row || test' row) (hops ++ hops') nodes (all ++ all') where
  origin := by
    intro node' hnode'
    rcases mem_append.mp hnode' with hmem | hmem
    · obtain ⟨node, hnode, hrow, hname⟩ := h.origin node' hmem
      refine ⟨node, hnode, hrow, fun name => (hname name).imp_right ?_⟩
      exact fun ⟨sub, hsub, heq⟩ => ⟨sub, mem_append_left _ hsub, heq⟩
    · obtain ⟨node, hnode, hrow, hname⟩ := h'.origin node' hmem
      refine ⟨node, hnode, hrow, fun name => (hname name).imp_right ?_⟩
      exact fun ⟨sub, hsub, heq⟩ => ⟨sub, mem_append_right _ hsub, heq⟩
  mem_iff := by
    intro node hnode
    simp only [mem_append, or_and_right, exists_or, Bool.or_eq_true]
    rw [h.mem_iff node hnode, h'.mem_iff node hnode]

theorem Branches.nil (source : Source) (nodes : List Node) : Branches source (fun _ => false) [] nodes [] where
  origin := by simp
  mem_iff := by simp

theorem fetchAll_append {inputs inputs' : List Operator} {all all' : List Node}
    (h : fetchAll source inputs constraint start = some all)
    (h' : fetchAll source inputs' constraint start = some all') :
    fetchAll source (inputs ++ inputs') constraint start = some (all ++ all') := by
  induction inputs generalizing all with
  | nil =>
    cases h
    exact h'
  | cons input rest ih =>
    obtain ⟨first, hfirst, h⟩ := bind_eq_some_iff.mp h
    obtain ⟨others, hothers, h⟩ := bind_eq_some_iff.mp h
    cases h
    rw [cons_append, fetchAll, hfirst, ih hothers]
    exact congrArg some (append_assoc _ _ _).symm

/-- The branches of the arms with correlated subqueries. -/
theorem branches_fetch (harms : ∀ f ∈ formulas, Applies source rows f)
    (h : Feeds source rows input constraint start nodes) :
    ∃ all, fetchAll source (branches formulas input) constraint start = some all ∧
      Branches source (fun row => formulas.any (fun f => f.hasCorrelated && f.holdsWith (existFetched source) row))
        ((formulas.flatMap gather).map snd) nodes all := by
  induction formulas with
  | nil =>
    exact ⟨[], rfl, Branches.nil source nodes⟩
  | cons formula rest ih =>
    obtain ⟨all, hall, hbranches⟩ := ih (fun f hf => harms f (mem_cons_of_mem _ hf))
    rw [branches]
    simp only [any_cons, flatMap_cons]
    cases hcorrelated : formula.hasCorrelated with
    | false =>
      rw [gather_of_not_hasCorrelated hcorrelated]
      exact ⟨all, hall, by simpa using hbranches⟩
    | true =>
      obtain ⟨-, nodes', hfetch, hstage⟩ := harms formula mem_cons_self h
      refine ⟨nodes' ++ all, ?_, ?_⟩
      · rw [if_pos rfl, fetchAll, hfetch, hall]
        rfl
      · simpa using hstage.branch.append hbranches

/-- The branch of the arms without correlated subqueries. -/
theorem others_fetch (hready : Ready source rows (.and formulas))
    (h : Feeds source rows input constraint start nodes) {others : List (Formula Built)}
    (hothers : formulas.filter (fun formula => !formula.hasCorrelated) = others) :
    ∃ all, fetchAll source (if others.isEmpty then [] else [.filter input (.or (plainAll others))])
        constraint start = some all ∧
      Branches source (fun row => others.any (holdsWith (existFetched source) row)) [] nodes all := by
  cases hempty : others.isEmpty with
  | true =>
    rw [List.isEmpty_iff] at hempty
    subst hempty
    exact ⟨[], rfl, Branches.nil source nodes⟩
  | false =>
    have hsub : others.Sublist formulas := hothers ▸ filter_sublist
    have hcorrelated : hasCorrelated (.or others) = false := by
      rw [hasCorrelated, ← hothers]
      simp
    have hholds : ∀ row, residual row (.or others) = others.any (holdsWith (existFetched source) row) := by
      intro row
      have hresidual := holdsWith_eq_residual (existFetched source) (.or others)
        (underOr_of_not_hasCorrelated hcorrelated) row
      rw [gather_of_not_hasCorrelated hcorrelated, all_nil, Bool.and_true] at hresidual
      rw [← hresidual, holdsWith, anyHolds_eq]
    have htests := tests_plain (.or others) hcorrelated (hready.sub hsub).evaluable
    have hfetch := fetch_filter htests h.inRows h.fetched
    have hstage := @stage_joined source (fun row => residual row (.or others)) [] nodup_nil nodes
    simp only [hholds] at hfetch hstage
    refine ⟨_, ?_, hstage.branch⟩
    rw [if_neg (by simp), fetchAll]
    rw [plain] at hfetch
    rw [hfetch]
    exact congrArg some ((append_nil _).trans (map_id _).symm)

/-- A disjunction with correlated subqueries: the merged branches have the rows of all of them. -/
theorem applies_or (hready : Ready source rows (.or formulas))
    (harms : ∀ f ∈ formulas, Applies source rows f) : Applies source rows (.or formulas) := by
  intro input constraint start nodes h
  cases hcorrelated : anyCorrelated formulas with
  | false =>
    rw [applyWhere, hcorrelated]
    exact applyFlat_over hready hcorrelated h
  | true =>
    rw [applyWhere, hcorrelated, if_pos rfl]
    have hfan : Feeds source rows (.fanOut input) constraint start nodes :=
      ⟨by rw [fetch, h.fetched], h.inRows, h.sorted, h.self⟩
    obtain ⟨all, hall, hbranches⟩ := branches_fetch harms hfan
    obtain ⟨all', hall', hbranches'⟩ := others_fetch hready.ofOr hfan rfl
    have hunion := hbranches.append hbranches'
    rw [append_nil] at hunion
    have hmem : ∀ node ∈ all ++ all', node.row ∈ nodes.map row := by
      intro node' hnode'
      obtain ⟨node, hnode, hrow, -⟩ := hunion.origin node' hnode'
      rw [hrow]
      exact mem_map_of_mem hnode
    have hself : ∀ row ∈ nodes.map Node.row, compareRows input.order row row = some .eq := by
      intro row hrow
      obtain ⟨node, hnode, rfl⟩ := mem_map.mp hrow
      exact h.self node.row (h.inRows node hnode)
    obtain ⟨merged, hmerge, hsubset, hrows⟩ := mergeNodes_spec h.sorted hself hmem
    refine ⟨rfl, merged, ?_, ?_⟩
    · rw [fetch, fetchAll_append hall hall']
      exact hmerge
    · refine ⟨?_, fun node' hnode' => ?_, fun _ _ sub hsub => by cases hsub⟩
      · rw [hrows]
        refine filter_congr (fun row hrow => ?_)
        obtain ⟨node, hnode, rfl⟩ := mem_map.mp hrow
        rw [Bool.eq_iff_iff, List.any_eq_true, holdsWith, anyHolds_eq, ← Lib.any_split formulas hasCorrelated]
        simpa using hunion.mem_iff node hnode
      · rw [gather, gatherAll_eq]
        exact hunion.origin node' (hsubset node' hnode')

/-- The operators built for a condition are a stage that tests it. -/
theorem applyWhere_stage (hready : Ready source rows formula) : Applies source rows formula := by
  induction formula with
  | simple | exist =>
    intro input constraint start nodes h
    exact applyFlat_over hready rfl h
  | and formulas ih => exact applies_and hready (fun f hf => ih f hf (hready.arm hf))
  | or formulas ih => exact applies_or hready (fun f hf => ih f hf (hready.ofOr.arm hf))

end Where

end ZeroCache.Zql
