import ZeroCache.Zql.Naming

/-!
# What one level of a pipeline returns

The operators of one level return the rows of the level, each with the children of its related
subqueries. Of the subqueries of the condition a node has the children of each one that is not
below a disjunction, and for the others either their children or none.
-/

namespace ZeroCache.Zql

open List Node

variable {α β : Type}

/-! ## Entries by key -/

section LastByKey

variable {key : α → ℕ → String}

/-- One step of keeping the last entry of each key. -/
def keepLast (key : α → ℕ → String) (state : List String × List α) (entry : α) : List String × List α :=
  match state.1.findIdx? (· = key entry state.1.length) with
  | some position => (state.1, state.2.set position entry)
  | none => (state.1 ++ [key entry state.1.length], state.2 ++ [entry])

theorem lastByKey_eq (entries : List α) : lastByKey key entries = (entries.foldl (keepLast key) ([], [])).2 := rfl

variable {entries : List α} {entry : α}

theorem mem_foldl_keepLast {state : List String × List α}
    (h : entry ∈ (entries.foldl (keepLast key) state).2) : entry ∈ state.2 ∨ entry ∈ entries := by
  induction entries generalizing state with
  | nil => exact .inl h
  | cons first rest ih =>
    rcases ih h with hmem | hmem
    · rw [keepLast] at hmem
      split at hmem
      · rcases mem_or_eq_of_mem_set hmem with h | h
        · exact .inl h
        · exact .inr (h ▸ mem_cons_self)
      · rcases mem_append.mp hmem with h | h
        · exact .inl h
        · exact .inr (mem_singleton.mp h ▸ mem_cons_self)
    · exact .inr (mem_cons_of_mem _ hmem)

theorem mem_of_mem_lastByKey (h : entry ∈ lastByKey key entries) : entry ∈ entries := by
  exact (mem_foldl_keepLast h).resolve_left (by simp)

theorem foldl_keepLast_of_nodup {names : List String} {kept : List α}
    (h : (names ++ (entries.zipIdx names.length).map (fun entry => key entry.1 entry.2)).Nodup) :
    (entries.foldl (keepLast key) (names, kept)).2 = kept ++ entries := by
  induction entries generalizing names kept with
  | nil => simp
  | cons entry rest ih =>
    have hnew : key entry names.length ∉ names := by
      intro hmem
      exact (nodup_append.mp h).2.2 _ hmem _ mem_cons_self rfl
    have hstep : keepLast key (names, kept) entry = (names ++ [key entry names.length], kept ++ [entry]) := by
      have hnone : names.findIdx? (· = key entry names.length) = none := by
        rw [findIdx?_eq_none_iff]
        intro name hname
        simpa using fun heq : name = key entry names.length => hnew (heq ▸ hname)
      simp only [keepLast, hnone]
    rw [foldl_cons, hstep, ih]
    · simp
    · simpa using h

/-- Entries of different keys are all kept. -/
theorem lastByKey_of_nodup (h : (entries.zipIdx.map (fun entry => key entry.1 entry.2)).Nodup) :
    lastByKey key entries = entries := by
  rw [lastByKey_eq, foldl_keepLast_of_nodup (by simpa using h), nil_append]

/-- Translating entries without changing their keys translates those kept. -/
theorem lastByKey_map {key' : β → ℕ → String} (f : α → β) (h : ∀ a n, key' (f a) n = key a n)
    (entries : List α) : lastByKey key' (entries.map f) = (lastByKey key entries).map f := by
  have hfold : ∀ state : List String × List α, (entries.map f).foldl (keepLast key') (state.1, state.2.map f) =
      ((entries.foldl (keepLast key) state).1, (entries.foldl (keepLast key) state).2.map f) := by
    induction entries with
    | nil => exact fun _ => rfl
    | cons entry rest ih =>
      intro state
      have hstep : keepLast key' (state.1, state.2.map f) (f entry) =
          ((keepLast key state entry).1, (keepLast key state entry).2.map f) := by
        simp only [keepLast, h]
        split
        · rw [map_set]
        · rw [map_append, map_singleton]
      rw [map_cons, foldl_cons, hstep]
      exact ih _
  exact congrArg Prod.snd (hfold ([], []))

end LastByKey

/-! ## One level -/

namespace Query

/-- The related subqueries that are joined, with their names. -/
def relatedEntries (q : Query α) : List (Subquery α × String) :=
  (lastByKey (fun sub _ => sub.alias_.getD "") q.related).zipIdx.map
    (fun entry => (entry.1, relationshipName entry.1.alias_ entry.2))

/-- The correlated subqueries of the condition, with the names they are joined under as aliases. -/
def namedExist (q : Query α) : List (ExistsOp × Subquery α) :=
  match q.where_ with
  | some formula => formula.named.gather
  | none => []

end Query

/-- What the operators of one level rely on: the order of its table tells the rows apart, its
condition can be evaluated on them, and its subqueries can be fetched for them. -/
structure LevelReady (source : Source) (order : QueryOrdering) (q : Query Built) : Prop where
  ordered : q.start.isSome ∨ q.limit.isSome → order ≠ []
  apart : SortsApart order (source.rows q.table)
  evaluable : ∀ formula ∈ q.where_, formula.EvaluableOn (source.rows q.table)
  kept : ∀ formula ∈ q.where_, formula.armsKept = true
  fetched : ∀ sub ∈ q.subs, FetchedOn source (source.rows q.table) sub

/-- The children of the nodes of a level: those of each related subquery, and under any other name
none or those of a subquery of the condition. -/
structure LevelNodes (source : Source) (q : Query Built) (nodes : List Node) : Prop where
  related : (q.relatedEntries.map Prod.snd).Nodup → ∀ node ∈ nodes, ∀ entry ∈ q.relatedEntries,
    node.children? entry.2 = some (childrenOf source entry.1 node.row)
  exist : ∀ node ∈ nodes, ∀ name ∉ q.relatedEntries.map Prod.snd, node.children? name = none ∨
    ∃ hop ∈ q.namedExist, hop.2.name = name ∧ node.children? name = some (childrenOf source hop.2 node.row)
  solid : (∀ formula ∈ q.where_, formula.existUnderOr = false) → ∀ node ∈ nodes, ∀ hop ∈ q.namedExist,
    hop.1 = .exist → hop.2.name ∉ q.relatedEntries.map Prod.snd →
      node.children? hop.2.name = some (childrenOf source hop.2 node.row)

section Level

variable {source : Source} {order : QueryOrdering} {q : Query Built} {constraint : Option Constraint}

/-- Reading a table from the start of a level. -/
theorem fetch_start (h : LevelReady source order q) (constraint : Option Constraint) :
    Feeds source (source.rows q.table) (applyStart q.start (.source q.table order)) constraint none
        ((source.fetch q.table order constraint (q.start.map startOf)).map leaf) := by
  have hmem : ∀ start, ∀ node ∈ (source.fetch q.table order constraint start).map leaf,
      node.row ∈ source.rows q.table := by
    intro start node hnode
    obtain ⟨row, hrow, rfl⟩ := mem_map.mp hnode
    exact ((source.mem_fetch q.table order constraint start row).mp hrow).1
  have hsorted : ∀ start, (((source.fetch q.table order constraint start).map leaf).map
      row).Pairwise (Before order) := by
    intro start
    rw [map_map]
    exact (map_id _).symm ▸ source.sorted q.table order constraint start h.apart
  cases hstart : q.start with
  | none =>
    exact ⟨rfl, hmem _, hsorted _, fun row hrow => h.apart.self hrow⟩
  | some =>
    have hne : order.isEmpty = false := by
      rw [isEmpty_eq_false_iff]
      exact h.ordered (.inl (by rw [hstart]; rfl))
    refine ⟨?_, hmem _, hsorted _, fun row hrow => h.apart.self hrow⟩
    simp only [applyStart, fetch, Operator.order, hne]
    rfl

theorem mem_namedHops {compound : Bool} {hops : List (ExistsOp × Subquery α)} {count : ℕ} {hop : ExistsOp × Subquery α}
    (h : hop ∈ namedHops compound hops count) :
    ∃ original ∈ hops, ∃ name, hop = (original.1, original.2.rename (some name)) := by
  obtain ⟨entry, hentry, rfl⟩ := mem_map.mp h
  refine ⟨entry.1, ?_, _, rfl⟩
  rw [← zipIdx_map_fst count hops]
  exact mem_map_of_mem hentry

/-- The condition of a level is ready to be built. -/
theorem LevelReady.ready (h : LevelReady source order q) {formula : Formula Built} (hwhere : q.where_ = some formula) :
    Ready source (source.rows q.table) formula.named := by
  have hhops : ∀ hop ∈ formula.named.gather, ∃ original ∈ formula.gather, ∃ name,
      hop = (original.1, original.2.rename (some name)) := by
    intro hop hhop
    rw [Formula.gather_named] at hhop
    exact mem_namedHops hhop
  constructor
  · intro hop hhop
    obtain ⟨original, -, name, rfl⟩ := hhops hop hhop
    rfl
  · exact formula.nodup_named
  · exact Formula.evaluableOn_named.mpr (h.evaluable formula hwhere)
  · rw [Formula.armsKept_named]
    exact h.kept formula hwhere
  · intro hop hhop
    obtain ⟨original, hmem, name, rfl⟩ := hhops hop hhop
    refine h.fetched original.2 (mem_append_right _ (mem_map_of_mem ?_))
    rw [Query.existHops, hwhere]
    exact hmem

variable {input : Operator} {start : Option Start}

/-- Applying the condition of a level. -/
theorem fetch_condition (h : LevelReady source order q) {rows : List Row}
    (hfeeds : Feeds source (source.rows q.table) input constraint start (rows.map leaf)) :
    ∃ nodes, fetch source (applyCondition q.where_ input) constraint start = some nodes ∧
      nodes.map row = rows.filter (fun row => q.where_.all (Formula.holdsWith (existFetched source) row)) ∧
      (applyCondition q.where_ input).order = input.order ∧
      (∀ node ∈ nodes, ∀ name, node.children? name = none ∨ ∃ hop ∈ q.namedExist, hop.2.name = name ∧
        node.children? name = some (childrenOf source hop.2 node.row)) ∧
      ((∀ formula ∈ q.where_, formula.existUnderOr = false) → ∀ node ∈ nodes, ∀ hop ∈ q.namedExist,
        hop.1 = .exist → node.children? hop.2.name = some (childrenOf source hop.2 node.row)) := by
  have hrows : (rows.map leaf).map row = rows := by
    rw [map_map]
    exact map_id rows
  rw [Query.namedExist]
  cases hwhere : q.where_ with
  | none =>
    refine ⟨rows.map leaf, hfeeds.fetched, ?_, rfl, fun node hnode name => ?_, by simp⟩
    · simp [hrows]
    · obtain ⟨row, -, rfl⟩ := mem_map.mp hnode
      exact .inl rfl
  | some formula =>
    obtain ⟨horder, nodes, hfetch, hstage⟩ := applyWhere_stage (h.ready hwhere) hfeeds
    rw [← applyWhere_named] at horder hfetch
    refine ⟨nodes, hfetch, ?_, horder, fun node hnode name => ?_, fun hunder node hnode hop hhop hexist => ?_⟩
    · rw [hstage.rows_eq, hrows]
      refine filter_congr (fun row _ => ?_)
      exact Formula.holdsWith_named (fun _ _ => rfl) formula row
    · obtain ⟨leaf, hleaf, hrow, hname⟩ := hstage.origin node hnode
      obtain ⟨row, -, rfl⟩ := mem_map.mp hleaf
      rcases hname name with heq | ⟨sub, hsub, hsame, heq⟩
      · exact .inl heq
      · obtain ⟨hop, hhop, rfl⟩ := mem_map.mp hsub
        exact .inr ⟨hop, hhop, hsame, by rw [heq, hrow]⟩
    · refine hstage.solid node hnode hop.2 (Formula.mem_solidHops ?_ hhop hexist)
      rw [Formula.existUnderOr_named]
      exact hunder formula rfl

variable {partitionKey : Option (List String)} {nodes : List Node}

/-- Limiting the rows of a level to those of its partition. -/
theorem fetch_limit (h : LevelReady source order q) (horder : input.order = order)
    (hpartition : q.limit.isSome → constraintMatchesPartitionKey constraint partitionKey = true)
    (hfetch : fetch source input constraint start = some nodes) :
    fetch source (applyLimit q.limit partitionKey input) constraint start = some (limited q.limit nodes) := by
  cases hlimit : q.limit with
  | none => exact hfetch
  | some limit =>
    have hmatches := hpartition (by rw [hlimit]; rfl)
    have hne : input.order.isEmpty = false := by
      rw [isEmpty_eq_false_iff, horder]
      exact h.ordered (.inr (by rw [hlimit]; rfl))
    have hasked : (partitionKey.isNone || (constraint.isSome &&
        constraintMatchesPartitionKey constraint partitionKey)) = true := by
      cases partitionKey with
      | none => rfl
      | some =>
        cases constraint with
        | none => simp [constraintMatchesPartitionKey] at hmatches
        | some => simp [hmatches]
    simp only [applyLimit, fetch, hne, hfetch]
    show takeNodes (limitOf limit) partitionKey constraint nodes = _
    rw [takeNodes, if_pos hasked]
    by_cases hzero : limitOf limit = 0
    · rw [if_pos hzero, limited, hzero, take_zero]
    · rw [if_neg hzero, if_pos hmatches, limited]

theorem map_limited {γ δ : Type} (f : γ → δ) (limit : Option ℚ) (rows : List γ) :
    (limited limit rows).map f = limited limit (rows.map f) := by
  cases limit with
  | none => rfl
  | some => exact map_take

theorem mem_of_mem_limited {γ : Type} {limit : Option ℚ} {rows : List γ} {row : γ}
    (h : row ∈ limited limit rows) : row ∈ rows := by
  cases limit with
  | none => exact h
  | some => exact mem_of_mem_take h

/-- Joining the related subqueries of a level. -/
theorem levelNodes_joined (hexist : ∀ node ∈ nodes, ∀ name, node.children? name = none ∨ ∃ hop ∈ q.namedExist, hop.2.name = name ∧
      node.children? name = some (childrenOf source hop.2 node.row))
    (hsolid : (∀ formula ∈ q.where_, formula.existUnderOr = false) → ∀ node ∈ nodes, ∀ hop ∈ q.namedExist,
      hop.1 = .exist → node.children? hop.2.name = some (childrenOf source hop.2 node.row)) :
    LevelNodes source q (nodes.map (joined source q.relatedEntries)) := by
  constructor
  · intro hnodup node' hnode' entry hentry
    obtain ⟨node, -, rfl⟩ := mem_map.mp hnode'
    rw [row_joined]
    exact children?_joined source node hnodup hentry
  · intro node' hnode' name hname
    obtain ⟨node, hnode, rfl⟩ := mem_map.mp hnode'
    rw [children?_joined_of_not_mem node hname, row_joined]
    exact hexist node hnode name
  · intro hunder node' hnode' hop hhop hmust hname
    obtain ⟨node, hnode, rfl⟩ := mem_map.mp hnode'
    rw [children?_joined_of_not_mem node hname, row_joined]
    exact hsolid hunder node hnode hop hhop hmust

/-- The operators of a level return its rows, with their children. -/
theorem buildLevel_fetch {sourceOrder : String → Option QueryOrdering → QueryOrdering}
    (h : LevelReady source (sourceOrder q.table q.orderBy) q)
    (hpartition : q.limit.isSome → constraintMatchesPartitionKey constraint partitionKey = true) :
    ∃ nodes, fetch source (buildLevel sourceOrder q partitionKey) constraint none = some nodes ∧
      nodes.map row = limited q.limit
        ((source.fetch q.table (sourceOrder q.table q.orderBy) constraint (q.start.map startOf)).filter
          (fun row => q.where_.all (Formula.holdsWith (existFetched source) row))) ∧ LevelNodes source q nodes := by
  have hstart := fetch_start h constraint
  obtain ⟨nodes, hfetch, hrows, horder, hexist, hsolid⟩ := fetch_condition h hstart
  have hsource : (applyStart q.start (.source q.table (sourceOrder q.table q.orderBy))).order =
      sourceOrder q.table q.orderBy := by
    cases q.start with
    | none | some => rfl
  have hlimit := fetch_limit h (horder.trans hsource) hpartition hfetch
  have hmem : ∀ node ∈ limited q.limit nodes, node.row ∈ source.rows q.table := by
    intro node hnode
    have hrow : node.row ∈ nodes.map row := mem_map_of_mem (mem_of_mem_limited hnode)
    rw [hrows] at hrow
    exact ((source.mem_fetch _ _ _ _ _).mp (mem_of_mem_filter hrow)).1
  have hsubs : ∀ entry ∈ q.relatedEntries, FetchedOn source (source.rows q.table) entry.1 := by
    intro entry hentry
    obtain ⟨sub, hsub, rfl⟩ := mem_map.mp hentry
    have hkept : sub.1 ∈ lastByKey (fun sub _ => sub.alias_.getD "") q.related := by
      rw [← zipIdx_map_fst 0 (lastByKey _ q.related)]
      exact mem_map_of_mem hsub
    exact h.fetched sub.1 (mem_append_left _ (mem_of_mem_lastByKey hkept))
  refine ⟨(limited q.limit nodes).map (joined source q.relatedEntries), ?_, ?_,
    levelNodes_joined (fun node hnode => hexist node (mem_of_mem_limited hnode))
      (fun hunder node hnode => hsolid hunder node (mem_of_mem_limited hnode))⟩
  · rw [buildLevel, joinSubs_eq]
    exact fetch_foldl_joinSub hsubs hmem hlimit
  · rw [map_map, ← hrows, ← map_limited]
    exact map_congr_left (fun node _ => row_joined node)

end Level

end ZeroCache.Zql
