import ZeroCache.Zql.Level

/-!
# Pipelines return what queries mean

By induction over a query, fetching from its pipeline returns the rows the query means, as long as
every level is sane: the order of its table tells rows apart, its comparisons can be evaluated, and
the limits of its subqueries are on partitions that the constraint of a parent row names.
-/

namespace ZeroCache.Zql

open List Option Query Formula

variable {α β : Type}

/-- A property holds of a query and of all its subqueries. -/
inductive Everywhere (P : Ast → Prop) : Ast → Prop where
  | intro (ast : Ast) (level : P ast) (subs : ∀ sub ∈ (queryOf ast).subs, Everywhere P sub.query) :
    Everywhere P ast

variable {P : Ast → Prop} {ast : Ast}

theorem Everywhere.level (h : Everywhere P ast) : P ast := by
  cases h
  assumption

theorem Everywhere.sub (h : Everywhere P ast) {sub : Subquery Ast}
    (hsub : sub ∈ (queryOf ast).subs) : Everywhere P sub.query := by
  cases h with
  | intro _ _ hsubs => exact hsubs sub hsub

theorem Everywhere.imp {Q : Ast → Prop} (h : ∀ ast, P ast → Q ast) (hp : Everywhere P ast) : Everywhere Q ast := by
  induction ast with
  | level ast ih => exact .intro ast (h ast hp.level) (fun sub hsub => ih sub hsub (hp.sub hsub))

/-- What one level of a query must satisfy for its pipeline to return its rows. -/
structure Sane (source : Source) (sourceOrder : String → Option QueryOrdering → QueryOrdering) (ast : Ast) :
    Prop where
  ordered : ast.start.isSome ∨ ast.limit.isSome → sourceOrder ast.table ast.orderBy ≠ []
  apart : SortsApart (sourceOrder ast.table ast.orderBy) (source.rows ast.table)
  evaluable : ∀ condition ∈ ast.where_, (formulaOf condition).EvaluableOn (source.rows ast.table)
  kept : ∀ condition ∈ ast.where_, (formulaOf condition).armsKept = true
  keyed : ∀ sub ∈ (queryOf ast).subs, sub.query.limit.isSome →
    sub.correlation.childField.length ≤ sub.correlation.parentField.length

/-- The pipeline of a query, given the columns it is partitioned by. -/
def built (sourceOrder : String → Option QueryOrdering → QueryOrdering) (ast : Ast) : Built :=
  foldAst (buildLevel sourceOrder) ast

namespace Query

theorem existHops_map (f : α → β) (q : Query α) :
    (q.map f).existHops = q.existHops.map (fun hop => (hop.1, hop.2.map f)) := by
  cases hwhere : q.where_ with
  | none | some => simp [existHops, map, hwhere]

theorem subs_map (f : α → β) (q : Query α) : (q.map f).subs = q.subs.map (Subquery.map f) := by
  rw [subs, subs, existHops_map, map_append, List.map_map, List.map_map]
  rfl

end Query

/-- The constraint of a parent row is on the partition of a subquery. -/
theorem constraint_matches {sub : Subquery α} (row : Row)
    (h : sub.correlation.childField.length ≤ sub.correlation.parentField.length) :
    constraintMatchesPartitionKey (sub.constraint row) (some sub.correlation.childField) = true := by
  have hlength : (childConstraint sub.correlation.parentField sub.correlation.childField row).length =
      sub.correlation.childField.length := by
    rw [childConstraint, length_map, length_zip, Nat.min_eq_right h]
  have hcolumns : (childConstraint sub.correlation.parentField sub.correlation.childField row).map Prod.fst =
      sub.correlation.childField := by
    rw [childConstraint, List.map_map]
    exact map_snd_zip h
  simp only [constraintMatchesPartitionKey, Subquery.constraint, hlength, decide_true, Bool.true_and, List.all_eq_true,
    List.any_eq_true, decide_eq_true_eq]
  intro column hcolumn
  rw [← hcolumns] at hcolumn
  exact mem_map.mp hcolumn

section Correct

variable {source : Source} {sourceOrder : String → Option QueryOrdering → QueryOrdering}

/-- Fetching from a pipeline returns the rows of its query. -/
def Fetches (source : Source) (sourceOrder : String → Option QueryOrdering → QueryOrdering) (ast : Ast) : Prop :=
  ∀ partitionKey constraint,
    (ast.limit.isSome → constraintMatchesPartitionKey constraint partitionKey = true) →
    ∃ nodes, fetch source (built sourceOrder ast partitionKey) constraint none = some nodes ∧
      nodes.map Node.row = (meaning source sourceOrder ast).rows constraint ∧
      LevelNodes source ((queryOf ast).map (built sourceOrder)) nodes

section

variable {sub : Subquery Ast} (h : Fetches source sourceOrder sub.query)
  (hkeyed : sub.query.limit.isSome → sub.correlation.childField.length ≤ sub.correlation.parentField.length)

include h hkeyed

/-- The children of a row are those its subquery returns under the row's constraint. -/
theorem Fetches.children (row : Row) : ∃ nodes, fetched source (sub.map (built sourceOrder)) row = some nodes ∧
      nodes.map Node.row = (meaning source sourceOrder sub.query).rows (sub.constraint row) := by
  obtain ⟨nodes, hfetch, hrows, -⟩ := h (some sub.correlation.childField) (sub.constraint row)
    (fun hlimit => constraint_matches row (hkeyed hlimit))
  exact ⟨nodes, hfetch, hrows⟩

theorem existFetched_eq (op : ExistsOp) (row : Row) : existFetched source op (sub.map (built sourceOrder)) row =
      existHolds op (sub.map (meaning source sourceOrder)) row := by
  obtain ⟨nodes, hfetch, hrows⟩ := h.children hkeyed row
  have hempty : (childrenOf source (sub.map (built sourceOrder)) row).isEmpty =
      ((meaning source sourceOrder sub.query).rows (sub.constraint row)).isEmpty := by
    rw [← hrows, isEmpty_map, childrenOf, hfetch]
    rfl
  cases op with
  | exist => exact congrArg not hempty
  | notExist => exact hempty

end

section

variable {ast : Ast} (h : Sane source sourceOrder ast)
  (hsubs : ∀ sub ∈ (queryOf ast).subs, Fetches source sourceOrder sub.query)

include h hsubs

/-- A sane level over subqueries that return their rows is ready. -/
theorem Sane.ready :
    LevelReady source (sourceOrder ast.table ast.orderBy) ((queryOf ast).map (built sourceOrder)) := by
  constructor
  · exact h.ordered
  · exact h.apart
  · intro formula hformula
    simp only [queryOf, Query.map, mem_def, Option.map_map, map_eq_some_iff] at hformula
    obtain ⟨condition, hcondition, rfl⟩ := hformula
    exact (evaluableOn_map _).mpr (h.evaluable condition hcondition)
  · intro formula hformula
    simp only [queryOf, Query.map, mem_def, Option.map_map, map_eq_some_iff] at hformula
    obtain ⟨condition, hcondition, rfl⟩ := hformula
    exact (armsKept_map _ _).trans (h.kept condition hcondition)
  · intro sub hsub row _
    rw [subs_map] at hsub
    obtain ⟨sub, hmem, rfl⟩ := mem_map.mp hsub
    obtain ⟨nodes, hfetch, -⟩ := (hsubs sub hmem).children (h.keyed sub hmem) row
    rw [hfetch]
    rfl

/-- The condition of a sane level says of a row what it means. -/
theorem Sane.holds_eq (row : Row) :
    ((queryOf ast).map (built sourceOrder)).where_.all (holdsWith (existFetched source) row) =
      ((queryOf ast).map (meaning source sourceOrder)).where_.all (holds row) := by
  cases hwhere : ast.where_ with
  | none => simp [queryOf, Query.map, hwhere]
  | some =>
    simp only [queryOf, Query.map, hwhere, map_some, all_some, holds, holdsWith_map]
    refine holdsWith_congr (fun hop hhop => ?_)
    have hmem : hop.2 ∈ (queryOf ast).subs := by
      refine mem_append_right _ (mem_map_of_mem ?_)
      simpa only [existHops, queryOf, hwhere, map_some] using hhop
    exact existFetched_eq (hsubs hop.2 hmem) (h.keyed hop.2 hmem) hop.1 row

end

/-- Fetching from the pipeline of a sane query returns its rows. -/
theorem fetches_of_sane {ast : Ast} (h : Everywhere (Sane source sourceOrder) ast) :
    Fetches source sourceOrder ast := by
  induction ast with
  | level ast ih =>
    intro partitionKey constraint hpartition
    have hsubs : ∀ sub ∈ (queryOf ast).subs, Fetches source sourceOrder sub.query :=
      fun sub hsub => ih sub hsub (h.sub hsub)
    have hready : LevelReady source (sourceOrder ((queryOf ast).map (built sourceOrder)).table
        ((queryOf ast).map (built sourceOrder)).orderBy) ((queryOf ast).map (built sourceOrder)) :=
      h.level.ready hsubs
    obtain ⟨nodes, hfetch, hrows, hnodes⟩ := buildLevel_fetch hready hpartition
    refine ⟨nodes, ?_, ?_, hnodes⟩
    · rw [built, foldAst_eq]
      exact hfetch
    · rw [hrows, meaning, foldAst_eq]
      exact congrArg (limited ast.limit) (filter_congr (fun row _ => h.level.holds_eq hsubs row))

end Correct

/-! ## Reached rows -/

section Reached

variable {source : Source} {sourceOrder : String → Option QueryOrdering → QueryOrdering}

theorem meaning_eq (source : Source) (sourceOrder : String → Option QueryOrdering → QueryOrdering) (ast : Ast) :
    meaning source sourceOrder ast =
      meaningLevel source sourceOrder ((queryOf ast).map (meaning source sourceOrder)) := foldAst_eq _ ast

/-- The rows of a query are those read for it that satisfy its condition. -/
theorem meaning_rows (ast : Ast) (constraint : Option Constraint) :
    (meaning source sourceOrder ast).rows constraint = limited ast.limit
      ((source.fetch ast.table (sourceOrder ast.table ast.orderBy) constraint (ast.start.map startOf)).filter
        (fun row => ((queryOf ast).map (meaning source sourceOrder)).where_.all (holds row))) := by
  rw [meaning_eq]
  rfl

variable {ast : Ast} {constraint : Option Constraint} {pair : String × Row}

theorem mem_reached : pair ∈ (meaning source sourceOrder ast).reached constraint ↔
      ∃ row ∈ (meaning source sourceOrder ast).rows constraint, (ast.table, row) = pair ∨
        ∃ sub ∈ (queryOf ast).hops, pair ∈ (meaning source sourceOrder sub.query).reached (sub.constraint row) := by
  have hhops : ((queryOf ast).map (meaning source sourceOrder)).hops =
      (queryOf ast).hops.map (Subquery.map (meaning source sourceOrder)) := by
    rw [hops, hops, existHops_map, map_append, List.filter_map, List.map_map, List.map_map]
    rfl
  rw [meaning_eq, meaningLevel]
  simp only [hhops, mem_append, List.mem_map, mem_flatMap, exists_exists_and_eq_and]
  constructor
  · rintro (⟨row, hrow, rfl⟩ | ⟨row, hrow, sub, hsub, hpair⟩)
    · exact ⟨row, hrow, .inl rfl⟩
    · exact ⟨row, hrow, .inr ⟨sub, hsub, hpair⟩⟩
  · rintro ⟨row, hrow, rfl | ⟨sub, hsub, hpair⟩⟩
    · exact .inl ⟨row, hrow, rfl⟩
    · exact .inr ⟨row, hrow, sub, hsub, hpair⟩

theorem hops_subset (q : Query α) : q.hops ⊆ q.subs := by
  intro sub hsub
  rcases mem_append.mp hsub with hmem | hmem
  · exact mem_append_left _ hmem
  · obtain ⟨hop, hhop, rfl⟩ := mem_map.mp hmem
    exact mem_append_right _ (mem_map_of_mem (mem_of_mem_filter hhop))

theorem reached_rows (h : pair ∈ (meaning source sourceOrder ast).reached constraint) :
    pair.2 ∈ source.rows pair.1 := by
  induction ast generalizing constraint with
  | level ast ih =>
    obtain ⟨row, hrow, rfl | ⟨sub, hsub, hpair⟩⟩ := mem_reached.mp h
    · rw [meaning_eq] at hrow
      exact ((source.mem_fetch _ _ _ _ _).mp (mem_of_mem_filter (mem_of_mem_limited hrow))).1
    · exact ih sub (hops_subset _ hsub) hpair

end Reached

end ZeroCache.Zql
