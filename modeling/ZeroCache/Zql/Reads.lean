import ZeroCache.Zql.Level

/-!
# The tables a pipeline reads

A pipeline reads a table only through its sources, and its sources are of the tables the query and
its subqueries name. Two states of the database with the same tables of these names give a pipeline
the same nodes.
-/

namespace ZeroCache.Zql

open List Formula

variable {P : String → Prop}

/-- All sources of an operator are of tables with a property. -/
inductive Reads (P : String → Prop) : Operator → Prop where
  | source {table : String} (order : QueryOrdering) (h : P table) : Reads P (.source table order)
  | skip {input : Operator} (bound : SkipBound) (h : Reads P input) : Reads P (.skip input bound)
  | filter {input : Operator} (condition : Condition) (h : Reads P input) : Reads P (.filter input condition)
  | join {parent child : Operator} (parentKey childKey : List String) (name : String) (hparent : Reads P parent)
      (hchild : Reads P child) : Reads P (.join parent child parentKey childKey name)
  | exist {input : Operator} (name : String) (op : ExistsOp) (h : Reads P input) : Reads P (.exist input name op)
  | take {input : Operator} (limit : ℕ) (partitionKey : Option (List String)) (h : Reads P input) :
      Reads P (.take input limit partitionKey)
  | fanOut {input : Operator} (h : Reads P input) : Reads P (.fanOut input)
  | fanIn {inputs : List Operator} (order : QueryOrdering) (h : ∀ input ∈ inputs, Reads P input) :
      Reads P (.fanIn order inputs)

theorem Reads.mono {Q : String → Prop} (hsub : ∀ table, P table → Q table) {op : Operator} (h : Reads P op) :
    Reads Q op := by
  induction h with
  | source order h => exact .source order (hsub _ h)
  | skip bound _ ih => exact .skip bound ih
  | filter condition _ ih => exact .filter condition ih
  | join parentKey childKey name _ _ ihparent ihchild => exact .join parentKey childKey name ihparent ihchild
  | exist name op _ ih => exact .exist name op ih
  | take limit partitionKey _ ih => exact .take limit partitionKey ih
  | fanOut _ ih => exact .fanOut ih
  | fanIn order _ ih => exact .fanIn order ih

theorem fetchAll_congr {source source' : Source} {inputs : List Operator}
    (h : ∀ input ∈ inputs, ∀ constraint start, fetch source input constraint start = fetch source' input constraint start)
    (constraint : Option Constraint) (start : Option Start) :
    fetchAll source inputs constraint start = fetchAll source' inputs constraint start := by
  induction inputs with
  | nil => rw [fetchAll, fetchAll]
  | cons input rest ih =>
    rw [fetchAll, fetchAll, h input mem_cons_self, ih (fun other hother => h other (mem_cons_of_mem _ hother))]

/-- Sources with the same tables give an operator the same nodes. -/
theorem Reads.fetch_congr {source source' : Source} (hsame : ∀ table, P table → source.fetch table = source'.fetch table)
    {op : Operator} (h : Reads P op) (constraint : Option Constraint) (start : Option Start) :
    fetch source op constraint start = fetch source' op constraint start := by
  induction h generalizing constraint start with
  | source order h => rw [fetch, fetch, hsame _ h]
  | skip bound _ ih | filter condition _ ih | take limit partitionKey _ ih => simp only [fetch, ih]
  | join parentKey childKey name _ _ ihparent ihchild => simp only [fetch, ihparent, ihchild]
  | exist name op _ ih => rw [fetch, fetch, ih]
  | fanOut _ ih => rw [fetch, fetch, ih]
  | fanIn order _ ih => simp only [fetch, fetchAll_congr ih constraint start]

/-! ## Built pipelines -/

/-- A built subquery reads tables with a property, whatever its partition. -/
def BuiltReads (P : String → Prop) (sub : Subquery Built) : Prop := ∀ partitionKey, Reads P (sub.query partitionKey)

/-- The subqueries of a condition read tables with a property. -/
def FormulaReads (P : String → Prop) (formula : Formula Built) : Prop := ∀ hop ∈ formula.gather, BuiltReads P hop.2

variable {input : Operator}

theorem reads_joinSubs {subs : List (Subquery Built)} (hsubs : ∀ sub ∈ subs, BuiltReads P sub)
    (h : Reads P input) : Reads P (joinSubs input subs) := by
  have hstep : ∀ (entries : List (Subquery Built × ℕ)), (∀ entry ∈ entries, BuiltReads P entry.1) →
      ∀ input, Reads P input → Reads P (entries.foldl
        (fun input entry => joinSub input entry.1 (relationshipName entry.1.alias_ entry.2)) input) := by
    intro entries
    induction entries with
    | nil => exact fun _ _ h => h
    | cons entry rest ih =>
      intro hentries input h
      exact ih (fun other hother => hentries other (mem_cons_of_mem _ hother)) _
        (.join _ _ _ h (hentries entry mem_cons_self _))
  refine hstep _ (fun entry hentry => hsubs _ ?_) input h
  exact fst_mem_of_mem_zipIdx hentry

theorem reads_existSubs (hops : List (ExistsOp × Subquery Built)) (h : Reads P input) :
    Reads P (existSubs input hops) := by
  rw [existSubs]
  generalize hops.zipIdx = entries
  induction entries generalizing input with
  | nil => exact h
  | cons entry rest ih => exact ih (.exist _ _ h)

variable {formula : Formula Built}

theorem reads_applyFlat (hformula : FormulaReads P formula)
    (h : Reads P input) : Reads P (applyFlat input formula) := by
  rw [applyFlat]
  split
  · exact .filter _ h
  · have hjoined : Reads P (joinSubs input (formula.gather.map Prod.snd)) := by
      refine reads_joinSubs (fun sub hsub => ?_) h
      obtain ⟨hop, hhop, rfl⟩ := mem_map.mp hsub
      exact hformula hop hhop
    refine reads_existSubs _ ?_
    split
    · exact .filter _ hjoined
    · exact hjoined

variable {formulas : List (Formula Built)}

theorem formulaReads_arm (h : ∀ hop ∈ gatherAll formulas, BuiltReads P hop.2) :
    ∀ arm ∈ formulas, FormulaReads P arm := by
  rw [gatherAll_eq] at h
  exact fun arm harm hop hhop => h hop (mem_flatMap.mpr ⟨arm, harm, hhop⟩)

theorem formulaReads_conjunction (h : ∀ arm ∈ formulas, FormulaReads P arm) :
    FormulaReads P (conjunction formulas) := by
  unfold conjunction
  split
  · next formula => exact h formula mem_cons_self
  · intro hop hhop
    rw [gather, gatherAll_eq] at hhop
    obtain ⟨arm, harm, hmem⟩ := mem_flatMap.mp hhop
    exact h arm harm hop hmem

theorem reads_branches
    (h : ∀ arm ∈ formulas, Reads P (applyWhere arm input)) : ∀ branch ∈ branches formulas input, Reads P branch := by
  induction formulas with
  | nil =>
    intro branch hbranch
    cases hbranch
  | cons arm rest ih =>
    have hrest := ih (fun other hother => h other (mem_cons_of_mem _ hother))
    intro branch hbranch
    rw [branches] at hbranch
    split at hbranch
    · rcases mem_cons.mp hbranch with rfl | hmem
      · exact h arm mem_cons_self
      · exact hrest branch hmem
    · exact hrest branch hbranch

theorem reads_chain (h : ∀ arm ∈ formulas, ∀ input, Reads P input → Reads P (applyWhere arm input))
    (hinput : Reads P input) : Reads P (chain formulas input) := by
  induction formulas generalizing input with
  | nil => rwa [chain]
  | cons arm rest ih =>
    refine ih (fun other hother => h other (mem_cons_of_mem _ hother)) ?_
    split
    · exact h arm mem_cons_self input hinput
    · exact hinput

/-- Applying a condition reads no tables but those of its subqueries. -/
theorem reads_applyWhere (hformula : FormulaReads P formula)
    (h : Reads P input) : Reads P (applyWhere formula input) := by
  induction formula generalizing input with
  | simple | exist =>
    exact reads_applyFlat hformula h
  | and formulas ih =>
    have harms := formulaReads_arm hformula
    rw [applyWhere]
    split
    · refine reads_chain (fun arm harm input hinput => ih arm harm (harms arm harm) hinput) ?_
      split
      · exact h
      · refine reads_applyFlat (formulaReads_conjunction (fun arm harm => harms arm ?_)) h
        exact mem_of_mem_filter harm
    · exact reads_applyFlat hformula h
  | or formulas ih =>
    have harms := formulaReads_arm hformula
    rw [applyWhere]
    split
    · refine .fanIn _ (fun branch hbranch => ?_)
      rcases mem_append.mp hbranch with hmem | hmem
      · exact reads_branches (fun arm harm => ih arm harm (harms arm harm) (.fanOut h)) branch hmem
      · split at hmem
        · cases hmem
        · rw [mem_singleton.mp hmem]
          exact .filter _ (.fanOut h)
    · exact reads_applyFlat hformula h

theorem formulaReads_named (h : FormulaReads P formula) : FormulaReads P formula.named := by
  intro hop hhop
  rw [gather_named] at hhop
  obtain ⟨entry, hentry, rfl⟩ := mem_map.mp hhop
  exact h entry.1 (fst_mem_of_mem_zipIdx hentry)

/-- One level of a pipeline reads its own table and those of its subqueries. -/
theorem reads_buildLevel {sourceOrder : String → Option QueryOrdering → QueryOrdering} {q : Query Built}
    (htable : P q.table) (hsubs : ∀ sub ∈ q.subs, BuiltReads P sub) (partitionKey : Option (List String)) :
    Reads P (buildLevel sourceOrder q partitionKey) := by
  have hstart : Reads P (applyStart q.start (.source q.table (sourceOrder q.table q.orderBy))) := by
    unfold applyStart
    split
    · exact .skip _ (.source _ htable)
    · exact .source _ htable
  have hcondition : Reads P (applyCondition q.where_
      (applyStart q.start (.source q.table (sourceOrder q.table q.orderBy)))) := by
    unfold applyCondition
    split
    · next formula hformula =>
      rw [applyWhere_named]
      refine reads_applyWhere (formulaReads_named (fun hop hhop => hsubs hop.2 ?_)) hstart
      refine mem_append_right _ (mem_map_of_mem ?_)
      rwa [Query.existHops, hformula]
    · exact hstart
  refine reads_joinSubs (fun sub hsub => hsubs sub (mem_append_left _ (mem_of_mem_lastByKey hsub))) ?_
  unfold applyLimit
  split
  · exact .take _ _ hcondition
  · exact hcondition

end ZeroCache.Zql
