import ZeroCache.Protocol.Normalize
import ZeroCache.Zql.Correct

/-!
# Normal forms mean the same

Flattening drops empty junctions wherever they stand. An empty conjunction is true and an empty
disjunction is false, so dropping them keeps the meaning of a condition only where they are neutral:
no empty disjunction in a conjunction or alone, and no empty conjunction in a disjunction. Under that
condition a normal form selects the same rows at every hop.
-/

namespace ZeroCache.Protocol

open Lib Zql List Option Formula

/-! ## Empty junctions -/

mutual
/-- Nothing but junctions in a condition. -/
def hollow : Condition → Bool
  | .simple _ _ _ => false
  | .and conditions => allHollow conditions
  | .or conditions => allHollow conditions
  | .correlatedSubquery _ _ _ _ _ => false

/-- Nothing but junctions in conditions. -/
def allHollow : List Condition → Bool
  | [] => true
  | condition :: rest => hollow condition && allHollow rest
end

/-- A condition may stand in a junction: it is not an empty junction of the other type. -/
def fits (isAnd : Bool) : Condition → Bool
  | .and conditions => isAnd || !allHollow conditions
  | .or conditions => !isAnd || !allHollow conditions
  | _ => true

mutual
/-- Every empty junction in a condition is neutral where it stands. -/
def neutral : Condition → Bool
  | .simple _ _ _ => true
  | .and conditions => neutralArms true conditions
  | .or conditions => neutralArms false conditions
  | .correlatedSubquery _ _ _ _ _ => true

/-- Every empty junction in the arms of a junction is neutral where it stands. -/
def neutralArms (isAnd : Bool) : List Condition → Bool
  | [] => true
  | condition :: rest => fits isAnd condition && neutral condition && neutralArms isAnd rest
end

theorem allHollow_eq (conditions : List Condition) : allHollow conditions = conditions.all hollow := by
  induction conditions with
  | nil => rfl
  | cons condition rest ih => rw [allHollow, ih, all_cons]

theorem neutralArms_eq (isAnd : Bool) (conditions : List Condition) :
    neutralArms isAnd conditions = conditions.all (fun c => fits isAnd c && neutral c) := by
  induction conditions with
  | nil => rfl
  | cons condition rest ih => rw [neutralArms, ih, all_cons]

theorem hollow_junction (isAnd : Bool) (conditions : List Condition) :
    hollow (junction isAnd conditions) = conditions.all hollow := by
  cases isAnd <;> simp [junction, hollow, allHollow_eq]

theorem fits_junction (isAnd kind : Bool) (conditions : List Condition) :
    fits isAnd (junction kind conditions) = (isAnd = kind || !conditions.all hollow) := by
  cases isAnd <;> cases kind <;> simp [junction, fits, allHollow_eq]

theorem neutral_junction (isAnd : Bool) (conditions : List Condition) :
    neutral (junction isAnd conditions) = conditions.all (fun c => fits isAnd c && neutral c) := by
  cases isAnd <;> simp [junction, neutral, neutralArms_eq]

/-! ## Evaluating junctions -/

/-- All of the conditions, or one of them. -/
def join (isAnd : Bool) (value : Condition → Bool) (conditions : List Condition) : Bool :=
  if isAnd then conditions.all value else conditions.any value

/-- A value of conditions that evaluates junctions as such. -/
def Evaluates (value : Condition → Bool) : Prop :=
  ∀ isAnd conditions, value (junction isAnd conditions) = join isAnd value conditions

section

variable (isAnd : Bool) (value : Condition → Bool)

@[simp]
theorem join_nil : join isAnd value [] = isAnd := by
  cases isAnd <;> rfl

@[simp]
theorem join_singleton (c : Condition) : join isAnd value [c] = value c := by
  cases isAnd <;> simp [join]

theorem join_flatMap (f : Condition → List Condition) (conditions : List Condition) :
    join isAnd value (conditions.flatMap f) = join isAnd (fun c => join isAnd value (f c)) conditions := by
  cases isAnd <;> simp [join, all_flatMap, any_flatMap]

end

variable {isAnd : Bool} {value : Condition → Bool}

theorem join_congr {value' : Condition → Bool} {conditions : List Condition}
    (h : ∀ c ∈ conditions, value c = value' c) : join isAnd value conditions = join isAnd value' conditions := by
  cases isAnd with
  | true => exact all_congr_mem h
  | false => exact any_congr_mem h

theorem join_perm {a b : List Condition} (h : a.Perm b) : join isAnd value a = join isAnd value b := by
  cases isAnd with
  | true => exact h.all_eq
  | false => exact h.any_eq

section Flatten

variable {value : Condition → Bool}

/-- What flattening leaves of a condition is worth what the condition is worth in a junction. -/
theorem collapse_value (h : Evaluates value) (isAnd : Bool) (flat : List Condition) :
    ((collapse isAnd flat).map value).getD isAnd = join isAnd value flat := by
  match flat with
  | [] | [c] => simp [collapse]
  | c :: d :: rest => simp [collapse, h isAnd]

theorem collapse_eq_none {isAnd : Bool} {flat : List Condition} : collapse isAnd flat = none ↔ flat = [] := by
  match flat with
  | [] | [c] | c :: d :: rest => simp [collapse]

/-- Flattening leaves nothing of exactly the conditions that have nothing but junctions. -/
theorem flatten_eq_none (condition : Condition) : (flatten condition = none ↔ hollow condition = true) ∧
    ∀ isAnd, (armOf isAnd condition = [] ↔ hollow condition = true) := by
  induction condition using Condition.induct with
  | simple => exact ⟨by simp [flatten, hollow], fun isAnd => by cases isAnd <;> simp [armOf, flatten, hollow]⟩
  | correlated =>
    exact ⟨by simp [flatten, hollow], fun isAnd => by cases isAnd <;> simp [armOf, flatten, hollow]⟩
  | junction kind conditions ih =>
    have hnone : flatten (junction kind conditions) = none ↔ hollow (junction kind conditions) = true := by
      rw [flatten_junction, collapse_eq_none, flatMap_eq_nil_iff, hollow_junction, List.all_eq_true]
      exact forall₂_congr (fun c hc => (ih c hc).2 kind)
    refine ⟨hnone, fun isAnd => ?_⟩
    rw [armOf_junction]
    split
    · rw [flatMap_eq_nil_iff, hollow_junction, List.all_eq_true]
      refine forall₂_congr (fun c hc => ?_)
      rw [toList_eq_nil_iff]
      exact (ih c hc).1
    · rw [toList_eq_nil_iff]
      exact hnone

/-- Flattening keeps the value of a condition whose empty junctions are neutral. -/
theorem flatten_value (h : Evaluates value) (condition : Condition) (hneutral : neutral condition = true) :
    (∀ flat ∈ flatten condition, value flat = value condition) ∧
      ∀ isAnd, fits isAnd condition = true → join isAnd value (armOf isAnd condition) = value condition := by
  induction condition using Condition.induct with
  | simple | correlated =>
    refine ⟨fun flat hflat => by cases hflat; rfl, fun isAnd _ => ?_⟩
    cases isAnd <;> simp [armOf, flatten]
  | junction kind conditions ih =>
    rw [neutral_junction, List.all_eq_true] at hneutral
    have harms : ∀ c ∈ conditions, fits kind c = true ∧ neutral c = true := fun c hc => by simpa using hneutral c hc
    have harm : ∀ c ∈ conditions, join kind value (armOf kind c) = value c :=
      fun c hc => (ih c hc (harms c hc).2).2 kind (harms c hc).1
    have hflat : ∀ flat ∈ flatten (junction kind conditions), value flat = value (junction kind conditions) := by
      intro flat hflat
      rw [flatten_junction] at hflat
      have hcollapse := collapse_value h kind (conditions.flatMap (armOf kind))
      rw [hflat, join_flatMap, join_congr harm] at hcollapse
      exact hcollapse.trans (h kind conditions).symm
    refine ⟨hflat, fun isAnd hfits => ?_⟩
    rw [armOf_junction]
    split
    · next heq =>
      subst heq
      rw [join_flatMap, h isAnd]
      refine join_congr (fun c hc => ?_)
      cases hc' : flatten c with
      | some flat => simpa using (ih c hc (harms c hc).2).1 flat hc'
      | none =>
        -- an empty arm of the same type is worth what no arm at all is worth
        have hnil : armOf isAnd c = [] := ((flatten_eq_none c).2 isAnd).mpr ((flatten_eq_none c).1.mp hc')
        rw [← harm c hc, hnil]
        rfl
    · next hne =>
      cases hc' : flatten (junction kind conditions) with
      | some flat => simpa using hflat flat hc'
      | none =>
        have hhollow := (flatten_eq_none _).1.mp hc'
        rw [hollow_junction] at hhollow
        rw [fits_junction, hhollow] at hfits
        simp [hne] at hfits

end Flatten

/-! ## Conditions over a database -/

/-- The correlated subqueries of a condition. -/
def hopsOf (condition : Condition) : List (ExistsOp × Subquery Ast) := (formulaOf condition).gather

theorem hopsOf_junction (isAnd : Bool) (conditions : List Condition) :
    hopsOf (junction isAnd conditions) = conditions.flatMap hopsOf := by
  cases isAnd <;> simp [junction, hopsOf, formulaOf, gather, formulasOf_eq, flatMap_map] <;> rfl

theorem hopsOf_eq (condition : Condition) : hopsOf condition = (leaves condition).flatMap hopsOf := by
  induction condition using Condition.induct with
  | simple => rfl
  | correlated => exact (append_nil _).symm
  | junction isAnd conditions ih =>
    rw [hopsOf_junction, leaves_junction, flatMap_assoc]
    exact flatMap_congr ih

/-- Flattening keeps the subqueries of a condition. -/
theorem hopsOf_flatten {condition flat : Condition} (h : flatten condition = some flat) : hopsOf flat = hopsOf condition := by
  rw [hopsOf_eq flat, hopsOf_eq condition, ← (leaves_flatten condition).1, h]
  simp

section Database

variable (source : Source) (sourceOrder : String → Option QueryOrdering → QueryOrdering)

/-- A condition holds of a row over a database. -/
def holdsIn (row : Row) (condition : Condition) : Bool :=
  (formulaOf condition).holdsWith (fun op sub => existHolds op (sub.map (meaning source sourceOrder))) row

theorem evaluates_holdsIn (row : Row) : Evaluates (holdsIn source sourceOrder row) := by
  intro isAnd conditions
  cases isAnd <;> simp [junction, holdsIn, formulaOf, holdsWith, formulasOf_eq, join, List.all_map,
    List.any_map, Function.comp_def] <;> rfl

theorem where_holds (ast : Ast) (row : Row) :
    ((queryOf ast).map (meaning source sourceOrder)).where_.all (holds row) =
      ast.where_.all (holdsIn source sourceOrder row) := by
  cases hwhere : ast.where_ with
  | none => simp [queryOf, Query.map, hwhere]
  | some => simp [queryOf, Query.map, hwhere, holds, holdsIn, holdsWith_map]

/-- Two queries have the same meaning: they return the same rows under every constraint, and their
related subqueries can be matched one to one, under the same alias and correlation, so that matched
ones have the same meaning. -/
inductive SameMeaning : Ast → Ast → Prop where
  | intro (a b : Ast)
      (rows : ∀ constraint, (meaning source sourceOrder b).rows constraint = (meaning source sourceOrder a).rows constraint)
      (matched : List CorrelatedSubquery) (perm : matched.Perm b.related) (length : a.related.length = matched.length)
      (named : ∀ pair ∈ a.related.zip matched, pair.1.correlation = pair.2.correlation ∧
        pair.1.subquery.alias_ = pair.2.subquery.alias_)
      (subqueries : ∀ pair ∈ a.related.zip matched, SameMeaning pair.1.subquery pair.2.subquery) :
      SameMeaning a b

variable {source sourceOrder}

variable {a b : Ast}

theorem SameMeaning.rows_eq (h : SameMeaning source sourceOrder a b) (constraint : Option Constraint) :
    (meaning source sourceOrder b).rows constraint = (meaning source sourceOrder a).rows constraint := by
  cases h with
  | intro _ _ rows => exact rows constraint

/-- Matched related subqueries: the same alias, correlation and meaning. -/
def SameHop (source : Source) (sourceOrder : String → Option QueryOrdering → QueryOrdering)
    (a b : CorrelatedSubquery) : Prop :=
  a.correlation = b.correlation ∧ a.subquery.alias_ = b.subquery.alias_ ∧
    SameMeaning source sourceOrder a.subquery b.subquery

theorem sameMeaning_iff : SameMeaning source sourceOrder a b ↔
    (∀ constraint, (meaning source sourceOrder b).rows constraint = (meaning source sourceOrder a).rows constraint) ∧
      ∃ matched, List.Forall₂ (SameHop source sourceOrder) a.related matched ∧ matched.Perm b.related := by
  constructor
  · rintro ⟨_, _, rows, matched, perm, length, named, subqueries⟩
    refine ⟨rows, matched, forall₂_iff_zip.mpr ⟨length, fun hpair => ?_⟩, perm⟩
    exact ⟨(named _ hpair).1, (named _ hpair).2, subqueries _ hpair⟩
  · rintro ⟨rows, matched, hmatched, perm⟩
    refine .intro a b rows matched perm hmatched.length_eq (fun pair hpair => ?_) (fun pair hpair => ?_)
    · obtain ⟨hcorrelation, halias, -⟩ := forall₂_zip hmatched hpair
      exact ⟨hcorrelation, halias⟩
    · exact (forall₂_zip hmatched hpair).2.2

theorem SameMeaning.symm (h : SameMeaning source sourceOrder a b) : SameMeaning source sourceOrder b a := by
  induction a generalizing b with
  | level a ih =>
    obtain ⟨rows, matched, hmatched, hperm⟩ := sameMeaning_iff.mp h
    have hflip : List.Forall₂ (SameHop source sourceOrder) matched a.related := by
      refine (forall₂_imp_of_mem hmatched (fun csq hcsq csq' _ hhop => ?_)).flip
      exact ⟨hhop.1.symm, hhop.2.1.symm, ih (subOf csq) (mem_append_left _ (mem_map_of_mem hcsq)) hhop.2.2⟩
    obtain ⟨matched', hmatched', hperm'⟩ := perm_comp_forall₂ hperm.symm hflip
    exact sameMeaning_iff.mpr ⟨fun constraint => (rows constraint).symm, matched', hmatched', hperm'⟩

theorem SameMeaning.trans {c : Ast} (hab : SameMeaning source sourceOrder a b)
    (hbc : SameMeaning source sourceOrder b c) : SameMeaning source sourceOrder a c := by
  induction a generalizing b c with
  | level a ih =>
    obtain ⟨rows, matched, hmatched, hperm⟩ := sameMeaning_iff.mp hab
    obtain ⟨rows', matched', hmatched', hperm'⟩ := sameMeaning_iff.mp hbc
    obtain ⟨rest, hrest, hrestperm⟩ := perm_comp_forall₂ hperm hmatched'
    refine sameMeaning_iff.mpr ⟨fun constraint => (rows' constraint).trans (rows constraint), rest, ?_,
      hrestperm.trans hperm'⟩
    refine forall₂_trans_of_mem hmatched hrest (fun csq hcsq _ _ hhop hhop' => ?_)
    refine ⟨hhop.1.trans hhop'.1, hhop.2.1.trans hhop'.2.1, ?_⟩
    exact ih (subOf csq) (mem_append_left _ (mem_map_of_mem hcsq)) hhop.2.2 hhop'.2.2

variable {sorter : Sorter} {display : ℚ → String}

theorem existHolds_congr {op : ExistsOp} {a b : Subquery Ast} (hcorrelation : a.correlation = b.correlation)
    (h : SameMeaning source sourceOrder a.query b.query) (row : Row) :
    existHolds op (b.map (meaning source sourceOrder)) row = existHolds op (a.map (meaning source sourceOrder)) row := by
  have hrows : (b.map (meaning source sourceOrder)).query.rows ((b.map (meaning source sourceOrder)).constraint row) =
      (a.map (meaning source sourceOrder)).query.rows ((a.map (meaning source sourceOrder)).constraint row) := by
    simp only [Subquery.map, hcorrelation]
    exact h.rows_eq _
  cases op with
  | exist | notExist => rw [existHolds, existHolds, hrows]

section

variable (related : CorrelatedSubquery) (op : ExistsOp) (flip scalar : Option Bool) (planId : Option ℤ)

theorem hopsOf_correlated : hopsOf (.correlatedSubquery related op flip scalar planId) = [(op, subOf related)] := by
  cases related
  rfl

theorem holdsIn_correlated
    (row : Row) : holdsIn source sourceOrder row (.correlatedSubquery related op flip scalar planId) =
      existHolds op ((subOf related).map (meaning source sourceOrder)) row := by
  cases related
  rfl

end

theorem join_forall₂ {isAnd : Bool} {value : Condition → Bool} {conditions arms : List Condition}
    (h : List.Forall₂ (fun c c' => value c' = value c) conditions arms) :
    join isAnd value arms = join isAnd value conditions := by
  have hvalues : arms.map value = conditions.map value := by
    induction h with
    | nil => rfl
    | cons hhead _ ih => rw [map_cons, map_cons, hhead, ih]
  have hjoin : ∀ l : List Condition, join isAnd value l = if isAnd then (l.map value).all id else (l.map value).any id := by
    cases isAnd <;> simp [join, List.all_map, List.any_map]
  rw [hjoin, hjoin, hvalues]

variable {row : Row} {condition : Condition}

/-- Normalizing the arms of a flattened condition keeps what it says of a row. -/
theorem holdsIn_normalizeWhere (ih : ∀ hop ∈ hopsOf condition, ∀ normal, normalizeAst sorter display hop.2.query = some normal →
      SameMeaning source sourceOrder hop.2.query normal)
    {normal : Condition} (h : normalizeWhere sorter display condition = some normal) :
    holdsIn source sourceOrder row normal = holdsIn source sourceOrder row condition := by
  induction condition using Condition.induct generalizing normal with
  | simple =>
    rw [normalizeWhere_simple] at h
    cases h
    rfl
  | correlated related op =>
    rw [normalizeWhere_correlated, map_eq_some_iff] at h
    obtain ⟨csq, hcsq, rfl⟩ := h
    obtain ⟨hcorrelation, -, hnormal⟩ := normalizeSubquery_spec hcsq
    rw [holdsIn_correlated, holdsIn_correlated]
    refine existHolds_congr (a := subOf related) (b := subOf csq) hcorrelation (ih (op, subOf related) ?_ _ hnormal) row
    rw [hopsOf_correlated]
    exact mem_singleton_self _
  | junction isAnd conditions iharms =>
    rw [normalizeWhere_junction] at h
    obtain ⟨arms, harms, h⟩ := bind_eq_some_iff.mp h
    obtain ⟨sorted, hsorted, h⟩ := bind_eq_some_iff.mp h
    cases h
    rw [evaluates_holdsIn, evaluates_holdsIn, join_perm (sorter.perm hsorted)]
    refine join_forall₂ (forall₂_imp_of_mem (mapM_eq_some_iff.mp harms) (fun c hc c' _ hnormal => ?_))
    refine iharms c hc (fun hop hhop => ih hop ?_) hnormal
    rw [hopsOf_junction]
    exact mem_flatMap.mpr ⟨c, hc, hhop⟩

/-- The empty junctions of the condition of a level are neutral. -/
def NeutralLevel (ast : Ast) : Prop := ∀ condition ∈ ast.where_, neutral condition = true ∧ fits true condition = true

/-- The condition of a normal form says of a row what the condition of the query says. -/
theorem holdsIn_normalizedWhere {where_ normalized : Option Condition}
    (hneutral : ∀ condition ∈ where_, neutral condition = true ∧ fits true condition = true)
    (ih : ∀ condition ∈ where_, ∀ hop ∈ hopsOf condition, ∀ normal,
      normalizeAst sorter display hop.2.query = some normal → SameMeaning source sourceOrder hop.2.query normal)
    (h : normalizedWhere sorter display where_ = some normalized) :
    normalized.all (holdsIn source sourceOrder row) = where_.all (holdsIn source sourceOrder row) := by
  cases where_ with
  | none =>
    cases h
    rfl
  | some condition =>
    obtain ⟨hneutral, hfits⟩ := hneutral condition rfl
    obtain ⟨hflatten, harm⟩ := flatten_value (evaluates_holdsIn source sourceOrder row) condition hneutral
    rw [normalizedWhere, bind_some] at h
    cases hflat : flatten condition with
    | none =>
      rw [hflat] at h
      cases h
      have hnil := ((flatten_eq_none condition).2 true).mpr ((flatten_eq_none condition).1.mp hflat)
      have hvalue := harm true hfits
      rw [hnil] at hvalue
      exact hvalue
    | some flat =>
      rw [hflat] at h
      obtain ⟨normal, hnormal, rfl⟩ := map_eq_some_iff.mp h
      rw [all_some, all_some, ← hflatten flat hflat]
      exact holdsIn_normalizeWhere (fun hop hhop => ih condition rfl hop (hopsOf_flatten hflat ▸ hhop))
        hnormal

variable {ast : Ast}

theorem hop_mem_subs (hcondition : condition ∈ ast.where_)
    {hop : ExistsOp × Subquery Ast} (hhop : hop ∈ hopsOf condition) : hop.2 ∈ (queryOf ast).subs := by
  refine mem_append_right _ (mem_map_of_mem ?_)
  rw [mem_def] at hcondition
  simpa only [Query.existHops, queryOf, hcondition, map_some, hopsOf] using hhop

/-- The normal form of a query whose empty junctions are neutral has the meaning of the query. -/
theorem sameMeaning_normalizeAst {normal : Ast} (hneutral : Everywhere NeutralLevel ast)
    (h : normalizeAst sorter display ast = some normal) : SameMeaning source sourceOrder ast normal := by
  induction ast generalizing normal with
  | level ast ih =>
    obtain ⟨normalized, mapped, sorted, hwhere, hmapped, hsorted, rfl⟩ := normalizeAst_spec h
    refine .intro _ _ (fun constraint => ?_) mapped (sorter.perm hsorted).symm hmapped.length_eq ?_ ?_
    · rw [meaning_rows, meaning_rows]
      refine congrArg (limited ast.limit) (filter_congr (fun row _ => ?_))
      rw [where_holds, where_holds]
      refine holdsIn_normalizedWhere (fun condition hcondition => hneutral.level condition hcondition) ?_ hwhere
      intro condition hcondition hop hhop
      have hsub := hop_mem_subs hcondition hhop
      exact fun n hn => ih hop.2 hsub (hneutral.sub hsub) hn
    · intro pair hpair
      obtain ⟨hcorrelation, halias, -⟩ := normalizeSubquery_spec ((forall₂_zip hmapped) hpair)
      exact ⟨hcorrelation, halias⟩
    · intro pair hpair
      obtain ⟨-, -, hnormal⟩ := normalizeSubquery_spec ((forall₂_zip hmapped) hpair)
      have hsub : subOf pair.1 ∈ (queryOf ast).subs := mem_append_left _ (mem_map_of_mem (of_mem_zip hpair).1)
      exact ih (subOf pair.1) hsub (hneutral.sub hsub) hnormal

end Database

end ZeroCache.Protocol
