import ZeroCache.Zql.Fetch
import Mathlib.Data.Nat.Digits.Defs

/-!
# Names of relationships

Translating the subqueries of a condition keeps its comparisons and what it tests, and so does
numbering their aliases. `Formula.named` is a condition with the names its subqueries are joined
under as aliases; two subqueries of a condition never get the same name.
-/

namespace ZeroCache.Zql

open List Nat Function Lib Subquery

variable {α β : Type}

namespace Formula

/-! ## Translated conditions -/

section Map

variable (f : Subquery α → Subquery β)

section

variable (formula : Formula α)

@[simp]
theorem hasCorrelated_map : (formula.map f).hasCorrelated = formula.hasCorrelated := by
  induction formula with
  | simple | exist => rfl
  | and formulas ih | or formulas ih =>
    simp only [map, hasCorrelated, mapAll_eq, anyCorrelated_eq, any_map]
    exact any_congr_mem ih

@[simp]
theorem strip_map : (formula.map f).strip = formula.strip := by
  induction formula with
  | simple | exist => rfl
  | and formulas ih | or formulas ih =>
    have harms : formulas.filterMap (fun formula => (formula.map f).strip) = formulas.filterMap strip :=
      filterMap_congr ih
    simp only [map, strip, mapAll_eq, stripAll_eq, filterMap_map, comp_def, harms]

@[simp]
theorem simples_map : (formula.map f).simples = formula.simples := by
  induction formula with
  | simple | exist => rfl
  | and formulas ih | or formulas ih =>
    simp only [map, simples, mapAll_eq, allSimples_eq, flatMap_map]
    exact flatMap_congr ih

@[simp]
theorem armsKept_map : (formula.map f).armsKept = formula.armsKept := by
  induction formula with
  | simple | exist => rfl
  | and formulas ih =>
    simp only [map, armsKept, mapAll_eq, allArmsKept_eq, all_map]
    exact all_congr_mem ih
  | or formulas ih =>
    have harms : formulas.all (fun formula => (formula.map f).armsKept) = formulas.all armsKept := all_congr_mem ih
    simp only [map, armsKept, mapAll_eq, allArmsKept_eq, allStripped_eq, anyCorrelated_eq, all_map,
      any_map, comp_def, harms, hasCorrelated_map, strip_map]

end

theorem holdsWith_map (exist : ExistsOp → Subquery β → Row → Bool) (row : Row) (formula : Formula α) :
    (formula.map f).holdsWith exist row = formula.holdsWith (fun op sub => exist op (f sub)) row := by
  induction formula with
  | simple | exist => rfl
  | and formulas ih =>
    simp only [map, holdsWith, mapAll_eq, allHold_eq, all_map]
    exact all_congr_mem ih
  | or formulas ih =>
    simp only [map, holdsWith, mapAll_eq, anyHolds_eq, any_map]
    exact any_congr_mem ih

theorem evaluableOn_map {rows : List Row} {formula : Formula α} :
    (formula.map f).EvaluableOn rows ↔ formula.EvaluableOn rows := by
  rw [EvaluableOn, EvaluableOn, simples_map]

end Map

/-- What a condition says depends on its existence tests. -/
theorem holdsWith_congr {exist exist' : ExistsOp → Subquery α → Row → Bool} {row : Row} {formula : Formula α}
    (h : ∀ hop ∈ formula.gather, exist hop.1 hop.2 row = exist' hop.1 hop.2 row) :
    formula.holdsWith exist row = formula.holdsWith exist' row := by
  induction formula with
  | simple => rfl
  | exist op sub => exact h (op, sub) mem_cons_self
  | and formulas ih =>
    rw [gather, gatherAll_eq] at h
    simp only [holdsWith, allHold_eq]
    exact all_congr_mem (fun f hf => ih f hf (fun hop hhop => h hop (mem_flatMap.mpr ⟨f, hf, hhop⟩)))
  | or formulas ih =>
    rw [gather, gatherAll_eq] at h
    simp only [holdsWith, anyHolds_eq]
    exact any_congr_mem (fun f hf => ih f hf (fun hop hhop => h hop (mem_flatMap.mpr ⟨f, hf, hhop⟩)))

/-! ## Existence tests below a disjunction -/

mutual
/-- A subquery that must have a row is below a disjunction. -/
def existUnderOr : Formula α → Bool
  | .simple _ _ _ => false
  | .and formulas => anyExistUnderOr formulas
  | .or formulas => (gatherAll formulas).any (fun hop => hop.1 = .exist)
  | .exist _ _ => false

/-- The same of one of a list of conditions. -/
def anyExistUnderOr : List (Formula α) → Bool
  | [] => false
  | formula :: rest => existUnderOr formula || anyExistUnderOr rest
end

@[simp]
theorem anyExistUnderOr_eq (formulas : List (Formula α)) : anyExistUnderOr formulas = formulas.any existUnderOr := by
  induction formulas with
  | nil => rfl
  | cons formula rest ih => rw [anyExistUnderOr, ih, any_cons]

/-- Without any subquery below a disjunction there is none that must have a row. -/
theorem existUnderOr_of_not_underOr {formula : Formula α} (h : formula.underOr = false) :
    formula.existUnderOr = false := by
  induction formula with
  | simple | exist => rfl
  | and formulas ih =>
    rw [underOr, anyUnderOr_eq, any_eq_false] at h
    rw [existUnderOr, anyExistUnderOr_eq, any_eq_false]
    intro f hf
    simpa using ih f hf (by simpa using h f hf)
  | or formulas =>
    have hnone : (Formula.or formulas).gather = [] := gather_of_not_hasCorrelated h
    rw [gather] at hnone
    rw [existUnderOr, hnone]
    rfl

@[simp]
theorem existUnderOr_map (f : Subquery α → Subquery β) (formula : Formula α) :
    (formula.map f).existUnderOr = formula.existUnderOr := by
  induction formula with
  | simple | exist => rfl
  | and formulas ih =>
    simp only [map, existUnderOr, mapAll_eq, anyExistUnderOr_eq, any_map]
    exact any_congr_mem ih
  | or formulas =>
    have hgather := gather_map f (.or formulas)
    rw [map, gather] at hgather
    rw [map, existUnderOr, hgather, any_map]
    rfl

/-- A subquery that must have a row and is not below a disjunction is a solid one. -/
theorem mem_solidHops {formula : Formula α} (h : formula.existUnderOr = false) {hop : ExistsOp × Subquery α}
    (hhop : hop ∈ formula.gather) (hexist : hop.1 = .exist) : hop.2 ∈ formula.solidHops := by
  induction formula with
  | simple => simp [gather] at hhop
  | exist =>
    rw [gather, mem_singleton] at hhop
    simp [solidHops, hhop]
  | and formulas ih =>
    rw [gather, gatherAll_eq] at hhop
    obtain ⟨f, hf, hmem⟩ := mem_flatMap.mp hhop
    rw [existUnderOr, anyExistUnderOr_eq, any_eq_false] at h
    rw [solidHops, allSolidHops_eq]
    exact mem_flatMap.mpr ⟨f, hf, ih f hf (by simpa using h f hf) hmem⟩
  | or =>
    rw [existUnderOr, any_eq_false] at h
    exact absurd hexist (by simpa using h hop hhop)

end Formula

/-! ## Numbered aliases -/

/-- A subquery with another alias. -/
def Subquery.rename (alias_ : Option String) (sub : Subquery α) : Subquery α := { sub with alias_ := alias_ }

/-- The name of a subquery of a condition, given its position: numbered if the condition is a
conjunction or a disjunction. -/
def existName (compound : Bool) (alias_ : Option String) (index : ℕ) : String :=
  if compound then alias_.getD "" ++ "_" ++ toString index else relationshipName alias_ index

/-- The subqueries of a condition with the names they are joined under as aliases. -/
def namedHops (compound : Bool) (hops : List (ExistsOp × Subquery α)) (count : ℕ) : List (ExistsOp × Subquery α) :=
  (hops.zipIdx count).map (fun entry =>
    (entry.1.1, entry.1.2.rename (some (existName compound entry.1.2.alias_ entry.2))))

theorem namedHops_append (compound : Bool) (hops hops' : List (ExistsOp × Subquery α)) (count : ℕ) :
    namedHops compound (hops ++ hops') count =
      namedHops compound hops count ++ namedHops compound hops' (count + hops.length) := by
  rw [namedHops, zipIdx_append, map_append]
  rfl

namespace Formula

/-- Numbering the aliases of a condition names its subqueries by their positions and changes
nothing else. -/
def Numbered (formula numbered : Formula α) (count next : ℕ) : Prop :=
  numbered.gather = namedHops true formula.gather count ∧ next = count + formula.gather.length ∧
    numbered.map (Subquery.rename none) = formula.map (Subquery.rename none)

theorem uniquifyAll_numbered {formulas : List (Formula α)}
    (h : ∀ f ∈ formulas, ∀ count, Numbered f (f.uniquifyFrom count).1 count (f.uniquifyFrom count).2) (count : ℕ) :
    (uniquifyAll formulas count).1.flatMap gather = namedHops true (formulas.flatMap gather) count ∧
      (uniquifyAll formulas count).2 = count + (formulas.flatMap gather).length ∧
      (uniquifyAll formulas count).1.map (map (rename none)) = formulas.map (map (rename none)) := by
  induction formulas generalizing count with
  | nil => exact ⟨rfl, rfl, rfl⟩
  | cons formula rest ih =>
    obtain ⟨hgather, hnext, hmap⟩ := h formula mem_cons_self count
    obtain ⟨hgather', hnext', hmap'⟩ := ih (fun f hf => h f (mem_cons_of_mem _ hf)) (formula.uniquifyFrom count).2
    rw [uniquifyAll]
    refine ⟨?_, ?_, ?_⟩
    · rw [flatMap_cons, flatMap_cons, hgather, hgather', hnext, namedHops_append]
    · rw [hnext', hnext, flatMap_cons, length_append, add_assoc]
    · rw [map_cons, map_cons, hmap, hmap']

theorem uniquifyFrom_numbered (formula : Formula α) (count : ℕ) :
    Numbered formula (formula.uniquifyFrom count).1 count (formula.uniquifyFrom count).2 := by
  induction formula generalizing count with
  | simple | exist => exact ⟨rfl, rfl, rfl⟩
  | and formulas ih | or formulas ih =>
    obtain ⟨hgather, hnext, hmap⟩ := uniquifyAll_numbered ih count
    refine ⟨?_, ?_, ?_⟩
    · rwa [uniquifyFrom, gather, gather, gatherAll_eq, gatherAll_eq]
    · rwa [gather, gatherAll_eq]
    · rw [uniquifyFrom, map, map, mapAll_eq, mapAll_eq, hmap]

/-- A condition with the names its subqueries are joined under as aliases. -/
def named (formula : Formula α) : Formula α :=
  match formula with
  | .exist op sub => .exist op (sub.rename (some (relationshipName sub.alias_ 0)))
  | formula => formula.uniquify

section

variable (formula : Formula α)

theorem gather_named : formula.named.gather = namedHops formula.isCompound formula.gather 0 := by
  cases formula with
  | simple | exist => rfl
  | and formulas => exact (uniquifyFrom_numbered (.and formulas) 0).1
  | or formulas => exact (uniquifyFrom_numbered (.or formulas) 0).1

/-- Naming changes nothing but aliases. -/
theorem named_map : formula.named.map (rename none) = formula.map (rename none) := by
  cases formula with
  | simple | exist => rfl
  | and formulas => exact (uniquifyFrom_numbered (.and formulas) 0).2.2
  | or formulas => exact (uniquifyFrom_numbered (.or formulas) 0).2.2

theorem armsKept_named : formula.named.armsKept = formula.armsKept := by
  rw [← armsKept_map (rename none), named_map, armsKept_map]

theorem existUnderOr_named : formula.named.existUnderOr = formula.existUnderOr := by
  rw [← existUnderOr_map (rename none), named_map, existUnderOr_map]

end

theorem evaluableOn_named {formula : Formula α} {rows : List Row} :
    formula.named.EvaluableOn rows ↔ formula.EvaluableOn rows := by
  rw [← evaluableOn_map (rename none), named_map, evaluableOn_map]

theorem holdsWith_named {exist : ExistsOp → Subquery α → Row → Bool}
    (h : ∀ op sub, exist op (sub.rename none) = exist op sub) (formula : Formula α) (row : Row) :
    formula.named.holdsWith exist row = formula.holdsWith exist row := by
  have hmap := holdsWith_map (rename none) exist row formula.named
  rw [named_map, holdsWith_map] at hmap
  simpa only [h] using hmap.symm

end Formula

/-- Building a condition joins its subqueries under their names. -/
theorem applyWhere_named (formula : Formula Built) (input : Operator) :
    applyWhere formula.uniquify input = applyWhere formula.named input := by
  cases formula with
  | simple | and | or => rfl
  | exist =>
    rfl

/-! ## Different names -/

/-- The digits after the last underscore of a numbered name. -/
theorem takeWhile_numbered (base : List Char) (index : ℕ) :
    (base ++ '_' :: (toString index).toList).reverse.takeWhile (· ≠ '_') = (toString index).toList.reverse := by
  have hdigits : ∀ c ∈ (toString index).toList.reverse, (c ≠ '_') = true := by
    intro c hc
    have hmem : c ∈ toDigits 10 index := by
      rw [← toList_repr]
      exact mem_reverse.mp hc
    simpa using fun heq : c = '_' => underscore_not_in_toDigits (heq ▸ hmem)
  rw [reverse_append, reverse_cons, append_assoc, takeWhile_append_of_pos (by simpa using hdigits)]
  simp

theorem existName_inj {a b : Option String} {i j : ℕ} (h : existName true a i = existName true b j) : i = j := by
  have hlists : ∀ (c : Option String) k, (existName true c k).toList =
      (c.getD "").toList ++ '_' :: (toString k).toList := by
    simp [existName]
  have hdigits := congrArg (fun name : String => name.toList.reverse.takeWhile (· ≠ '_')) h
  simp only [hlists, takeWhile_numbered, reverse_inj] at hdigits
  have hsame : toDigits 10 i = toDigits 10 j := by
    rw [← toList_repr, ← toList_repr]
    exact hdigits
  calc
    i = ofDigitChars 10 (toDigits 10 i) 0 := ofDigitChars_ten_toDigits.symm
    _ = ofDigitChars 10 (toDigits 10 j) 0 := by rw [hsame]
    _ = j := ofDigitChars_ten_toDigits

theorem namedHops_names (compound : Bool) (hops : List (ExistsOp × Subquery α)) (count : ℕ) :
    (namedHops compound hops count).map (fun hop => hop.2.name) =
      (hops.zipIdx count).map (fun entry => existName compound entry.1.2.alias_ entry.2) := by
  rw [namedHops, map_map]
  rfl

/-- Two subqueries of a condition are joined under different names. -/
theorem Formula.nodup_named (formula : Formula α) : (formula.named.gather.map (fun hop => hop.2.name)).Nodup := by
  rw [gather_named, namedHops_names]
  cases hcompound : formula.isCompound with
  | true =>
    have hpositions : (formula.gather.zipIdx.map Prod.snd).Nodup := by
      rw [zipIdx_map_snd]
      exact nodup_range'
    rw [List.Nodup, pairwise_map] at hpositions ⊢
    exact hpositions.imp (fun hne heq => hne (existName_inj heq))
  | false =>
    cases formula with
    | simple | exist => simp [gather]
    | and | or => simp [isCompound] at hcompound

end ZeroCache.Zql
