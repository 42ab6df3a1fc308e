import ZeroCache.Protocol.QueryHash
import Mathlib.Data.String.Basic

/-!
# Normal forms are canonical

The comparison of conditions is not an order: a subquery and a junction are each before the other,
and conditions that differ may compare as equal. Where no subquery meets a junction it compares by a
key, and where the key tells the comparisons and subqueries of a condition apart, sorting leaves one
order. Flattening merges a junction with its arms and their arms of the same type but not further.
For conditions that stay within these limits normal forms are canonical.
-/

namespace ZeroCache.Protocol

open Lib Zql List Ordering

/-! ## Keys of conditions -/

/-- What a side of a comparison is compared by. -/
def positionText (display : ℚ → String) : ValuePosition → String
  | .literal value => literalToString display value
  | .column name => name
  | .parameter _ => ""

/-- What an optional flag is compared by. -/
def optionalBoolText : Option Bool → String
  | none => "0"
  | some false => "1"
  | some true => "2"

/-- The fields of a comparison. -/
def simpleKey (display : ℚ → String) (op : SimpleOperator) (left right : ValuePosition) : List String :=
  ["1", typeStr left, positionText display left, op.asStr, typeStr right, positionText display right]

/-- The fields of a subquery. -/
def correlatedKey (related : CorrelatedSubquery) (op : ExistsOp) (flip scalar : Option Bool) : List String :=
  ["2", relatedAlias related, op.asStr, optionalBoolText flip, optionalBoolText scalar]

mutual
/-- What conditions are ordered by: the fields of a leaf, or the arms of a junction up to an end mark
that is before every arm. -/
def conditionKey (display : ℚ → String) : Condition → List String
  | .simple op left right => simpleKey display op left right
  | .and conditions => "3" :: "and" :: conditionKeys display conditions
  | .or conditions => "3" :: "or" :: conditionKeys display conditions
  | .correlatedSubquery related op flip scalar _ => correlatedKey related op flip scalar

/-- The keys of conditions and the end mark. -/
def conditionKeys (display : ℚ → String) : List Condition → List String
  | [] => ["0"]
  | condition :: rest => conditionKey display condition ++ conditionKeys display rest
end

variable {display : ℚ → String}

theorem cmpValuePosition_eq {a b : ValuePosition} (ha : isBound a = true) (hb : isBound b = true) :
    cmpValuePosition display a b = some ((keyCompare (typeStr a) (typeStr b)).then
      (keyCompare (positionText display a) (positionText display b))) := by
  cases a <;> cases b <;> simp_all [isBound, cmpValuePosition, typeStr, positionText] <;> rfl

theorem cmpSimple_eq (display : ℚ → String) (ao bo : SimpleOperator) {al ar bl br : ValuePosition} (hal : isBound al = true)
    (har : isBound ar = true) (hbl : isBound bl = true) (hbr : isBound br = true) :
    ∃ o, cmpSimple display ao bo al ar bl br = some o ∧ ∀ s t : List String,
      keyCompare (simpleKey display ao al ar ++ s) (simpleKey display bo bl br ++ t) = o.then (keyCompare s t) := by
  refine ⟨((keyCompare (typeStr al) (typeStr bl)).then (keyCompare (positionText display al) (positionText display bl))).then
    ((keyCompare ao.asStr bo.asStr).then ((keyCompare (typeStr ar) (typeStr br)).then
      (keyCompare (positionText display ar) (positionText display br)))), ?_, ?_⟩
  · rw [cmpSimple, cmpValuePosition_eq hal hbl, cmpValuePosition_eq har hbr]
    have hop : compare ao.asStr bo.asStr = keyCompare ao.asStr bo.asStr := rfl
    rw [hop]
    generalize (keyCompare (typeStr al) (typeStr bl)).then _ = o
    cases o with
    | lt | gt => rfl
    | eq =>
      generalize keyCompare ao.asStr bo.asStr = o'
      cases o' <;> rfl
  · simp [simpleKey, keyCompare_cons, then_assoc]

theorem cmpOptionalBool_eq (a b : Option Bool) :
    cmpOptionalBool a b = keyCompare (optionalBoolText a) (optionalBoolText b) := by
  rcases a with _ | _ | _ <;> rcases b with _ | _ | _ <;> decide

/-- A comparison or a subquery. -/
def isLeaf : Condition → Bool
  | .simple _ _ _ => true
  | .correlatedSubquery _ _ _ _ _ => true
  | _ => false

/-- A condition without subqueries. -/
def Plain (condition : Condition) : Prop := ∀ leaf ∈ leaves condition, ∃ op left right, leaf = .simple op left right

/-- Two conditions compare by their keys, also when something follows the keys. -/
def ComparesAs (display : ℚ → String) (a b : Condition) : Prop :=
  ∃ o, cmpCondition display a b = some o ∧
    ∀ s t, keyCompare (conditionKey display a ++ s) (conditionKey display b ++ t) = o.then (keyCompare s t)

variable {a b : Condition}

theorem ComparesAs.cmp_eq (h : ComparesAs display a b) :
    cmpCondition display a b = some (keyCompare (conditionKey display a) (conditionKey display b)) := by
  obtain ⟨o, ho, hkey⟩ := h
  have hnil := hkey [] []
  rw [append_nil, append_nil, keyCompare_self, then_eq] at hnil
  rw [ho, hnil]

theorem comparesAs_lt (h : cmpCondition display a b = some .lt) {x y : String} {k l : List String}
    (ha : conditionKey display a = x :: k) (hb : conditionKey display b = y :: l) (hlt : x < y) :
    ComparesAs display a b := by
  refine ⟨.lt, h, fun s t => ?_⟩
  rw [ha, hb, cons_append, cons_append, keyCompare_cons, keyCompare_lt hlt]
  rfl

theorem comparesAs_gt (h : cmpCondition display a b = some .gt) {x y : String} {k l : List String}
    (ha : conditionKey display a = x :: k) (hb : conditionKey display b = y :: l) (hlt : y < x) :
    ComparesAs display a b := by
  refine ⟨.gt, h, fun s t => ?_⟩
  rw [ha, hb, cons_append, cons_append, keyCompare_cons, keyCompare_gt hlt]
  rfl

theorem comparesAs_simple {ao bo : SimpleOperator} {al ar bl br : ValuePosition}
    (ha : BoundCondition (.simple ao al ar)) (hb : BoundCondition (.simple bo bl br)) :
    ComparesAs display (.simple ao al ar) (.simple bo bl br) := by
  obtain ⟨hal, har⟩ := ha ao al ar mem_cons_self
  obtain ⟨hbl, hbr⟩ := hb bo bl br mem_cons_self
  obtain ⟨o, ho, hkey⟩ := cmpSimple_eq display ao bo hal har hbl hbr
  exact ⟨o, by rw [cmpCondition, ho], hkey⟩

/-- Leaves without parameters compare by their keys. -/
theorem comparesAs_leaf (ha : isLeaf a = true) (hb : isLeaf b = true) (hbound : BoundCondition a)
    (hbound' : BoundCondition b) : ComparesAs display a b := by
  cases a with
  | simple =>
    cases b with
    | simple => exact comparesAs_simple hbound hbound'
    | correlatedSubquery => exact comparesAs_lt rfl rfl rfl (by decide)
    | _ => simp [isLeaf] at hb
  | correlatedSubquery =>
    cases b with
    | simple => exact comparesAs_gt rfl rfl rfl (by decide)
    | correlatedSubquery =>
      refine ⟨_, rfl, fun s t => ?_⟩
      rw [cmpOptionalBool_eq, cmpOptionalBool_eq]
      simp only [conditionKey, correlatedKey, cons_append, keyCompare_cons, then_assoc]
      rfl
    | _ => simp [isLeaf] at hb
  | _ => simp [isLeaf] at ha

/-- Every key is after the end mark. -/
theorem conditionKey_head (display : ℚ → String) (condition : Condition) : ∃ x k, conditionKey display condition = x :: k ∧ "0" < x := by
  cases condition with
  | simple | and | or => exact ⟨_, _, rfl, by decide⟩
  | correlatedSubquery => exact ⟨_, _, rfl, by decide⟩

theorem comparesAs_list {as bs : List Condition} (h : ∀ a ∈ as, ∀ b ∈ bs, ComparesAs display a b) :
    ∃ o, cmpConditions display as bs = some o ∧ ∀ s t,
      keyCompare (conditionKeys display as ++ s) (conditionKeys display bs ++ t) = o.then (keyCompare s t) := by
  induction as generalizing bs with
  | nil =>
    cases bs with
    | nil => exact ⟨.eq, rfl, fun s t => by simp [conditionKeys, keyCompare_cons]⟩
    | cons b =>
      obtain ⟨x, k, hkey, hlt⟩ := conditionKey_head display b
      refine ⟨.lt, rfl, fun s t => ?_⟩
      rw [conditionKeys, conditionKeys, hkey]
      simp only [cons_append, keyCompare_cons, keyCompare_lt hlt]
      rfl
  | cons a as ih =>
    cases bs with
    | nil =>
      obtain ⟨x, k, hkey, hlt⟩ := conditionKey_head display a
      refine ⟨.gt, rfl, fun s t => ?_⟩
      rw [conditionKeys, conditionKeys, hkey]
      simp only [cons_append, keyCompare_cons, keyCompare_gt hlt]
      rfl
    | cons b =>
      obtain ⟨o, ho, hkey⟩ := h a mem_cons_self b mem_cons_self
      obtain ⟨o', ho', hkeys⟩ := ih (fun x hx y hy => h x (mem_cons_of_mem _ hx) y (mem_cons_of_mem _ hy))
      refine ⟨o.then o', ?_, fun s t => ?_⟩
      · rw [cmpConditions, ho]
        cases o with
        | lt | gt => rfl
        | eq => exact ho'
      · rw [conditionKeys, conditionKeys, append_assoc, append_assoc, hkey, hkeys, then_assoc]

theorem Plain.arm {isAnd : Bool} {conditions : List Condition} (h : Plain (junction isAnd conditions)) {c : Condition}
    (hc : c ∈ conditions) : Plain c := by
  intro leaf hleaf
  refine h leaf ?_
  rw [leaves_junction]
  exact mem_flatMap.mpr ⟨c, hc, hleaf⟩

/-- Conditions without subqueries and parameters compare by their keys. -/
theorem comparesAs_plain (ha : Plain a) (hb : Plain b) (hbound : BoundCondition a)
    (hbound' : BoundCondition b) : ComparesAs display a b := by
  induction a using Condition.induct generalizing b with
  | simple =>
    cases b with
    | simple => exact comparesAs_simple hbound hbound'
    | correlatedSubquery | and => exact comparesAs_lt rfl rfl rfl (by decide)
    | or => exact comparesAs_lt rfl rfl rfl (by decide)
  | correlated related op =>
    obtain ⟨op, left, right, heq⟩ := ha _ mem_cons_self
    cases heq
  | junction kind as ih =>
    cases b using Condition.induct with
    | simple => cases kind <;> exact comparesAs_gt rfl rfl rfl (by decide)
    | correlated related op =>
      obtain ⟨op, left, right, heq⟩ := hb _ mem_cons_self
      cases heq
    | junction kind' bs =>
      obtain ⟨o, ho, hkeys⟩ := comparesAs_list (fun x (hx : x ∈ as) y (hy : y ∈ bs) =>
        ih x hx (ha.arm hx) (hb.arm hy) (hbound.arm hx) (hbound'.arm hy))
      have hlt : keyCompare "and" "or" = .lt := keyCompare_lt (by decide)
      have hgt : keyCompare "or" "and" = .gt := keyCompare_gt (by decide)
      cases kind <;> cases kind'
      · exact ⟨o, ho, fun s t => by simp [junction, conditionKey, keyCompare_cons, hkeys]⟩
      · exact ⟨.gt, rfl, fun s t => by simp [junction, conditionKey, keyCompare_cons, hgt]⟩
      · exact ⟨.lt, rfl, fun s t => by simp [junction, conditionKey, keyCompare_cons, hlt]⟩
      · exact ⟨o, ho, fun s t => by simp [junction, conditionKey, keyCompare_cons, hkeys]⟩

/-- The key tells two leaves apart. -/
def ToldApart (display : ℚ → String) (as bs : List Condition) : Prop :=
  ∀ a ∈ as, ∀ b ∈ bs, conditionKey display a = conditionKey display b → a = b

theorem conditionKey_inj_list {as bs : List Condition}
    (h : ∀ a ∈ as, ∀ b ∈ bs, ∀ s t, conditionKey display a ++ s = conditionKey display b ++ t → a = b ∧ s = t)
    {s t : List String} (heq : conditionKeys display as ++ s = conditionKeys display bs ++ t) : as = bs ∧ s = t := by
  induction as generalizing bs with
  | nil =>
    cases bs with
    | nil => exact ⟨rfl, (cons.inj heq).2⟩
    | cons b =>
      obtain ⟨x, k, hkey, hlt⟩ := conditionKey_head display b
      rw [conditionKeys, conditionKeys, hkey] at heq
      exact absurd (cons.inj heq).1 (ne_of_lt hlt)
  | cons a as ih =>
    cases bs with
    | nil =>
      obtain ⟨x, k, hkey, hlt⟩ := conditionKey_head display a
      rw [conditionKeys, conditionKeys, hkey] at heq
      exact absurd (cons.inj heq).1 (ne_of_gt hlt)
    | cons b =>
      rw [conditionKeys, conditionKeys, append_assoc, append_assoc] at heq
      obtain ⟨rfl, hrest⟩ := h a mem_cons_self b mem_cons_self _ _ heq
      obtain ⟨rfl, hst⟩ := ih (fun x hx y hy => h x (mem_cons_of_mem _ hx) y (mem_cons_of_mem _ hy)) hrest
      exact ⟨rfl, hst⟩

/-- Conditions without subqueries whose comparisons are told apart by the key are told apart by it. -/
theorem conditionKey_inj (ha : Plain a) (hb : Plain b)
    (hapart : ToldApart display (leaves a) (leaves b)) {s t : List String}
    (h : conditionKey display a ++ s = conditionKey display b ++ t) : a = b ∧ s = t := by
  induction a using Condition.induct generalizing b s t with
  | simple =>
    cases b with
    | simple =>
      obtain ⟨hkey, hst⟩ := append_inj h rfl
      exact ⟨hapart _ mem_cons_self _ mem_cons_self hkey, hst⟩
    | correlatedSubquery | and => exact absurd (cons.inj h).1 (by decide)
    | or => exact absurd (cons.inj h).1 (by decide)
  | correlated related op =>
    obtain ⟨op, left, right, heq⟩ := ha _ mem_cons_self
    cases heq
  | junction kind as ih =>
    cases b using Condition.induct with
    | simple => cases kind <;> exact absurd (cons.inj h).1 (by decide)
    | correlated related op =>
      obtain ⟨op, left, right, heq⟩ := hb _ mem_cons_self
      cases heq
    | junction kind' bs =>
      have hlist : ∀ {s t : List String}, conditionKeys display as ++ s = conditionKeys display bs ++ t →
          as = bs ∧ s = t := by
        refine fun {s t} => conditionKey_inj_list (fun x hx y hy s t heq => ih x hx (ha.arm hx) (hb.arm hy) ?_ heq)
        intro l hl l' hl'
        refine hapart l ?_ l' ?_
        · rw [leaves_junction]
          exact mem_flatMap.mpr ⟨x, hx, hl⟩
        · rw [leaves_junction]
          exact mem_flatMap.mpr ⟨y, hy, hl'⟩
      cases kind <;> cases kind' <;> simp only [junction, conditionKey, if_true, Bool.false_eq_true, if_false,
        cons_append, cons.injEq, true_and] at h ⊢
      · obtain ⟨rfl, hst⟩ := hlist h
        exact ⟨rfl, hst⟩
      · exact absurd h.1 (by decide)
      · exact absurd h.1 (by decide)
      · obtain ⟨rfl, hst⟩ := hlist h
        exact ⟨rfl, hst⟩

end ZeroCache.Protocol
