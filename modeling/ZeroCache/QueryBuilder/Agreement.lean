import ZeroCache.QueryBuilder.Filters

/-!
# SQL and predicates

A query is hydrated by the SQL of its condition and kept up to date by the predicate of it. Here the
SQL is evaluated on a stored row and the predicate on the same row as it is typed. They agree when
every comparison is between values that both sides read alike: texts, exact numbers and booleans
stored as 0 and 1, with a literal of the column's own kind that no affinity changes. `LIKE`, which
SQLite evaluates without the case of ASCII letters, agrees for patterns without letters.
-/

namespace ZeroCache.QueryBuilder

open Sqlite Replica Zql ViewSyncer List LikeToken Char Comparison

/-! ## LIKE -/

/-- What is left when the escapes of a pattern are dealt with is no escape character. -/
theorem ne_escape {c : Char} {rest : List Char} (hescaped : ∀ d more, c = '\\' → rest = d :: more → False)
    (hlone : c = '\\' → rest = [] → False) : c ≠ '\\' := by
  rintro rfl
  cases rest with
  | nil => exact hlone rfl rfl
  | cons d more => exact hescaped d more rfl rfl

theorem compileLike_char {c : Char} (hrun : c ≠ '%') (hany : c ≠ '_') (hescape : c ≠ '\\') (rest : List Char) :
    compileLike (c :: rest) = (compileLike rest).map (char c :: ·) := by
  rw [compileLike]
  · exact hrun
  · exact hany
  · exact fun _ _ h _ => hescape h
  · exact fun h _ => hescape h

variable {pattern : List Char} {tokens : List LikeToken}

/-- A pattern that can be compiled matches in SQL what its tokens match without case. -/
theorem matchesLike_eq (h : compileLike pattern = some tokens)
    (chars : List Char) : matchesLike pattern chars = matchTokens true tokens chars := by
  induction pattern using compileLike.induct generalizing tokens chars with
  | case1 =>
    cases h
    simp [matchesLike, matchTokens]
  | case2 rest ih =>
    obtain ⟨inner, hinner, rfl⟩ := Option.map_eq_some_iff.mp h
    simp only [matchesLike, matchTokens]
    rw [funext (ih hinner)]
  | case3 rest ih | case4 c rest ih =>
    obtain ⟨inner, hinner, rfl⟩ := Option.map_eq_some_iff.mp h
    cases chars <;> simp [matchesLike, matchTokens, ih hinner]
  | case5 => cases h
  | case6 c rest hrun hany hescaped hlone ih =>
    have hescape := ne_escape hescaped hlone
    rw [compileLike_char hrun hany hescape] at h
    obtain ⟨inner, hinner, rfl⟩ := Option.map_eq_some_iff.mp h
    cases chars with
    | nil => simp [matchesLike_char_nil hrun hany hescape, matchTokens]
    | cons => simp [matchesLike_char hrun hany hescape, matchTokens, ih hinner]

/-- Putting both sides in lower case changes no match. -/
theorem matchesLike_lower (pattern chars : List Char) :
    matchesLike (pattern.map toLower) (chars.map toLower) = matchesLike pattern chars := by
  have hspecial : toLower '%' = '%' ∧ toLower '_' = '_' ∧ toLower '\\' = '\\' := ⟨rfl, rfl, rfl⟩
  induction pattern using compileLike.induct generalizing chars with
  | case1 => cases chars <;> simp [matchesLike]
  | case2 rest ih =>
    simp only [map_cons, hspecial, matchesLike, map_tails, any_map]
    rw [← funext ih]
    rfl
  | case3 rest ih | case4 c rest ih => cases chars <;> simp [hspecial, matchesLike, ih]
  | case5 => simp [hspecial, matchesLike]
  | case6 c rest hrun hany hescaped hlone ih =>
    have hescape := ne_escape hescaped hlone
    -- The lower case of a character is special only if the character is.
    have hrun' : c.toLower ≠ '%' := mt (eq_of_toLower_eq rfl) hrun
    have hany' : c.toLower ≠ '_' := mt (eq_of_toLower_eq rfl) hany
    have hescape' : c.toLower ≠ '\\' := mt (eq_of_toLower_eq rfl) hescape
    cases chars with
    | nil =>
      rw [map_nil, map_cons, matchesLike_char_nil hrun' hany' hescape',
        matchesLike_char_nil hrun hany hescape]
    | cons =>
      rw [map_cons, map_cons, matchesLike_char hrun' hany' hescape',
        matchesLike_char hrun hany hescape, toLower_toLower, toLower_toLower, ih]

/-- The characters of compiled patterns are characters of the pattern. -/
theorem mem_of_compileLike (h : compileLike pattern = some tokens)
    {c : Char} (hc : char c ∈ tokens) : c ∈ pattern := by
  induction pattern using compileLike.induct generalizing tokens with
  | case1 =>
    cases h
    simp at hc
  | case2 rest ih | case3 rest ih =>
    obtain ⟨inner, hinner, rfl⟩ := Option.map_eq_some_iff.mp h
    exact mem_cons_of_mem _ (ih hinner (by simpa using hc))
  | case4 d rest ih =>
    obtain ⟨inner, hinner, rfl⟩ := Option.map_eq_some_iff.mp h
    rcases mem_cons.mp hc with heq | hmem
    · cases heq
      simp
    · exact mem_cons_of_mem _ (mem_cons_of_mem _ (ih hinner hmem))
  | case5 => cases h
  | case6 d rest hrun hany hescaped hlone ih =>
    have hescape := ne_escape hescaped hlone
    rw [compileLike_char hrun hany hescape] at h
    obtain ⟨inner, hinner, rfl⟩ := Option.map_eq_some_iff.mp h
    rcases mem_cons.mp hc with heq | hmem
    · cases heq
      simp
    · exact mem_cons_of_mem _ (ih hinner hmem)

/-- Case makes no difference to a pattern without letters. -/
theorem matchTokens_caseless (h : ∀ c, char c ∈ tokens → c.isAlpha = false)
    (chars : List Char) : matchTokens true tokens chars = matchTokens false tokens chars := by
  induction tokens generalizing chars with
  | nil => rfl
  | cons token rest ih =>
    have hrest := ih (fun c hc => h c (mem_cons_of_mem _ hc))
    cases token with
    | anyRun =>
      simp only [matchTokens]
      rw [funext hrest]
    | anyChar => cases chars <;> simp [matchTokens, hrest]
    | char c =>
      have hc := h c mem_cons_self
      cases chars with
      | nil => rfl
      | cons =>
        simp only [matchTokens, hrest]
        rw [Bool.eq_iff_iff]
        simp [toLower_eq_iff hc]

/-! ## Values both sides read alike -/

/-- A stored value stands for a value of a row: texts, numbers, and booleans as 0 and 1. -/
inductive Stands : SqlValue → JsonValue → Prop
  | null : Stands .null .null
  | text (s : String) : Stands (.text s) (.string s)
  | number {value : SqlValue} {x : ℚ} (h : comparand value = some (.inl x)) : Stands value (.number x)
  | bool (b : Bool) : Stands (.integer (if b then 1 else 0)) (.bool b)

/-- A boolean against a number, which only the predicate tells apart. -/
def confused : JsonValue → JsonValue → Bool
  | .bool _, .number _ => true
  | .number _, .bool _ => true
  | _, _ => false

/-- Values of one kind, which the predicate can order. -/
def sameKind : JsonValue → JsonValue → Bool
  | .string _, .string _ => true
  | .number _, .number _ => true
  | .bool _, .bool _ => true
  | _, _ => false

section Values

variable {v w : SqlValue} {j l : JsonValue}

theorem Stands.eq_null_iff (h : Stands v j) : v = .null ↔ j = .null := by
  cases h with
  | null | text | bool => simp
  | number h =>
    refine iff_of_false ?_ (by simp)
    rintro rfl
    cases h

theorem Stands.comparand_isSome (h : Stands v j) : (comparand v).isSome = true ↔ j ≠ .null := by
  cases h with
  | null | text | bool => simp [comparand]
  | number h => simp [h]

theorem Stands.sqlOrder_isSome (hv : Stands v j) (hw : Stands w l) :
    (sqlOrder v w).isSome = true ↔ j ≠ .null ∧ l ≠ .null := by
  rw [← hv.comparand_isSome, ← hw.comparand_isSome, sqlOrder]
  cases comparand v <;> cases comparand w <;> simp

theorem Stands.sqlEq_iff (hv : Stands v j) (hw : Stands w l) (h : confused j l = false) :
    sqlEq v w = true ↔ j ≠ .null ∧ j = l := by
  rw [Sqlite.sqlEq_iff]
  cases hv <;> cases hw <;> simp_all [comparand, confused]
  · rename_i a b
    cases a <;> cases b <;> simp

theorem Stands.sqlOrder_eq (hv : Stands v j) (hw : Stands w l) (h : sameKind j l = true) :
    sqlOrder v w = compareValues j l := by
  cases hv <;> cases hw <;> simp_all [sqlOrder, comparand, comparandOrder, compareValues, sameKind]
  · rename_i a b
    cases a <;> cases b <;> rfl

end Values

/-! ## Comparisons both sides read alike -/

variable (env : Env) (conv : Conversions)

/-- The value type of a column of a table. -/
def columnType (t : Table) (column : String) : Option ValueType :=
  (t.columns.find? (fun c => c.name == column)).bind (fun c => liteTypeToZqlValueType c.declType)

/-- A stored row as it is typed (`fetch_rows_from_sqlite`). -/
def typedRow (t : Table) (row : SqlRow) : Row :=
  row.map (fun entry => (entry.1, sqlValueToZql env entry.2 (columnType t entry.1)))

/-- A stored value that stands for the value it is typed as. -/
def keptExactly : SqlValue → Option ValueType → Bool
  | .null, _ => true
  | .integer n, some .boolean => n == 0 || n == 1
  | _, some .boolean => false
  | .integer n, _ => env.asF64 n == n
  | .real _, _ => true
  | .text _, some .json => false
  | .text _, _ => true
  | .blob _, _ => false

/-- A literal that is no list and that the affinity of a column does not change. -/
def untouched : Affinity → LiteralValue → Bool
  | _, .array _ => false
  | .text, .number _ => false
  | .text, .bool _ => false
  | .numeric, .string s => (conv.number s).isNone
  | _, _ => true

/-- A text against a pattern that can be compiled, of characters that both sides match alike. -/
def suitsPattern (alike : String → String → Bool) : LiteralValue → JsonValue → Bool
  | .null, _ => true
  | .string pattern, .null => (compileLike pattern.toList).isSome
  | .string pattern, .string s => (compileLike pattern.toList).isSome && alike pattern s
  | _, _ => false

/-- A literal that is equated alike with a value. -/
def suitsEqual (affinity : Affinity) (value : JsonValue) (literal : LiteralValue) : Bool :=
  untouched conv affinity literal && !confused value (literalToValue literal)

/-- A literal that a value can be ordered with. -/
def suitsOrder (affinity : Affinity) (value : JsonValue) (literal : LiteralValue) : Bool :=
  untouched conv affinity literal &&
    (value = .null || literalToValue literal = .null || sameKind value (literalToValue literal))

/-- What a comparison of a value with a literal needs. -/
def suits (op : SimpleOperator) (affinity : Affinity) (value : JsonValue) (literal : LiteralValue) : Bool :=
  match op with
  | .eq | .ne | .is | .isNot => suitsEqual conv affinity value literal
  | .lt | .le | .gt | .ge => suitsOrder conv affinity value literal
  | .like | .notLike => suitsPattern (fun pattern _ => pattern.toList.all (fun c => !c.isAlpha)) literal value
  | .iLike | .notILike =>
    suitsPattern (fun pattern s => (pattern.toList ++ s.toList).all (fun c => c.toNat < 128)) literal value
  | .inList => match literal with
    | .array items => items.all (suitsEqual conv affinity value)
    | _ => false
  | .notInList => match literal with
    | .array items => (value ≠ .null || items ≠ []) && items.all (fun item =>
        literalToValue item ≠ .null && suitsEqual conv affinity value item)
    | _ => false

/-! ## One comparison -/

/-- What the predicate of a comparison makes of two values. -/
def testValues (op : SimpleOperator) (lhs rhs : JsonValue) : Option Bool :=
  if op = .is then some (lhs = rhs)
  else if op = .isNot then some (lhs ≠ rhs)
  else if rhs = .null ∨ lhs = .null then some false
  else evalNonNullOp op lhs rhs

/-- What the SQL of a comparison with a literal makes of a value with its affinity. -/
def testInSql (stringify : JsonValue → String) (op : SimpleOperator) (left : SqlValue × Affinity)
    (literal : LiteralValue) : Option Bool :=
  let compared := fun comparison => compareWith conv comparison left (toSqliteValue stringify literal, .blob)
  let matched := fun negated => negateIf negated (sqlLike conv left.1 (toSqliteValue stringify literal))
  let lowered := fun negated =>
    negateIf negated (sqlLike conv (lowerValue conv left.1) (lowerValue conv (toSqliteValue stringify literal)))
  let found := fun negated => negateIf negated (sqlIn left.1
    ((jsonEach stringify (literalToValue literal)).map (asCompared conv .blob left.2)))
  match op with
  | .eq => compared .eq
  | .ne => compared .ne
  | .is => compared .is
  | .isNot => compared .isNot
  | .lt => compared .lt
  | .gt => compared .gt
  | .le => compared .le
  | .ge => compared .ge
  | .like => matched false
  | .notLike => matched true
  | .iLike => lowered false
  | .notILike => lowered true
  | .inList => found false
  | .notInList => found true

section Comparison

variable {v w : SqlValue} {j l : JsonValue}

/-- Two tests that hold together: the predicate does not panic, and it is true when SQL is. -/
def Alike (predicate : Option Bool) (sql : Option Bool) : Prop := predicate = some (decide (sql = some true))

theorem alike_iff {b : Bool} {sql : Option Bool} : Alike (some b) sql ↔ (b = true ↔ sql = some true) := by
  rw [Alike, Option.some.injEq, Bool.eq_iff_iff, decide_eq_true_eq]

variable {op : SimpleOperator} {items : List LiteralValue}

/-- With a null every comparison but `IS` and `IS NOT` is not true. -/
theorem alike_of_null (his : op ≠ .is) (hisNot : op ≠ .isNot) (h : j = .null ∨ l = .null)
    {sql : Option Bool} (hsql : sql ≠ some true) : Alike (testValues op j l) sql := by
  rw [testValues, if_neg his, if_neg hisNot, if_pos h.symm, alike_iff]
  simp [hsql]

theorem Stands.sqlOrder_none (hv : Stands v j) (hw : Stands w l) (h : j = .null ∨ l = .null) :
    sqlOrder v w = none := by
  rw [← Option.not_isSome_iff_eq_none, hv.sqlOrder_isSome hw]
  tauto

theorem testValues_of_ne_null (his : op ≠ .is) (hisNot : op ≠ .isNot)
    (h : ¬ (j = .null ∨ l = .null)) : testValues op j l = evalNonNullOp op j l := by
  rw [testValues, if_neg his, if_neg hisNot, if_neg (mt Or.symm h)]

theorem Stands.alike_eq (hv : Stands v j) (hw : Stands w l) (h : confused j l = false) :
    Alike (testValues .eq j l) (eq.test v w) ∧ Alike (testValues .ne j l) (ne.test v w) := by
  by_cases hnull : j = .null ∨ l = .null
  · have hnone := hv.sqlOrder_none hw hnull
    exact ⟨alike_of_null (by simp) (by simp) hnull (by simp [test, hnone]),
      alike_of_null (by simp) (by simp) hnull (by simp [test, hnone])⟩
  · obtain ⟨order, horder⟩ := Option.isSome_iff_exists.mp ((hv.sqlOrder_isSome hw).mpr (not_or.mp hnull))
    have heq := hv.sqlEq_iff hw h
    rw [testValues_of_ne_null (by simp) (by simp) hnull, testValues_of_ne_null (by simp) (by simp) hnull]
    simp only [evalNonNullOp, test, horder, Option.map_some, alike_iff, Option.some.injEq,
      Bool.not_eq_true', ← Bool.not_eq_true, decide_eq_true_eq]
    tauto

theorem Stands.alike_is (hv : Stands v j) (hw : Stands w l) (h : confused j l = false) :
    Alike (testValues .is j l) (is.test v w) ∧ Alike (testValues .isNot j l) (isNot.test v w) := by
  have hiff : sqlIs v w = true ↔ j = l := by
    rw [sqlIs, Bool.or_eq_true, Bool.and_eq_true, beq_iff_eq, beq_iff_eq, hv.sqlEq_iff hw h, hv.eq_null_iff,
      hw.eq_null_iff]
    constructor
    · rintro (⟨-, heq⟩ | ⟨hj, hl⟩)
      · exact heq
      · rw [hj, hl]
    · rintro rfl
      tauto
  constructor
  · rw [testValues, if_pos rfl, alike_iff]
    simp [test, hiff]
  · rw [testValues, if_neg (by simp), if_pos rfl, alike_iff]
    simp [test, ← Bool.not_eq_true, hiff]

theorem Stands.alike_order (hv : Stands v j) (hw : Stands w l) (h : j = .null ∨ l = .null ∨ sameKind j l = true) :
    Alike (testValues .lt j l) (lt.test v w) ∧ Alike (testValues .le j l) (le.test v w) ∧
      Alike (testValues .gt j l) (gt.test v w) ∧ Alike (testValues .ge j l) (ge.test v w) := by
  by_cases hnull : j = .null ∨ l = .null
  · have hnone := hv.sqlOrder_none hw hnull
    refine ⟨?_, ?_, ?_, ?_⟩ <;>
      exact alike_of_null (by simp) (by simp) hnull (by simp [test, hnone])
  · have hkind : sameKind j l = true := by tauto
    obtain ⟨order, horder⟩ := Option.isSome_iff_exists.mp ((hv.sqlOrder_isSome hw).mpr (not_or.mp hnull))
    have hcompare : compareValues j l = some order := by rw [← hv.sqlOrder_eq hw hkind, horder]
    refine ⟨?_, ?_, ?_, ?_⟩ <;>
    · rw [testValues_of_ne_null (by simp) (by simp) hnull]
      simp [evalNonNullOp, test, horder, hcompare, alike_iff]

variable {conv} {stringify : JsonValue → String} {affinity : Affinity} {literal : LiteralValue}

theorem comparand_numberToSqlite (n : ℚ) : comparand (numberToSqlite n) = some (.inl n) := by
  unfold numberToSqlite
  split
  · next h => simp [comparand, Rat.coe_int_num_of_den_eq_one h.1]
  · rfl

/-- A bound literal stands for its value. -/
theorem stands_toSqliteValue (h : untouched conv affinity literal = true) :
    Stands (toSqliteValue stringify literal) (literalToValue literal) := by
  cases literal with
  | string s => exact .text s
  | number n => exact .number (comparand_numberToSqlite n)
  | bool b => exact .bool b
  | null => exact .null
  | array => cases affinity <;> cases h

/-- An item of a literal list stands for its value. -/
theorem stands_jsonEachValue (stringify : JsonValue → String) (h : untouched conv affinity literal = true) :
    Stands (jsonEachValue stringify (literalToValue literal)) (literalToValue literal) := by
  cases literal with
  | string s => exact .text s
  | number =>
    refine .number ?_
    rw [literalToValue, jsonEachValue]
    split
    · next h => simp [comparand, Rat.coe_int_num_of_den_eq_one h.1]
    · rfl
  | bool b => exact .bool b
  | null => exact .null
  | array => cases affinity <;> cases h

/-- The affinity of a column changes no value that stands for an untouched literal. -/
theorem asCompared_untouched (h : untouched conv affinity literal = true) (hw : Stands w (literalToValue literal)) :
    asCompared conv .blob affinity w = w := by
  generalize hl : literalToValue literal = l at hw
  cases affinity with
  | blob => rfl
  | text =>
    cases hw with
    | null | text => rfl
    | number | bool => cases literal <;> simp_all [untouched, literalToValue]
  | numeric =>
    cases hw with
    | null | bool => rfl
    | text => cases literal <;> simp_all [untouched, literalToValue, asCompared, convert]
    | number => cases w <;> simp_all [comparand, asCompared, convert]

theorem compareWith_untouched (comparison : Comparison) (h : untouched conv affinity literal = true)
    (hw : Stands w (literalToValue literal)) :
    compareWith conv comparison (v, affinity) (w, .blob) = comparison.test v w := by
  have hleft : asCompared conv affinity .blob v = v := by cases affinity <;> rfl
  rw [compareWith, hleft, asCompared_untouched h hw]

/-- Negating both tests of two texts that are alike keeps them alike. -/
theorem alike_negateIf (negated : Bool) (hop : op ≠ .is ∧ op ≠ .isNot) {found : Bool}
    (hnull : ¬ (j = .null ∨ l = .null)) (heval : evalNonNullOp op j l = some (xor negated found)) :
    Alike (testValues op j l) (negateIf negated (some found)) := by
  rw [testValues_of_ne_null hop.1 hop.2 hnull, heval, alike_iff]
  simp [negateIf]

section

variable (negated : Bool) {s pattern : String} {tokens : List LikeToken}
  (htokens : compileLike pattern.toList = some tokens)

include htokens

/-- `LIKE` on texts: both sides match alike when case makes no difference. -/
theorem alike_like (h : ∀ c ∈ pattern.toList, c.isAlpha = false) :
    Alike (testValues (if negated then .notLike else .like) (.string s) (.string pattern))
      (negateIf negated (sqlLike conv (.text s) (.text pattern))) := by
  have hsql : sqlLike conv (.text s) (.text pattern) = some (matchTokens false tokens s.toList) := by
    rw [← matchTokens_caseless (fun c hc => h c (mem_of_compileLike htokens hc)), ← matchesLike_eq htokens]
    rfl
  rw [hsql]
  refine alike_negateIf negated (by cases negated <;> simp) (by simp) ?_
  cases negated <;> simp [evalNonNullOp, likeMatches, htokens]

/-- `ILIKE` on texts: SQL puts both sides in lower case first. -/
theorem alike_iLike : Alike (testValues (if negated then .notILike else .iLike) (.string s) (.string pattern))
      (negateIf negated (sqlLike conv (.text (lowerText s)) (.text (lowerText pattern)))) := by
  have hsql : sqlLike conv (.text (lowerText s)) (.text (lowerText pattern)) =
      some (matchTokens true tokens s.toList) := by
    rw [← matchesLike_eq htokens, ← matchesLike_lower]
    simp [sqlLike, textOf, lowerText]
  rw [hsql]
  refine alike_negateIf negated (by cases negated <;> simp) (by simp) ?_
  cases negated <;> simp [evalNonNullOp, likeMatches, htokens]

end

/-- The values a literal list is searched for by SQL. -/
def searched (conv : Conversions) (stringify : JsonValue → String) (affinity : Affinity) (items : List LiteralValue) :
    List SqlValue :=
  (items.map (fun item => jsonEachValue stringify (literalToValue item))).map (asCompared conv .blob affinity)

/-- Each value that is searched stands for an item. -/
theorem searched_eq (h : ∀ item ∈ items, untouched conv affinity item = true) :
    searched conv stringify affinity items =
      items.map (fun item => jsonEachValue stringify (literalToValue item)) := by
  rw [searched, map_map]
  exact map_congr_left (fun item hitem =>
    asCompared_untouched (h item hitem) (stands_jsonEachValue stringify (h item hitem)))

/-- A value is found in a list by SQL when it is an item of it. -/
theorem Stands.any_searched (stringify : JsonValue → String) (hv : Stands v j)
    (htouch : ∀ item ∈ items, untouched conv affinity item = true)
    (hkind : ∀ item ∈ items, confused j (literalToValue item) = false) :
    (searched conv stringify affinity items).any (sqlEq v ·) = true ↔
      j ≠ .null ∧ ∃ item ∈ items, literalToValue item = j := by
  have hfound : ∀ item ∈ items, sqlEq v (jsonEachValue stringify (literalToValue item)) = true ↔
      j ≠ .null ∧ literalToValue item = j := by
    intro item hitem
    rw [hv.sqlEq_iff (stands_jsonEachValue stringify (htouch item hitem)) (hkind item hitem),
      eq_comm (a := j) (b := literalToValue item)]
  rw [searched_eq htouch, any_map, any_eq_true]
  constructor
  · rintro ⟨item, hitem, heq⟩
    exact ⟨((hfound item hitem).mp heq).1, item, hitem, ((hfound item hitem).mp heq).2⟩
  · rintro ⟨hj, item, hitem, heq⟩
    exact ⟨item, hitem, (hfound item hitem).mpr ⟨hj, heq⟩⟩

section

variable (hv : Stands v j) (htouch : ∀ item ∈ items, untouched conv affinity item = true)
  (hkind : ∀ item ∈ items, confused j (literalToValue item) = false)

include hv htouch hkind

/-- `IN`: SQL finds what the predicate finds. -/
theorem Stands.alike_in : Alike (testValues .inList j (literalToValue (.array items)))
      (negateIf false (sqlIn v (searched conv stringify affinity items))) := by
  have hsql := negateIf_false_eq_true.trans (sqlIn_eq_true.trans (hv.any_searched stringify htouch hkind))
  by_cases hj : j = .null
  · refine alike_of_null (by simp) (by simp) (.inl hj) (fun htrue => ?_)
    exact (hsql.mp htrue).1 hj
  · rw [testValues_of_ne_null (by simp) (by simp) (by simp [hj, literalToValue]), literalToValue, literalsToValues_eq,
      evalNonNullOp, inSet, alike_iff, hsql]
    simp [hj]

/-- `NOT IN`: a null in the list would make SQL's answer null, and an empty list makes it true of null. -/
theorem Stands.alike_notIn (hitems : ∀ item ∈ items, literalToValue item ≠ .null) (hempty : j ≠ .null ∨ items ≠ []) :
    Alike (testValues .notInList j (literalToValue (.array items)))
      (negateIf true (sqlIn v (searched conv stringify affinity items))) := by
  have hany := hv.any_searched stringify htouch hkind
  have hnull : SqlValue.null ∉ searched conv stringify affinity items := by
    rw [searched_eq htouch, mem_map]
    rintro ⟨item, hitem, heq⟩
    exact hitems item hitem ((stands_jsonEachValue stringify (htouch item hitem)).eq_null_iff.mp heq)
  have hnil : searched conv stringify affinity items = [] ↔ items = [] := by simp [searched]
  have hsql : negateIf true (sqlIn v (searched conv stringify affinity items)) = some true ↔
      items = [] ∨ ¬ (j ≠ .null ∧ ∃ item ∈ items, literalToValue item = j) ∧ j ≠ .null := by
    rw [negateIf_true_eq_true, sqlIn_eq_false, hnil, ← Bool.not_eq_true, hany, ne_eq v, hv.eq_null_iff]
    simp [hnull]
  by_cases hj : j = .null
  · refine alike_of_null (by simp) (by simp) (.inl hj) (fun htrue => ?_)
    rcases hsql.mp htrue with hnil | ⟨-, hne⟩
    · exact hempty.elim (fun h => h hj) (fun h => h hnil)
    · exact hne hj
  · rw [testValues_of_ne_null (by simp) (by simp) (by simp [hj, literalToValue]), literalToValue, literalsToValues_eq,
      evalNonNullOp, inSet, Option.map_some, alike_iff, hsql]
    rcases items with _ | ⟨item, rest⟩
    · simp
    · simp [hj]

end

theorem of_suitsPattern {alike : String → String → Bool} (h : suitsPattern alike literal j = true) :
    literal = .null ∨ ∃ pattern tokens, literal = .string pattern ∧ compileLike pattern.toList = some tokens ∧
      (j = .null ∨ ∃ s, j = .string s ∧ alike pattern s = true) := by
  cases literal with
  | null => exact .inl rfl
  | string pattern =>
    cases j <;> simp only [suitsPattern, Bool.and_eq_true, Bool.false_eq_true, Option.isSome_iff_exists] at h
    · obtain ⟨tokens, htokens⟩ := h
      exact .inr ⟨pattern, tokens, rfl, htokens, .inl rfl⟩
    · obtain ⟨⟨tokens, htokens⟩, halike⟩ := h
      exact .inr ⟨pattern, tokens, rfl, htokens, .inr ⟨_, rfl, halike⟩⟩
  | number | bool | array => simp [suitsPattern] at h

theorem Stands.text_of_string (hv : Stands v j) {s : String} (hj : j = .string s) : v = .text s := by
  cases hv with
  | text =>
    cases hj
    rfl
  | _ => cases hj

/-- Pattern matches: with a null they are null in SQL and false in the predicate. -/
theorem Stands.alike_pattern (sql : SqlValue → SqlValue → Option Bool) (hv : Stands v j)
    (hop : op ≠ .is ∧ op ≠ .isNot) {alike : String → String → Bool} (h : suitsPattern alike literal j = true)
    (hleft : ∀ w, sql .null w ≠ some true) (hright : ∀ v, sql v .null ≠ some true)
    (htexts : ∀ s pattern tokens, compileLike pattern.toList = some tokens → alike pattern s = true →
      Alike (testValues op (.string s) (.string pattern)) (sql (.text s) (.text pattern))) :
    Alike (testValues op j (literalToValue literal)) (sql v (toSqliteValue stringify literal)) := by
  rcases of_suitsPattern h with rfl | ⟨pattern, tokens, rfl, htokens, hj | ⟨s, rfl, halike⟩⟩
  · exact alike_of_null hop.1 hop.2 (.inr rfl) (hright v)
  · rw [hv.eq_null_iff.mpr hj]
    exact alike_of_null hop.1 hop.2 (.inl hj) (hleft _)
  · rw [hv.text_of_string rfl]
    exact htexts s pattern tokens htokens halike

theorem Stands.alike_likes (hv : Stands v j) (negated : Bool)
    (h : suitsPattern (fun pattern _ => pattern.toList.all (fun c => !c.isAlpha)) literal j = true) :
    Alike (testValues (if negated then .notLike else .like) j (literalToValue literal))
      (negateIf negated (sqlLike conv v (toSqliteValue stringify literal))) := by
  refine hv.alike_pattern (fun v w => negateIf negated (sqlLike conv v w)) ?_ h (fun w => ?_) (fun v => ?_)
    (fun s pattern tokens htokens hplain => ?_)
  · cases negated <;> simp
  · simp [sqlLike_null_left, negateIf]
  · simp [sqlLike_null_right, negateIf]
  · exact alike_like negated htokens (by simpa using hplain)

theorem Stands.alike_iLikes (hv : Stands v j) (negated : Bool) {alike : String → String → Bool}
    (h : suitsPattern alike literal j = true) :
    Alike (testValues (if negated then .notILike else .iLike) j (literalToValue literal))
      (negateIf negated (sqlLike conv (lowerValue conv v) (lowerValue conv (toSqliteValue stringify literal)))) := by
  refine hv.alike_pattern (fun v w => negateIf negated (sqlLike conv (lowerValue conv v) (lowerValue conv w))) ?_ h
    (fun w => ?_) (fun v => ?_) (fun s pattern tokens htokens _ => ?_)
  · cases negated <;> simp
  · simp [lowerValue, textOf, sqlLike_null_left, negateIf]
  · simp [lowerValue, textOf, sqlLike_null_right, negateIf]
  · exact alike_iLike negated htokens

theorem jsonEach_array (items : List LiteralValue) : (jsonEach stringify (literalToValue (.array items))).map
    (asCompared conv .blob affinity) = searched conv stringify affinity items := by
  rw [literalToValue, literalsToValues_eq, jsonEach, searched]
  simp only [map_map, Function.comp_def]

theorem of_suitsEqual (h : suitsEqual conv affinity j literal = true) :
    untouched conv affinity literal = true ∧ confused j (literalToValue literal) = false := by
  simpa [suitsEqual] using h

theorem of_suitsOrder (h : suitsOrder conv affinity j literal = true) : untouched conv affinity literal = true ∧
    (j = .null ∨ literalToValue literal = .null ∨ sameKind j (literalToValue literal) = true) := by
  simpa [suitsOrder, or_assoc] using h

/-- Comparisons with an operator of SQL are tests of the values. -/
theorem Stands.alike_compare {comparison : Comparison} (htouch : untouched conv affinity literal = true)
    (h : Alike (testValues op j (literalToValue literal)) (comparison.test v (toSqliteValue stringify literal))) :
    Alike (testValues op j (literalToValue literal))
      (compareWith conv comparison (v, affinity) (toSqliteValue stringify literal, .blob)) := by
  rw [compareWith_untouched comparison htouch (stands_toSqliteValue htouch)]
  exact h

/-- A suitable comparison is true in SQL when its predicate is. -/
theorem Stands.alike (stringify : JsonValue → String) (hv : Stands v j) (h : suits conv op affinity j literal = true) :
    Alike (testValues op j (literalToValue literal)) (testInSql conv stringify op (v, affinity) literal) := by
  cases op with
  | eq =>
    obtain ⟨htouch, hkind⟩ := of_suitsEqual h
    exact alike_compare htouch (hv.alike_eq (stands_toSqliteValue htouch) hkind).1
  | ne =>
    obtain ⟨htouch, hkind⟩ := of_suitsEqual h
    exact alike_compare htouch (hv.alike_eq (stands_toSqliteValue htouch) hkind).2
  | is =>
    obtain ⟨htouch, hkind⟩ := of_suitsEqual h
    exact alike_compare htouch (hv.alike_is (stands_toSqliteValue htouch) hkind).1
  | isNot =>
    obtain ⟨htouch, hkind⟩ := of_suitsEqual h
    exact alike_compare htouch (hv.alike_is (stands_toSqliteValue htouch) hkind).2
  | lt =>
    obtain ⟨htouch, hkind⟩ := of_suitsOrder h
    exact alike_compare htouch (hv.alike_order (stands_toSqliteValue htouch) hkind).1
  | le =>
    obtain ⟨htouch, hkind⟩ := of_suitsOrder h
    exact alike_compare htouch (hv.alike_order (stands_toSqliteValue htouch) hkind).2.1
  | gt =>
    obtain ⟨htouch, hkind⟩ := of_suitsOrder h
    exact alike_compare htouch (hv.alike_order (stands_toSqliteValue htouch) hkind).2.2.1
  | ge =>
    obtain ⟨htouch, hkind⟩ := of_suitsOrder h
    exact alike_compare htouch (hv.alike_order (stands_toSqliteValue htouch) hkind).2.2.2
  | like => exact hv.alike_likes false h
  | notLike => exact hv.alike_likes true h
  | iLike => exact hv.alike_iLikes false h
  | notILike => exact hv.alike_iLikes true h
  | inList =>
    cases literal with
    | array items =>
      have hitems : ∀ item ∈ items, suitsEqual conv affinity j item = true := by simpa [suits] using h
      rw [testInSql, jsonEach_array]
      exact hv.alike_in (fun item hitem => (of_suitsEqual (hitems item hitem)).1)
        (fun item hitem => (of_suitsEqual (hitems item hitem)).2)
    | _ => cases h
  | notInList =>
    cases literal with
    | array items =>
      obtain ⟨hempty, hitems⟩ : (j ≠ .null ∨ items ≠ []) ∧
          ∀ item ∈ items, literalToValue item ≠ .null ∧ suitsEqual conv affinity j item = true := by
        simpa [suits] using h
      rw [testInSql, jsonEach_array]
      exact hv.alike_notIn (fun item hitem => (of_suitsEqual (hitems item hitem).2).1)
        (fun item hitem => (of_suitsEqual (hitems item hitem).2).2) (fun item hitem => (hitems item hitem).1) hempty
    | _ => cases h

end Comparison

/-! ## Conditions on a row -/

section Row

variable (t : Table) (row : SqlRow)

/-- The affinity a side of a comparison is compared with. -/
def affinityAt : ValuePosition → Affinity
  | .column name => ((t.column? name).map (fun c => declaredAffinity c.declType)).getD .blob
  | _ => .blob

/-- The value of a side of a comparison for a typed row. -/
def valueAt (typed : Row) : ValuePosition → JsonValue
  | .column name => typed.get name
  | .literal literal => literalToValue literal
  | .parameter _ => .null

/-- A side of a comparison whose value both sides read alike: a column of the table whose stored value
stands for its typed one, or a literal that is no list. -/
def readable : ValuePosition → Bool
  | .column name => (t.column? name).any (fun c => c.name == name) &&
      keptExactly env (cell row name) (columnType t name)
  | .literal literal => untouched conv .blob literal
  | .parameter _ => false

/-- A comparison that both sides read alike; the right side is a literal. -/
def comparable (op : SimpleOperator) (left right : ValuePosition) : Bool :=
  match right with
  | .literal literal => readable env conv t row left &&
      suits conv op (affinityAt t left) (valueAt (typedRow env t row) left) literal
  | _ => false

mutual
/-- A condition without subqueries whose comparisons are all read alike. -/
def agreeable : Condition → Bool
  | .simple op left right => comparable env conv t row op left right
  | .and conditions => allAgreeable conditions
  | .or conditions => allAgreeable conditions
  | .correlatedSubquery _ _ _ _ _ => false

/-- Conditions that are all agreeable. -/
def allAgreeable : List Condition → Bool
  | [] => true
  | condition :: rest => agreeable condition && allAgreeable rest
end

theorem allAgreeable_eq (conditions : List Condition) :
    allAgreeable env conv t row conditions = conditions.all (agreeable env conv t row) := by
  induction conditions with
  | nil => rfl
  | cons condition rest ih => rw [allAgreeable, ih, all_cons]

theorem typedRow_get (name : String) :
    (typedRow env t row).get name = sqlValueToZql env (cell row name) (columnType t name) := by
  unfold typedRow Row.get cell
  induction row with
  | nil =>
    cases columnType t name with
    | none => rfl
    | some type => cases type <;> rfl
  | cons entry rest ih =>
    rw [map_cons, Assoc.get?_cons, Assoc.get?_cons]
    by_cases h : entry.1 = name
    · simp [h]
    · simp only [h]
      exact ih

variable {env conv t row}

theorem stands_generic {value : SqlValue} (h : keptExactly env value none = true) :
    Stands value (genericSqlValueToZql env value) := by
  cases value with
  | null => exact .null
  | integer n =>
    have hexact : env.asF64 n = n := by simpa [keptExactly] using h
    exact .number (by rw [comparand, hexact])
  | real => exact .number rfl
  | text s => exact .text s
  | blob => cases h

theorem stands_of_keptExactly {value : SqlValue} {type : Option ValueType} (h : keptExactly env value type = true) :
    Stands value (sqlValueToZql env value type) := by
  rcases type with _ | type
  · exact stands_generic h
  · cases type with
    | null | string | number => cases value <;> exact @stands_generic env _ h
    | boolean =>
      cases value with
      | null => exact .null
      | integer n =>
        obtain rfl | rfl : n = 0 ∨ n = 1 := by simpa [keptExactly] using h
        · exact .bool false
        · exact .bool true
      | _ => cases h
    | json =>
      cases value with
      | null => exact .null
      | text => cases h
      | _ => exact @stands_generic env _ h

variable {left : ValuePosition}

theorem stands_of_readable (stringify : JsonValue → String)
    (h : readable env conv t row left = true) : ∃ operand v, valuePositionToSql stringify left = some operand ∧
      operand.eval conv [⟨t, row⟩] = (v, affinityAt t left) ∧ Stands v (valueAt (typedRow env t row) left) := by
  cases left with
  | parameter => cases h
  | literal => exact ⟨_, _, rfl, rfl, stands_toSqliteValue h⟩
  | column name =>
    obtain ⟨hcolumn, hkept⟩ : (t.column? name).any (fun c => c.name == name) = true ∧
        keptExactly env (cell row name) (columnType t name) = true := by
      simpa [readable] using h
    cases hfound : t.column? name with
    | none => simp [hfound] at hcolumn
    | some column =>
      have hname : column.name = name := by simpa [hfound] using hcolumn
      refine ⟨_, cell row name, rfl, ?_, ?_⟩
      · have hread : (Scope.mk t row).read name = some (cell row name, declaredAffinity column.declType) := by
          rw [Scope.read, hfound, Option.map_some, hname]
        rw [Operand.eval, resolve_own hread, affinityAt, hfound]
        rfl
      · rw [valueAt, typedRow_get]
        exact stands_of_keptExactly hkept

theorem simpleConditionToSql_literal (conv : Conversions) {stringify : JsonValue → String} {operand : Operand}
    (hleft : valuePositionToSql stringify left = some operand) (op : SimpleOperator) (literal : LiteralValue) :
    ∃ sql, simpleConditionToSql stringify op left (.literal literal) = some sql ∧
      ∀ db scopes, sql.eval conv db scopes = testInSql conv stringify op (operand.eval conv scopes) literal := by
  have hright : valuePositionToSql stringify (.literal literal) = some (.param (toSqliteValue stringify literal)) := rfl
  cases op <;> simp [simpleConditionToSql, compareToSql, inToSql, likeConditionToSql, hleft, hright,
    SqlCondition.eval, testInSql, Operand.eval]

theorem createSimplePredicate_literal {op : SimpleOperator} {literal : LiteralValue}
    {typed : Row} {b : Bool} (hbound : isBound left = true)
    (h : testValues op (valueAt typed left) (literalToValue literal) = some b) :
    ∃ predicate, createSimplePredicate op left (.literal literal) = some predicate ∧ predicate typed = some b := by
  cases left with
  | parameter => cases hbound
  | literal | column =>
    simp only [createSimplePredicate]
    rw [testValues, valueAt] at h
    split_ifs at h ⊢ <;> simp_all

/-- The SQL of a condition can be written and its predicate built, and for the row the predicate
holds when the SQL is true. -/
def Agrees (env : Env) (conv : Conversions) (db : Database) (t : Table) (row : SqlRow) (outer : Option String)
    (condition : Condition) : Prop :=
  ∃ sql predicate, filtersToSqlWithOuter env.stringify outer condition = some sql ∧
    createPredicate condition = some predicate ∧
    Alike (predicate (typedRow env t row)) (sql.eval conv db [⟨t, row⟩])

theorem agrees_simple (db : Database) (outer : Option String) {op : SimpleOperator} {right : ValuePosition}
    (h : comparable env conv t row op left right = true) : Agrees env conv db t row outer (.simple op left right) := by
  cases right with
  | column | parameter => cases h
  | literal literal =>
    obtain ⟨hreadable, hsuits⟩ := Bool.and_eq_true_iff.mp h
    obtain ⟨operand, v, hoperand, heval, hv⟩ := stands_of_readable env.stringify hreadable
    obtain ⟨sql, hsql, htest⟩ := simpleConditionToSql_literal conv hoperand op literal
    have hbound : isBound left = true := by
      cases left with
      | parameter => cases hreadable
      | _ => rfl
    have halike := hv.alike env.stringify hsuits
    obtain ⟨predicate, hpredicate, hvalue⟩ := createSimplePredicate_literal hbound halike
    refine ⟨sql, predicate, hsql, hpredicate, ?_⟩
    rw [Alike, hvalue, htest, heval]

/-- Arms that agree one by one agree as a conjunction and as a disjunction. -/
theorem agrees_arms {db : Database} {outer : Option String} {conditions : List Condition}
    (h : ∀ c ∈ conditions, Agrees env conv db t row outer c) :
    ∃ sqls predicates, allToSqlWithOuter env.stringify outer conditions = some sqls ∧
      createPredicatesWithExists (fun _ _ => none) conditions = some predicates ∧
      Alike (allOf predicates (typedRow env t row)) (evalAll conv db [⟨t, row⟩] sqls) ∧
      Alike (anyOf predicates (typedRow env t row)) (evalAny conv db [⟨t, row⟩] sqls) := by
  induction conditions with
  | nil => exact ⟨[], [], rfl, rfl, rfl, rfl⟩
  | cons condition rest ih =>
    obtain ⟨sql, predicate, hsql, hpredicate, halike⟩ := h condition mem_cons_self
    obtain ⟨sqls, predicates, hsqls, hpredicates, hall, hany⟩ := ih (fun c hc => h c (mem_cons_of_mem _ hc))
    rw [createPredicate] at hpredicate
    refine ⟨sql :: sqls, predicate :: predicates, ?_, ?_, ?_, ?_⟩
    · rw [allToSqlWithOuter, hsql, hsqls]
      rfl
    · rw [createPredicatesWithExists, hpredicate, hpredicates]
      rfl
    · rw [Alike] at halike hall ⊢
      rw [allOf, halike, hall, evalAll]
      by_cases htrue : sql.eval conv db [⟨t, row⟩] = some true <;> simp [htrue, sqlAnd_eq_true]
    · rw [Alike] at halike hany ⊢
      rw [anyOf, halike, hany, evalAny]
      by_cases htrue : sql.eval conv db [⟨t, row⟩] = some true <;> simp [htrue, sqlOr_eq_true]

end Row

/-! ## A table of issues -/

/-- A table with a column of each kind. -/
def issueTable : Table :=
  { name := "issue"
    columns := [⟨"id", "text|NOT_NULL", true, none⟩, ⟨"title", "text", false, none⟩,
      ⟨"priority", "int4", false, none⟩, ⟨"done", "bool", false, none⟩]
    primaryKey := ["id"]
    rows := [] }

/-- A stored issue without a priority. -/
def issueRow : SqlRow := [("id", .text "i1"), ("title", .text "ABC"), ("priority", .null), ("done", .integer 1)]

/-- `title ILIKE 'a%' AND done = TRUE AND (priority IS NULL OR priority < 3) AND id NOT IN ('i2')`. -/
def issueCondition : Condition :=
  .and [.simple .iLike (.column "title") (.literal (.string "a%")),
    .simple .eq (.column "done") (.literal (.bool true)),
    .or [.simple .is (.column "priority") (.literal .null), .simple .lt (.column "priority") (.literal (.number 3))],
    .simple .notInList (.column "id") (.literal (.array [.string "i2"]))]

end ZeroCache.QueryBuilder
