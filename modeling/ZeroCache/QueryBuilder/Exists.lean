import ZeroCache.QueryBuilder.Filters

/-!
# Correlated subqueries in SQL

What an `EXISTS` means: some row of the child table equals the outer row in every correlated column
and satisfies the subquery's own condition. The SQL names each correlated column by its table, so it
means this as long as no subquery is on the table of the query right around it: then both names are
of the inner row. A table further out may be used again, since the inner one is found first.
-/

namespace ZeroCache.QueryBuilder

open Sqlite Zql List Option Bool SqlCondition

variable (stringify : JsonValue → String) (conv : Conversions) (db : Database)

/-! ## What a condition means -/

/-- A column of a row; one the table does not have reads as null. -/
def columnOf (scope : Scope) (name : String) : SqlValue × Affinity := (scope.read name).getD (.null, .blob)

/-- The rows of a parent and of a child are equal in all correlated columns. -/
def correlated (correlation : Correlation) (parent child : Scope) : Bool :=
  (correlation.parentField.zip correlation.childField).all (fun pair =>
    compareWith conv .eq (columnOf child pair.2) (columnOf parent pair.1) = some true)

mutual
/-- A row satisfies a condition. -/
def satisfies (scope : Scope) : Condition → Bool
  | .simple op left right =>
    (simpleConditionToSql stringify op left right).any (fun sql => sql.eval conv db [scope] = some true)
  | .and conditions => satisfiesAll scope conditions
  | .or conditions => satisfiesAny scope conditions
  | .correlatedSubquery related op _ _ _ => xor (op = .notExist) (hasRow scope related)

/-- A row satisfies all conditions. -/
def satisfiesAll (scope : Scope) : List Condition → Bool
  | [] => true
  | condition :: rest => satisfies scope condition && satisfiesAll scope rest

/-- A row satisfies one of the conditions. -/
def satisfiesAny (scope : Scope) : List Condition → Bool
  | [] => false
  | condition :: rest => satisfies scope condition || satisfiesAny scope rest

/-- A subquery has a row that is correlated with the outer row and satisfies its condition. -/
def hasRow (scope : Scope) : CorrelatedSubquery → Bool
  | .mk correlation (.mk _ table _ where_ _ _ _ _) _ _ =>
    (scopesOf db table).any (fun child => correlated conv correlation scope child && satisfiesWhere child where_)

/-- A row satisfies the condition of a subquery, if it has one. -/
def satisfiesWhere (scope : Scope) : Option Condition → Bool
  | none => true
  | some condition => satisfies scope condition
end

theorem satisfiesAll_eq (scope : Scope) (conditions : List Condition) :
    satisfiesAll stringify conv db scope conditions = conditions.all (satisfies stringify conv db scope) := by
  induction conditions with
  | nil => rfl
  | cons condition rest ih => rw [satisfiesAll, ih, all_cons]

theorem satisfiesAny_eq (scope : Scope) (conditions : List Condition) :
    satisfiesAny stringify conv db scope conditions = conditions.any (satisfies stringify conv db scope) := by
  induction conditions with
  | nil => rfl
  | cons condition rest ih => rw [satisfiesAny, ih, any_cons]

/-! ## Conditions whose names are found -/

/-- A table has a column. -/
def hasColumn (t : Table) (name : String) : Bool := (t.column? name).isSome

/-- A side of a comparison that is a literal or a column of the table. -/
def isOf (t : Table) : ValuePosition → Bool
  | .column name => hasColumn t name
  | .literal _ => true
  | .parameter _ => false

/-- A literal, or an operator that also takes a column on its right side. -/
def takes (op : SimpleOperator) : ValuePosition → Bool
  | .literal _ => true
  | _ => op ≠ .inList && op ≠ .notInList

mutual
/-- A condition on a table all of whose columns exist, with no subquery on the table of the query
right around it. -/
def wellScoped (t : Table) : Condition → Bool
  | .simple op left right => isOf t left && isOf t right && takes op right
  | .and conditions => allWellScoped t conditions
  | .or conditions => allWellScoped t conditions
  | .correlatedSubquery related _ _ _ _ => subWellScoped t related

/-- Conditions that are all well scoped. -/
def allWellScoped (t : Table) : List Condition → Bool
  | [] => true
  | condition :: rest => wellScoped t condition && allWellScoped t rest

/-- A subquery on another table that equates columns, with a well-scoped condition. -/
def subWellScoped (t : Table) : CorrelatedSubquery → Bool
  | .mk correlation (.mk _ table _ where_ _ _ _ _) _ _ =>
    correlation.parentField.length = correlation.childField.length && correlation.parentField ≠ [] &&
      (db.from? table).any (fun child => !sameName child.name t.name &&
        correlation.parentField.all (hasColumn t) && correlation.childField.all (hasColumn child) &&
        whereWellScoped child where_)

/-- A condition of a subquery that is well scoped, if there is one. -/
def whereWellScoped (t : Table) : Option Condition → Bool
  | none => true
  | some condition => wellScoped t condition
end

theorem allWellScoped_eq (t : Table) (conditions : List Condition) :
    allWellScoped db t conditions = conditions.all (wellScoped db t) := by
  induction conditions with
  | nil => rfl
  | cons condition rest ih => rw [allWellScoped, ih, all_cons]

/-! ## Reading names -/

variable {stringify conv db} {scope : Scope} {outers : List Scope}

theorem read_of_hasColumn {name : String} (h : hasColumn scope.table name = true) :
    ∃ read, scope.read name = some read ∧ columnOf scope name = read := by
  obtain ⟨column, hcolumn⟩ := isSome_iff_exists.mp h
  refine ⟨(cell scope.row column.name, declaredAffinity column.declType), ?_, ?_⟩
  · rw [Scope.read, hcolumn, map_some]
  · rw [columnOf, Scope.read, hcolumn, map_some, getD_some]

variable {t : Table} {outer : String}

/-- A side of a comparison on the innermost table reads the same whatever is around it. -/
theorem eval_own (stringify : JsonValue → String) (conv : Conversions) {position : ValuePosition}
    (h : isOf t position = true) : ∃ operand, valuePositionToSql stringify position = some operand ∧
      ∀ row outers, operand.eval conv (⟨t, row⟩ :: outers) = operand.eval conv [⟨t, row⟩] := by
  cases position with
  | parameter => cases h
  | literal => exact ⟨_, rfl, fun _ _ => rfl⟩
  | column name =>
    refine ⟨_, rfl, fun row outers => ?_⟩
    obtain ⟨read, hread, -⟩ := @read_of_hasColumn ⟨t, row⟩ name h
    rw [Operand.eval, Operand.eval, resolve_own hread, resolve_own hread]

/-- A comparison on the innermost table is the same whatever is around it. -/
theorem eval_simple (stringify : JsonValue → String) (conv : Conversions) (db : Database)
    {op : SimpleOperator} {left right : ValuePosition} (hleft : isOf t left = true) (hright : isOf t right = true)
    (htakes : takes op right = true) : ∃ sql, simpleConditionToSql stringify op left right = some sql ∧
      ∀ row outers, sql.eval conv db (⟨t, row⟩ :: outers) = sql.eval conv db [⟨t, row⟩] := by
  obtain ⟨a, ha, hevala⟩ := eval_own stringify conv hleft
  obtain ⟨b, hb, hevalb⟩ := eval_own stringify conv hright
  cases op with
  | inList | notInList =>
    cases right with
    | literal => exact ⟨_, by simp [simpleConditionToSql, inToSql, ha]; rfl, by simp [eval, hevala]⟩
    | _ => cases htakes
  | _ =>
    refine ⟨_, by simp [simpleConditionToSql, compareToSql, likeConditionToSql, ha, hb]; rfl, fun row outers => ?_⟩
    simp only [eval, Operand.eval, hevala row outers, hevalb row outers]

theorem sameName_iff {a b : String} : sameName a b = true ↔ a.toList.map Char.toLower = b.toList.map Char.toLower := by
  rw [sameName, beq_iff_eq]

/-- The rows of a FROM clause are those of a table with the name. -/
theorem sameName_of_from {name : String} (h : db.from? name = some t) : sameName t.name name = true :=
  find?_some (p := fun t : Table => sameName t.name name) h

/-- In the scope of a child, the correlation equates columns of the child with columns of the parent,
if the child is on another table than the parent. -/
theorem correlationToSql_eq_true {child : Scope} {table : String} {correlation : Correlation}
    (houter : sameName scope.table.name outer = true) (htable : sameName child.table.name table = true)
    (hother : sameName child.table.name scope.table.name = false)
    (hparent : ∀ name ∈ correlation.parentField, hasColumn scope.table name = true)
    (hchild : ∀ name ∈ correlation.childField, hasColumn child.table name = true) :
    (∀ sql ∈ correlationToSql (some outer) table correlation,
      sql.eval conv db (child :: scope :: outers) = some true) ↔ correlated conv correlation scope child = true := by
  have hpass : sameName child.table.name outer = false := by
    rw [← not_eq_true, sameName_iff] at hother ⊢
    rwa [← sameName_iff.mp houter]
  rw [correlationToSql, correlated, List.forall_mem_map, List.all_eq_true]
  refine forall₂_congr (fun pair hpair => ?_)
  obtain ⟨hp, hc⟩ := of_mem_zip hpair
  obtain ⟨parent, hparentRead, hparentOf⟩ := read_of_hasColumn (hparent pair.1 hp)
  obtain ⟨own, hownRead, hownOf⟩ := read_of_hasColumn (hchild pair.2 hc)
  rw [eval, Operand.eval, Operand.eval, resolve_qualified htable hownRead, resolve_pass hpass,
    resolve_qualified houter hparentRead, hparentOf, hownOf, decide_eq_true_eq]
  rfl

/-! ## What the SQL means -/

/-- The SQL of a condition on a table is true of the rows that satisfy the condition, whatever
queries are around it. -/
def Means (stringify : JsonValue → String) (conv : Conversions) (db : Database) (t : Table) (outer : String)
    (condition : Condition) : Prop :=
  ∃ sql, filtersToSqlWithOuter stringify (some outer) condition = some sql ∧
    ∀ row outers, sql.eval conv db (⟨t, row⟩ :: outers) = some true ↔
      satisfies stringify conv db ⟨t, row⟩ condition = true

/-- Arms that each mean what they say do so together. -/
theorem means_arms {conditions : List Condition} (h : ∀ c ∈ conditions, Means stringify conv db t outer c) :
    ∃ sqls, allToSqlWithOuter stringify (some outer) conditions = some sqls ∧ ∀ row outers,
      (evalAll conv db (⟨t, row⟩ :: outers) sqls = some true ↔
        ∀ c ∈ conditions, satisfies stringify conv db ⟨t, row⟩ c = true) ∧
      (evalAny conv db (⟨t, row⟩ :: outers) sqls = some true ↔
        ∃ c ∈ conditions, satisfies stringify conv db ⟨t, row⟩ c = true) := by
  induction conditions with
  | nil => exact ⟨[], rfl, by simp [evalAll, evalAny]⟩
  | cons condition rest ih =>
    obtain ⟨sql, hsql, hmeans⟩ := h condition mem_cons_self
    obtain ⟨sqls, hsqls, hrest⟩ := ih (fun c hc => h c (mem_cons_of_mem _ hc))
    refine ⟨sql :: sqls, by rw [allToSqlWithOuter, hsql, hsqls]; rfl, fun row outers => ⟨?_, ?_⟩⟩
    · rw [evalAll, sqlAnd_eq_true, hmeans, (hrest row outers).1, forall_mem_cons]
    · rw [evalAny, sqlOr_eq_true, hmeans, (hrest row outers).2, exists_mem_cons_iff]

theorem means_where {table : String} {where_ : Option Condition}
    (h : ∀ c ∈ where_, Means stringify conv db t table c) :
    ∃ sqls, whereToSql stringify table where_ = some sqls ∧ ∀ row outers,
      (∀ sql ∈ sqls, sql.eval conv db (⟨t, row⟩ :: outers) = some true) ↔
        satisfiesWhere stringify conv db ⟨t, row⟩ where_ = true := by
  cases where_ with
  | none => exact ⟨[], rfl, fun row outers => by simp [satisfiesWhere]⟩
  | some condition =>
    obtain ⟨sql, hsql, hmeans⟩ := h condition rfl
    refine ⟨[sql], by rw [whereToSql, hsql]; rfl, fun row outers => ?_⟩
    rw [forall_mem_singleton, hmeans, satisfiesWhere]

/-- A subquery on another table: its SQL is true of the rows that have a correlated row. -/
theorem means_exists (houter : sameName t.name outer = true) (negated : Bool)
    {related : CorrelatedSubquery} (h : subWellScoped db t related = true)
    (ih : ∀ c ∈ related.subquery.where_, ∀ child name, sameName child.name name = true →
      wellScoped db child c = true → Means stringify conv db child name c) :
    ∃ sql, existsToSql stringify (some outer) negated related = some sql ∧ ∀ row outers,
      sql.eval conv db (⟨t, row⟩ :: outers) = some true ↔
        xor negated (hasRow stringify conv db ⟨t, row⟩ related) = true := by
  obtain ⟨correlation, ⟨schema, table, alias_, where_, more, start, limit, orderBy⟩, system, hidden⟩ := related
  rw [subWellScoped, and_eq_true, and_eq_true, decide_eq_true_eq, decide_eq_true_eq] at h
  obtain ⟨⟨hlength, hnonempty⟩, hfrom⟩ := h
  cases hchild : db.from? table with
  | none => simp [hchild] at hfrom
  | some child =>
    obtain ⟨⟨⟨hother, hparent⟩, hown⟩, hwhere⟩ : ((sameName child.name t.name = false ∧
        ∀ name ∈ correlation.parentField, hasColumn t name = true) ∧
        ∀ name ∈ correlation.childField, hasColumn child name = true) ∧ whereWellScoped db child where_ = true := by
      simpa [hchild] using hfrom
    have hname := sameName_of_from hchild
    have hfilter : ∀ c ∈ where_, Means stringify conv db child table c := by
      rintro c rfl
      exact ih c rfl child table hname hwhere
    obtain ⟨filters, hfilters, hmeans⟩ := means_where hfilter
    refine ⟨.exist negated table (correlationToSql (some outer) table correlation ++ filters), ?_, fun row outers => ?_⟩
    · rw [existsToSql, if_neg (by simp [hlength, hnonempty]), hfilters]
      rfl
    · have hrow : ∀ scope ∈ scopesOf db table, decide (evalAll conv db (scope :: ⟨t, row⟩ :: outers)
          (correlationToSql (some outer) table correlation ++ filters) = some true) =
            (correlated conv correlation ⟨t, row⟩ scope && satisfiesWhere stringify conv db scope where_) := by
        intro scope hscope
        obtain ⟨inner, -, rfl⟩ : ∃ inner ∈ child.rows, Scope.mk child inner = scope := by
          simpa [scopesOf, hchild] using hscope
        rw [Bool.eq_iff_iff, decide_eq_true_eq, evalAll_eq_true, forall_mem_append, hmeans, and_eq_true,
          @correlationToSql_eq_true conv db ⟨t, row⟩ outers outer ⟨child, inner⟩ table correlation houter hname hother hparent
            hown]
      rw [eval, hasRow, Lib.any_congr_mem hrow, negateIf, map_some, some.injEq]

/-- Issues that may have a parent. -/
def treeTable : Table :=
  { name := "issue"
    columns := [⟨"id", "text|NOT_NULL", true, none⟩, ⟨"parent", "text", false, none⟩]
    primaryKey := ["id"]
    rows := [[("id", .text "i1"), ("parent", .null)], [("id", .text "i2"), ("parent", .text "i1")]] }

/-- Comments on issues. -/
def commentTable : Table :=
  { name := "comment"
    columns := [⟨"id", "text|NOT_NULL", true, none⟩, ⟨"issueID", "text", false, none⟩]
    primaryKey := ["id"]
    rows := [[("id", .text "c1"), ("issueID", .text "i1")]] }

/-- The replica with both tables. -/
def treeDatabase : Database := ⟨[treeTable, commentTable], []⟩

/-- A subquery on a table with one equated column. -/
def subqueryOn (table parentField childField : String) (where_ : Option Condition) : CorrelatedSubquery :=
  .mk ⟨[parentField], [childField]⟩ (.mk none table none where_ [] none none none) none none

/-- Issues with a comment on an issue of no parent: the innermost subquery is on the outermost table. -/
def commentedCondition : Condition :=
  .correlatedSubquery (subqueryOn "comment" "id" "issueID" (some (.correlatedSubquery
    (subqueryOn "issue" "issueID" "id" (some (.simple .is (.column "parent") (.literal .null))))
    .exist none none none))) .exist none none none

end ZeroCache.QueryBuilder
