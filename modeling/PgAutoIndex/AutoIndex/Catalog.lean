import PgAutoIndex.AutoIndex.Table

/-!
# The catalog and `CREATE INDEX`

The system catalogs as far as the advisor and the lifecycle pass read and change them, and the part
of the server that runs the advisor's statements: the `LIKE` test on index names, the lexer's
handling of an unquoted name, the resolution of an unqualified table name through the search path,
and `CREATE INDEX IF NOT EXISTS`.

A row of `pg_index` is kept together with the rows of `pg_class` and `pg_attribute` of the same
index, which is what the code's queries join. A schema and a name identify a relation, which a
`Catalog` carries as a field, so that index OIDs are not needed. An index on a partition can be
attached to an index on the partitioned table, and goes with it when that one is dropped.

The advisor writes the index name into its command without quotes. A name made of identifier
characters is one token, and the command means what it says. With any other character in it, the
text after the first one is SQL of its own, most often a syntax error. On a partitioned table the
command also makes or attaches indexes of the partitions. What the server does with such commands is
the parameter `otherSql`, about which nothing is assumed.
-/

namespace PgAutoIndex.AutoIndex

open List

/-! ## Catalog rows -/

/-- A row of `pg_attribute`: a column of a table. -/
structure PgAttribute where
  attnum : Int16
  attname : String
  deriving DecidableEq, Repr

/-- `relkind` of a relation that is not an index. -/
inductive RelKind where
  | RELATION
  | PARTITIONED_TABLE
  | MATVIEW
  | VIEW
  | SEQUENCE
  | FOREIGN_TABLE
  | COMPOSITE_TYPE
  deriving DecidableEq, Repr

/-- The kinds of relations that `DefineIndex` accepts. -/
def RelKind.indexable : RelKind → Bool
  | .RELATION => true
  | .PARTITIONED_TABLE => true
  | .MATVIEW => true
  | _ => false

/-- A row of `pg_class` that is not an index, with its columns. -/
structure PgClass where
  oid : Oid
  relname : String
  relnamespace : Oid
  relkind : RelKind
  reltuples : ℚ
  relpages : ℚ
  attributes : List PgAttribute
  deriving DecidableEq, Repr

/-- An index: its name and schema, its table, its leading column (`0` for an expression), the name
that its first index column has, and the schemas and names of the partitioned indexes that it is
attached to, directly or through others. -/
structure PgIndex where
  relname : String
  relnamespace : Oid
  indrelid : Oid
  indkey : Int16
  attname : String
  ancestors : List (Oid × String)
  deriving DecidableEq, Repr

/-- The schema and name of a table. -/
def PgClass.name (r : PgClass) : Oid × String := (r.relnamespace, r.relname)

/-- The schema and name of an index. -/
def PgIndex.name (i : PgIndex) : Oid × String := (i.relnamespace, i.relname)

/-- The catalogs of the worker's database. Two relations of one schema never have the same name. -/
structure Catalog where
  relations : List PgClass
  indexes : List PgIndex
  unique : (relations.map PgClass.name ++ indexes.map PgIndex.name).Nodup
  deriving DecidableEq

/-- Equality of names is decided component by component. -/
instance instLawfulBEqName : LawfulBEq (Oid × String) := inferInstance

/-- The names of all relations. -/
def Catalog.names (cat : Catalog) : List (Oid × String) :=
  cat.relations.map PgClass.name ++ cat.indexes.map PgIndex.name

/-- Build an index, unless its schema has a relation of that name. -/
def Catalog.add (cat : Catalog) (i : PgIndex) : Catalog :=
  if h : i.name ∈ cat.names then cat
  else
    { cat with
      indexes := cat.indexes ++ [i]
      unique := by
        rw [map_append, ← append_assoc]
        exact nodup_append.mpr ⟨cat.unique, nodup_singleton _, by
          rintro a ha b hb rfl
          rw [map_singleton, mem_singleton] at hb
          exact h (hb ▸ ha)⟩ }

/-- Drop the index of a name, if there is one, with those attached to it. -/
def Catalog.drop (cat : Catalog) (name : Oid × String) : Catalog :=
  { cat with
    indexes := cat.indexes.filter fun i => ¬ (i.name = name ∨ name ∈ i.ancestors)
    unique := cat.unique.sublist (filter_sublist.map _ |>.append_left _) }

/-- An index is gone after a drop if it has the name, or is attached to the index of that name. -/
theorem Catalog.not_mem_drop (cat : Catalog) {i : PgIndex} (hi : i ∈ cat.indexes)
    (name : Oid × String) :
    i ∉ (cat.drop name).indexes ↔ i.name = name ∨ name ∈ i.ancestors := by
  simp [Catalog.drop, hi, or_iff_not_imp_left]

/-- Two indexes of one name are the same. -/
theorem Catalog.eq_of_name (cat : Catalog) {i j : PgIndex} (hi : i ∈ cat.indexes)
    (hj : j ∈ cat.indexes) (h : i.name = j.name) : i = j :=
  inj_on_of_nodup_map (nodup_append.mp cat.unique).2.1 hi hj h

/-- Some index of the table has the column as its leading column. -/
def Catalog.Indexed (cat : Catalog) (relid : Oid) (attnum : Int16) : Prop :=
  ∃ i ∈ cat.indexes, i.indrelid = relid ∧ i.indkey = attnum

/-- Whether a column has an index is decidable. -/
instance (cat : Catalog) (relid : Oid) (attnum : Int16) : Decidable (cat.Indexed relid attnum) :=
  inferInstanceAs (Decidable (∃ i ∈ cat.indexes, i.indrelid = relid ∧ i.indkey = attnum))

/-! ## `LIKE` -/

/-- SQL `LIKE` without escapes: `%` stands for any text, `_` for any one character. -/
def like : List Char → List Char → Bool
  | [], s => s.isEmpty
  | c :: p, s =>
    if c = '%' then s.tails.any fun r => like p r
    else match s with
      | [] => false
      | d :: r => (c = '_' || c = d) && like p r

/-- The pattern by which the subsystem recognizes its indexes. -/
def autoIndexPattern : String := "autoindex_%"

/-- `relname LIKE 'autoindex_%'`. -/
def likeAutoIndex (relname : String) : Bool := like autoIndexPattern.toList relname.toList

/-- A pattern that starts with plain characters matches the texts that start with them, and go on
with a match of the rest. -/
theorem like_append_iff {l p s : List Char} (hl : ∀ c ∈ l, c ≠ '%' ∧ c ≠ '_') :
    like (l ++ p) s = true ↔ ∃ r, s = l ++ r ∧ like p r = true := by
  induction l generalizing s with
  | nil => simp
  | cons c l ih =>
    obtain ⟨⟨hpct, hus⟩, hl'⟩ := forall_mem_cons.mp hl
    cases s with
    | nil => simp [like, hpct]
    | cons d s =>
      rw [cons_append, like, if_neg hpct]
      simp only [hus, decide_false, Bool.false_or, Bool.and_eq_true, decide_eq_true_eq, ih hl',
        cons_append, cons.injEq]
      constructor
      · rintro ⟨rfl, r, rfl, hr⟩
        exact ⟨r, ⟨rfl, rfl⟩, hr⟩
      · rintro ⟨r, ⟨rfl, rfl⟩, hr⟩
        exact ⟨rfl, r, rfl, hr⟩

/-- The names recognized as those of automatic indexes: `autoindex`, any one character, any text. -/
theorem likeAutoIndex_iff (relname : String) : likeAutoIndex relname = true ↔
    ∃ c r, relname.toList = "autoindex".toList ++ c :: r := by
  have hpattern : autoIndexPattern.toList = "autoindex".toList ++ ['_', '%'] := by decide
  rw [likeAutoIndex, hpattern, like_append_iff (by simp)]
  constructor
  · rintro ⟨r, hr, hlike⟩
    cases r with
    | nil => simp [like] at hlike
    | cons c r => exact ⟨c, r, hr⟩
  · rintro ⟨c, r, hr⟩
    refine ⟨c :: r, hr, ?_⟩
    simp [like]

/-! ## Names in commands -/

/-- The characters that continue an unquoted identifier. -/
def identCont (c : Char) : Bool := c.isAlphanum || c = '_' || c = '$' || 128 ≤ c.toNat

/-- Cut a text to a number of bytes, between characters (`pg_mbcliplen`). -/
def clipBytes : ℕ → List Char → List Char
  | _, [] => []
  | n, c :: cs => if c.utf8Size ≤ n then c :: clipBytes (n - c.utf8Size) cs else []

/-- `NAMEDATALEN`: a name has fewer bytes. -/
def NAMEDATALEN : ℕ := 64

/-- What the lexer makes of an unquoted identifier: ASCII letters in lower case, and cut to the
length of a name. -/
def foldIdentifier (ident : String) : String :=
  String.ofList (clipBytes (NAMEDATALEN - 1) (ident.toList.map Char.toLower))

/-- `quote_identifier`: the name itself if it is a lower-case identifier and not a keyword that
needs quotes, and otherwise the name in double quotes, with those inside it doubled. -/
def quoteIdentifier (reserved : String → Bool) (ident : String) : String :=
  let plain (c : Char) : Bool := ('a' ≤ c && c ≤ 'z') || c.isDigit || c = '_'
  let safe : Bool := match ident.toList with
    | [] => false
    | c :: cs => (('a' ≤ c && c ≤ 'z') || c = '_') && cs.all plain
  if safe && !reserved ident then ident
  else "\"" ++ String.ofList (ident.toList.flatMap fun c => if c = '"' then ['"', '"']
    else [c]) ++ "\""

/-- The command that `create_index_for_candidate` builds, by the two names it is built from. -/
structure CreateIndex where
  tblname : String
  colname : String
  deriving DecidableEq, Repr

/-- The unquoted index name in the command. -/
def CreateIndex.indexName (cmd : CreateIndex) : String :=
  "autoindex_" ++ cmd.tblname ++ "_" ++ cmd.colname

/-- The text of the command. -/
def CreateIndex.text (reserved : String → Bool) (cmd : CreateIndex) : String :=
  "CREATE INDEX IF NOT EXISTS " ++ cmd.indexName ++ " ON " ++
    quoteIdentifier reserved cmd.tblname ++
    " (" ++ quoteIdentifier reserved cmd.colname ++ ")"

/-- The index name is one token of the command. It starts with a letter, so that only the characters
after it matter. -/
def CreateIndex.oneToken (cmd : CreateIndex) : Bool := cmd.indexName.toList.all identCont

/-- The name of the index that the command asks for. -/
def CreateIndex.storedName (cmd : CreateIndex) : String := foldIdentifier cmd.indexName

/-- Cutting keeps an ASCII text that fits, and cuts what follows it. -/
theorem clipBytes_append {l : List Char} (hl : ∀ c ∈ l, c.utf8Size = 1) (n : ℕ) (s : List Char) :
    clipBytes (l.length + n) (l ++ s) = l ++ clipBytes n s := by
  induction l with
  | nil => simp
  | cons c l ih =>
    obtain ⟨hc, hl'⟩ := forall_mem_cons.mp hl
    have hlen : (c :: l).length + n = l.length + n + 1 := by simp; omega
    rw [cons_append, hlen, clipBytes, hc, if_pos (by omega), Nat.add_sub_cancel, ih hl',
      cons_append]

/-- The subsystem recognizes the indexes that its commands make. -/
theorem likeAutoIndex_storedName (cmd : CreateIndex) : likeAutoIndex cmd.storedName = true := by
  have hname : cmd.indexName.toList.map Char.toLower =
      "autoindex_".toList ++ (cmd.tblname ++ "_" ++ cmd.colname).toList.map Char.toLower := by
    have hlow : "autoindex_".toList.map Char.toLower = "autoindex_".toList := by decide
    simp only [CreateIndex.indexName, String.toList_append, map_append, hlow, append_assoc]
  rw [likeAutoIndex_iff, CreateIndex.storedName, foldIdentifier, hname, String.toList_ofList]
  -- The ten bytes of the fixed part fit, and leave 53 for the two names.
  have hclip := clipBytes_append (l := "autoindex_".toList) (by simp [Char.utf8Size]) 53
    ((cmd.tblname ++ "_" ++ cmd.colname).toList.map Char.toLower)
  refine ⟨'_', clipBytes 53 ((cmd.tblname ++ "_" ++ cmd.colname).toList.map Char.toLower), ?_⟩
  exact hclip

/-! ## Running a command -/

/-- Errors that the statements of a pass raise. -/
inductive SqlError where
  /-- `get_attname`: the relation has no such column, or there is no such relation. -/
  | cacheLookupFailed (attnum : Int16) (relid : Oid)
  | undefinedTable (relname : String)
  | wrongObjectType (relname : String)
  | undefinedColumn (attname : String)
  /-- `DROP INDEX` of an index that is attached to a partitioned index. -/
  | dependentObjectsStillExist (relname : String)
  /-- Any other error, such as a cancelled statement, a full disk or a syntax error. -/
  | raised
  deriving DecidableEq, Repr

/-- The settings that the passes read, and `drop_after_idle_days`, which none of them reads, within
the ranges of their registration. -/
structure Settings where
  min_exec_freq : ℕ
  max_indexes_per_table : ℕ
  drop_after_idle_days : ℕ
  workload_window_days : ℕ
  min_exec_freq_range : 1 ≤ min_exec_freq ∧ min_exec_freq ≤ 2147483647
  max_indexes_per_table_range : 1 ≤ max_indexes_per_table ∧ max_indexes_per_table ≤ 100
  drop_after_idle_days_range : 1 ≤ drop_after_idle_days ∧ drop_after_idle_days ≤ 365
  workload_window_days_range : 1 ≤ workload_window_days ∧ workload_window_days ≤ 30

/-- The settings at start-up. -/
def Settings.default : Settings where
  min_exec_freq := 100
  max_indexes_per_table := 5
  drop_after_idle_days := 7
  workload_window_days := 3
  min_exec_freq_range := by decide
  max_indexes_per_table_range := by decide
  drop_after_idle_days_range := by decide
  workload_window_days_range := by decide

/-- The server that runs the worker's statements. -/
structure Server extends Settings where
  seq_page_cost : ℚ
  cpu_operator_cost : ℚ
  /-- The C library's logarithm. -/
  log : ℚ → ℚ
  /-- The schemas in which an unqualified name is looked up, in order. -/
  search_path : List Oid
  /-- The schemas whose indexes `pg_stat_user_indexes` leaves out. -/
  system_schemas : List Oid
  /-- The keywords that `quote_identifier` puts in quotes. -/
  reserved : String → Bool
  /-- What a command does whose index name is not one token, or whose table is partitioned. -/
  otherSql : String → Catalog → Except SqlError Catalog

/-- The table that an unqualified name stands for. -/
def resolveTable (cat : Catalog) (relname : String) : List Oid → Except SqlError PgClass
  | [] => .error (.undefinedTable relname)
  | nsp :: path =>
    -- The first relation of that name counts, whatever its kind.
    match cat.relations.find? fun r => r.name = (nsp, relname) with
    | some r => if r.relkind.indexable then .ok r else .error (.wrongObjectType relname)
    | none =>
      if cat.indexes.any fun i => i.name = (nsp, relname) then .error (.wrongObjectType relname)
      else resolveTable cat relname path

/-- The index that a command asks for: on the table that its table name stands for, with the column
of its column name, in the table's schema. -/
def CreateIndex.wanted (search_path : List Oid) (cat : Catalog) (cmd : CreateIndex) :
    Except SqlError PgIndex :=
  match resolveTable cat cmd.tblname search_path with
  | .error e => .error e
  | .ok r =>
    match r.attributes.find? fun a => a.attname = cmd.colname with
    | none => .error (.undefinedColumn cmd.colname)
    | some a => .ok ⟨cmd.storedName, r.relnamespace, r.oid, a.attnum, a.attname, []⟩

/-- The command is read as it is meant, and its table, if there is one, is not partitioned. -/
def CreateIndex.plain (search_path : List Oid) (cat : Catalog) (cmd : CreateIndex) : Bool :=
  cmd.oneToken && match resolveTable cat cmd.tblname search_path with
    | .ok r => r.relkind ≠ .PARTITIONED_TABLE
    | .error _ => true

/-- Run the command. If its schema already has a relation of that name, nothing happens. -/
def CreateIndex.exec (sv : Server) (cat : Catalog) (cmd : CreateIndex) : Except SqlError Catalog :=
  -- The table's and the column's name are quoted where needed; the index name never is.
  if cmd.plain sv.search_path cat then
    match cmd.wanted sv.search_path cat with
    | .error e => .error e
    | .ok i => .ok (cat.add i)
  else sv.otherSql (cmd.text sv.reserved) cat

end PgAutoIndex.AutoIndex
