/-
  Rdlt.Memory.Children

  A normalized merge stream in the memory destination: its root table merges by
  key, and its child tables follow the root's rows by id and sequence, in merges
  that never look at each other.
-/

import Rdlt.Memory.Rows
import Rdlt.Memory.Run

namespace Rdlt.Memory

open Lib

open Merge

variable {D V : Type} {join : ColumnType → ColumnType → ColumnType} {change : TableChange}
  {rows : List (Bytes × Bytes)} {schema : TableSchema}

/-! ## Reading tables -/

/-- The columns of a table; none before it has a schema. -/
def TableView.fields (view : TableView D) : Schema := view.schema.elim [] TableSchema.fields

theorem TableView.fields_nodup (view : TableView D) : view.fields.Nodup := by
  unfold fields
  cases view.schema with
  | none => exact .nil
  | some schema => exact schema.nodup

namespace Store

/-- The rows of the table `name` as its reader is given them. -/
def read (store : Store D V) (name : String) : List (NamedRow D) :=
  (store.view name).elim [] fun view => readNamed view.fields view.published

/-- The rows a commit of `pipeline`'s session at `epoch` stages for the table `name`, under the
    table's columns. -/
def readStaged (store : Store D V) (name : String) (pipeline : PipelineId) (epoch : Epoch)
    (commit : CommitMeta V) : List (NamedRow D) :=
  (store.view name).elim [] fun view =>
    readNamed view.fields (store.stagedRows name pipeline epoch commit)

end Store

/-! ## Streams -/

/-- A normalized merge stream: its root table, which merges by key and names its rows' ids in the
    column `id`, and the child tables that follow it. -/
structure Stream where
  pipeline : PipelineId
  root : String
  key : MergeKey
  id : String
  children : List ChildTable
  upserts : key.root = none ∧ key.changes = none ∧ key.history = none
  follows : ∀ child ∈ children, child.merge.root = some { table := root, id, seq := key.seq }
  apart : ∀ child ∈ children, child.table ≠ root
  distinct : (children.map ChildTable.table).Nodup

namespace Stream

def mergeOf (S : Stream) (name : String) : Option MergeKey :=
  if name = S.root then some S.key
  else (S.children.find? fun child => child.table == name).map ChildTable.merge

variable (S : Stream) (idOf : KeyCells D S.key → Bytes)

/-- What a commit of the stream is: it lists every child table, stages rows of tables that were
    created, swaps and drops none of the stream's, and gives each root row the id of its key. -/
structure Commits (store : Store D V) (epoch : Epoch) (commit : CommitMeta V) : Prop where
  lists : ∀ child ∈ S.children,
    (commit.childTables.find? fun listed => listed.table == child.table) = some child
  created : ∀ name key, S.mergeOf name = some key →
    store.stagedRows name S.pipeline epoch commit ≠ [] →
      ∀ view, store.view name = some view → view.schema.isSome
  unfinished : ∀ name key, S.mergeOf name = some key →
    ∀ entry ∈ commit.finishGenerations, store.named S.pipeline entry.1 ≠ some name
  undropped : ∀ name key, S.mergeOf name = some key →
    ∀ dropped ∈ commit.dropTables, dropped.name ≠ name
  identified : ∀ row ∈ store.readStaged S.root S.pipeline epoch commit,
    row.bytes S.id = idOf (row.key S.key)

/-- What is asked of the calls: whoever refers to the stream's tables is its pipeline, under the
    stream's keys, the root table is created with its id, and commits are the stream's. -/
def Fits (store : Store D V) : Call D V → Prop
  | .applySchema pipeline _ change => ∀ key, S.mergeOf change.table.name = some key →
      pipeline = S.pipeline ∧ change.table.merge = some key ∧
        ∀ table schema, change = .create table schema → table.name = S.root →
          S.id ∈ schema.fields
  | .writer pipeline _ ref => ∀ key, S.mergeOf ref.name = some key →
      pipeline = S.pipeline ∧ ref.merge = some key
  | .commit pipeline epoch commit _ => pipeline = S.pipeline → S.Commits idOf store epoch commit
  | .open _ => True
  | .flush _ _ => True
  | .discardStaged _ _ => True

/-- Every call of a run fits the store it is made of. -/
def FitsAll (arrow : Arrow D) : Store D V → List (Call D V) → Prop
  | _, [] => True
  | store, call :: calls => S.Fits idOf store call ∧ FitsAll arrow (store.call arrow call) calls

/-- What holds of the stream's tables between calls. -/
structure Follows (store : Store D V) : Prop where
  owned : ∀ name key view, S.mergeOf name = some key → store.view name = some view →
    view.owner = some S.pipeline ∧ view.merge = some key
  within : ∀ name key view, S.mergeOf name = some key → store.view name = some view →
    Within view.fields view.published ∧ (view.schema = none → view.published = [])
  created : ∀ view, store.view S.root = some view →
    ∀ schema, view.schema = some schema → S.id ∈ schema.fields
  identified : ∀ row ∈ store.read S.root, row.bytes S.id = idOf (row.key S.key)
  children : ∀ child ∈ S.children, ∀ column, child.merge.columns.head? = some column →
    ∀ row ∈ store.read child.table, ∃ root ∈ store.read S.root,
      root.bytes S.id = row.bytes column ∧ root.bytes S.key.seq = row.bytes child.merge.seq

/-! ## Names -/

variable {S}

theorem mergeOf_root : S.mergeOf S.root = some S.key := if_pos rfl

theorem mergeOf_cases {name : String} {key : MergeKey} (h : S.mergeOf name = some key) :
    (name = S.root ∧ key = S.key) ∨
      ∃ child ∈ S.children, child.table = name ∧ child.merge = key := by
  unfold mergeOf at h
  split at h
  · rename_i hname
    exact .inl ⟨hname, (Option.some.inj h).symm⟩
  · obtain ⟨child, hchild, hkey⟩ := Option.map_eq_some_iff.mp h
    exact .inr ⟨child, List.mem_of_find?_eq_some hchild,
      by simpa using List.find?_some hchild, hkey⟩

theorem mergeOf_child {child : ChildTable} (hchild : child ∈ S.children) :
    S.mergeOf child.table = some child.merge := by
  rw [mergeOf, if_neg (S.apart child hchild)]
  obtain ⟨found, hfound⟩ : ∃ found,
      (S.children.find? fun other => other.table == child.table) = some found := by
    rw [← Option.isSome_iff_exists, List.find?_isSome]
    exact ⟨child, hchild, beq_self_eq_true _⟩
  have htable : found.table = child.table := by simpa using List.find?_some hfound
  rw [hfound, List.inj_on_of_nodup_map S.distinct (List.mem_of_find?_eq_some hfound) hchild htable,
    Option.map_some]

def tables (S : Stream) : List String := S.root :: S.children.map ChildTable.table

theorem forall_mergeOf_iff {p : String → Prop} :
    (∀ name key, S.mergeOf name = some key → p name) ↔ ∀ name ∈ S.tables, p name := by
  constructor
  · intro h name hname
    rcases List.mem_cons.mp hname with rfl | hname
    · exact h _ _ mergeOf_root
    · obtain ⟨child, hchild, rfl⟩ := List.mem_map.mp hname
      exact h _ _ (mergeOf_child hchild)
  · intro h name key hkey
    rcases mergeOf_cases hkey with ⟨rfl, -⟩ | ⟨child, hchild, rfl, -⟩
    · exact h _ List.mem_cons_self
    · exact h _ (List.mem_cons_of_mem _ (List.mem_map_of_mem hchild))

/-! ## What is asked of calls can be checked -/

theorem commits_iff {idOf : KeyCells D S.key → Bytes} {store : Store D V} {epoch : Epoch}
    {commit : CommitMeta V} : S.Commits idOf store epoch commit ↔ (∀ child ∈ S.children,
        (commit.childTables.find? fun listed => listed.table == child.table) = some child) ∧
      (∀ name ∈ S.tables, store.stagedRows name S.pipeline epoch commit ≠ [] →
        ∀ view ∈ store.view name, view.schema.isSome) ∧
      (∀ name ∈ S.tables, ∀ entry ∈ commit.finishGenerations,
        store.named S.pipeline entry.1 ≠ some name) ∧
      (∀ name ∈ S.tables, ∀ dropped ∈ commit.dropTables, dropped.name ≠ name) ∧
      ∀ row ∈ store.readStaged S.root S.pipeline epoch commit,
        row.bytes S.id = idOf (row.key S.key) := by
  simp only [← forall_mergeOf_iff]
  exact ⟨fun h => ⟨h.lists, h.created, h.unfinished, h.undropped, h.identified⟩,
    fun h => ⟨h.1, h.2.1, h.2.2.1, h.2.2.2.1, h.2.2.2.2⟩⟩

instance (idOf : KeyCells D S.key → Bytes) (store : Store D V) (epoch : Epoch)
    (commit : CommitMeta V) : Decidable (S.Commits idOf store epoch commit) :=
  decidable_of_iff _ commits_iff.symm

instance : Decidable (∀ table schema, change = .create table schema → table.name = S.root →
    S.id ∈ schema.fields) :=
  match change with
  | .create table schema => decidable_of_iff (table.name = S.root → S.id ∈ schema.fields) (by simp)
  | .addColumn .. | .widen .. => .isTrue (by simp)

instance (idOf : KeyCells D S.key → Bytes) (store : Store D V) (call : Call D V) :
    Decidable (S.Fits idOf store call) :=
  match call with
  | .applySchema pipeline _ change =>
    inferInstanceAs (Decidable (∀ key ∈ S.mergeOf change.table.name,
      pipeline = S.pipeline ∧ change.table.merge = some key ∧ _))
  | .writer pipeline _ ref =>
    inferInstanceAs (Decidable (∀ key ∈ S.mergeOf ref.name, pipeline = S.pipeline ∧ _))
  | .commit pipeline epoch commit _ =>
    inferInstanceAs (Decidable (pipeline = S.pipeline → S.Commits idOf store epoch commit))
  | .open _ => .isTrue trivial
  | .flush _ _ => .isTrue trivial
  | .discardStaged _ _ => .isTrue trivial

instance instDecidableFitsAll (idOf : KeyCells D S.key → Bytes) (arrow : Arrow D) :
    ∀ (store : Store D V) (calls : List (Call D V)), Decidable (S.FitsAll idOf arrow store calls)
  | _, [] => .isTrue trivial
  | store, call :: calls =>
    have := instDecidableFitsAll idOf arrow (store.call arrow call) calls
    inferInstanceAs (Decidable (S.Fits idOf store call ∧ _))

/-! ## What a commit of the stream does to its tables -/

section

variable {name : String} {key : MergeKey} {view : TableView D} {table : Table D}
  {pipeline : PipelineId} {child : ChildTable} {row : NamedRow D} {next : TableSchema}

variable {idOf} {arrow : Arrow D} {store after : Store D V} {epoch : Epoch}
  {commit : CommitMeta V} {counts : Nat × Nat}

theorem map_stagedIn (htable : store.tables[name]? = some table) (pipeline : PipelineId) :
    ((table.stagedIn pipeline epoch commit.segments).flatMap Prod.snd).map Prod.snd
      = store.stagedRows name pipeline epoch commit := by
  rw [Store.stagedRows, htable, List.map_flatMap]

theorem stagedRows_of_not_touches (htable : store.tables[name]? = some table)
    (h : ¬ store.Touches pipeline epoch commit name table) :
    store.stagedRows name pipeline epoch commit = [] ∧
      store.listed pipeline epoch commit name = none := by
  rw [Store.Touches, not_or, not_not] at h
  refine ⟨?_, by simpa using h.2⟩
  rw [← map_stagedIn htable pipeline, h.1, List.map_nil]

theorem mergeSchema_eq_ok (hcommits : S.Commits idOf store epoch commit)
    (hname : S.mergeOf name = some key)
    (htable : store.tables[name]? = some table) {schema : Schema × (String → ColumnType)}
    (h : table.mergeSchema arrow
      ((table.stagedIn S.pipeline epoch commit.segments).flatMap Prod.snd) = .ok schema) :
    table.schema.isSome ∧ schema.1 = table.view.fields := by
  unfold Table.mergeSchema at h
  split at h
  · rename_i held hheld
    cases h
    simp [TableView.fields, Table.view, hheld]
  · cases h
  · rename_i generation batch rest hschema hstaged
    have hrows : store.stagedRows name S.pipeline epoch commit ≠ [] := by
      rw [← map_stagedIn htable, hstaged]
      simp
    have hview : store.view name = some table.view := by rw [Store.view, htable, Option.map_some]
    have hsome := hcommits.created name key hname hrows _ hview
    rw [Table.view, hschema] at hsome
    cases hsome

theorem view_of_none (h : (store.enter S.pipeline).publish arrow S.pipeline epoch commit
    = .ok (after, counts)) (hview : store.view name = none) :
    after.view name = none ∧ store.stagedRows name S.pipeline epoch commit = [] := by
  have hnone : store.tables[name]? = none := Option.map_eq_none_iff.mp hview
  refine ⟨?_, by rw [Store.stagedRows, hnone]⟩
  rw [Store.view, Store.getElem?_publish_none h hnone, Option.map_none]

def stagedIds (S : Stream) (store : Store D V) (epoch : Epoch) (commit : CommitMeta V) :
    List (Bytes × Bytes) :=
  (store.readStaged S.root S.pipeline epoch commit).map fun row =>
    (row.bytes S.id, row.bytes S.key.seq)

theorem winningSeq_eq_some {id seq : Bytes} (h : winningSeq rows id = some seq) :
    (id, seq) ∈ rows ∧ ∀ other, (id, other) ∈ rows → other ≤ seq := by
  obtain ⟨root, hroot, rfl⟩ := Option.map_eq_some_iff.mp h
  obtain ⟨hmem, hid⟩ := List.mem_filter.mp (mem_of_latest hroot)
  obtain rfl : root.1 = id := by simpa using hid
  refine ⟨hmem, fun other hother => ?_⟩
  exact le_of_latest hroot (List.mem_filter.mpr ⟨hother, by simp⟩)

theorem winningSeq_eq_none {id : Bytes} : winningSeq rows id = none ↔ ∀ seq, (id, seq) ∉ rows := by
  rw [winningSeq, Option.map_eq_none_iff, latest_eq_none, List.filter_eq_nil_iff]
  constructor
  · intro h seq hmem
    exact h _ hmem (by simp)
  · rintro h ⟨held, seq⟩ hmem hid
    obtain rfl : held = id := by simpa using hid
    exact h seq hmem

section

/-- A commit of the stream that is published, where what holds of the stream does. -/
structure Publishes (S : Stream) (idOf : KeyCells D S.key → Bytes) (arrow : Arrow D)
    (store : Store D V) (epoch : Epoch) (commit : CommitMeta V) (after : Store D V)
    (counts : Nat × Nat) : Prop where
  follows : S.Follows idOf store
  commits : S.Commits idOf store epoch commit
  published : (store.enter S.pipeline).publish arrow S.pipeline epoch commit = .ok (after, counts)

variable (h : S.Publishes idOf arrow store epoch commit after counts)
include h

theorem view_publish (hname : S.mergeOf name = some key) (hview : store.view name = some view) :
    ∃ table, store.tables[name]? = some table ∧ table.view = view ∧
      ((¬ (store.enter S.pipeline).Touches S.pipeline epoch commit name table ∧
          after.view name = some view) ∨
        ∃ merged, (store.enter S.pipeline).planMerge arrow S.pipeline epoch commit table
            ((table.stagedIn S.pipeline epoch commit.segments).flatMap Prod.snd) key = .ok merged ∧
          after.view name = some { view with published := merged.rows }) := by
  obtain ⟨table, htable, rfl⟩ := Option.map_eq_some_iff.mp hview
  refine ⟨table, htable, rfl, ?_⟩
  obtain ⟨plan, hplan, hafter⟩ :=
    Store.getElem?_publish h.published (h.commits.unfinished name key hname)
    (h.commits.undropped name key hname) htable
  have hmerge : table.merge = some key := (h.follows.owned name key _ hname hview).2
  rcases Store.plan_eq_ok_iff.mp hplan with ⟨htouches, rfl⟩ | ⟨-, -, merged, hmerged, rfl⟩
  · exact .inl ⟨htouches, by rw [Store.view, hafter]; rfl⟩
  · rw [hmerge] at hmerged
    obtain ⟨rows, hrows, rfl⟩ := hmerged
    exact .inr ⟨rows, hrows, by rw [Store.view, hafter]; rfl⟩

/-- The root table is as it was, or its rows are upserted. -/
theorem view_root (hview : store.view S.root = some view) :
    (store.stagedRows S.root S.pipeline epoch commit = [] ∧ after.view S.root = some view) ∨
      ∃ rows, view.schema.isSome ∧
        upsert view.fields view.published (store.stagedRows S.root S.pipeline epoch commit) S.key
          (arrow.encode S.key) = .ok rows ∧
        after.view S.root = some { view with published := rows } := by
  obtain ⟨table, htable, rfl, ⟨htouches, hafter⟩ | ⟨merged, hmerged, hafter⟩⟩ :=
    view_publish h mergeOf_root hview
  · exact .inl ⟨(stagedRows_of_not_touches htable htouches).1, hafter⟩
  · obtain ⟨hroot, hchanges, hhistory⟩ := S.upserts
    rw [Store.planMerge, hroot] at hmerged
    obtain ⟨⟨fields, type⟩, hschema, hmerged⟩ := bind_eq_ok.mp hmerged
    obtain ⟨hsome, rfl⟩ := mergeSchema_eq_ok h.commits mergeOf_root htable hschema
    have hsparse := mapError_eq_ok.mp hmerged
    rw [mergeSparse, hchanges, hhistory] at hsparse
    obtain ⟨⟨⟩, -, hsparse⟩ := bind_eq_ok.mp hsparse
    obtain ⟨rows, hrows, hsparse⟩ := bind_eq_ok.mp hsparse
    rw [map_stagedIn htable] at hrows
    obtain rfl := pure_eq_ok.mp hsparse
    exact .inr ⟨rows, hsome, hrows, hafter⟩

/-- A child table is as it was, with nothing staged of it or of its root, or its rows follow the
    root's. -/
theorem view_child (hchild : child ∈ S.children) (hview : store.view child.table = some view) :
    (store.stagedRows child.table S.pipeline epoch commit = [] ∧
        store.stagedRows S.root S.pipeline epoch commit = [] ∧ after.view child.table = some view) ∨
      ∃ rows type, view.schema.isSome ∧
        mergeChildrenSparse arrow.columnType type view.fields view.published
          (store.stagedRows child.table S.pipeline epoch commit) child.merge
          { table := S.root, id := S.id, seq := S.key.seq }
          (store.stagedRows S.root S.pipeline epoch commit) = .ok rows ∧
        after.view child.table = some { view with published := rows } := by
  obtain ⟨table, htable, rfl, ⟨htouches, hafter⟩ | ⟨merged, hmerged, hafter⟩⟩ :=
    view_publish h (mergeOf_child hchild) hview
  · obtain ⟨hstaged, hlisted⟩ := stagedRows_of_not_touches htable htouches
    refine .inl ⟨hstaged, ?_, hafter⟩
    -- the commit lists the table, so nothing of its root is staged
    rw [Store.listed, h.commits.lists child hchild, Option.map_some, Option.filter_eq_none_iff]
      at hlisted
    have hnone := hlisted _ rfl
    rw [S.follows child hchild] at hnone
    simpa using hnone
  · rw [Store.planMerge, S.follows child hchild] at hmerged
    obtain ⟨rows, hrows, hmerged⟩ := bind_eq_ok.mp hmerged
    obtain rfl := pure_eq_ok.mp hmerged
    obtain ⟨⟨fields, type⟩, hschema, hrows⟩ := bind_eq_ok.mp hrows
    obtain ⟨hsome, rfl⟩ := mergeSchema_eq_ok h.commits (mergeOf_child hchild) htable hschema
    have hsparse := mapError_eq_ok.mp hrows
    rw [map_stagedIn htable] at hsparse
    exact .inr ⟨rows, type, hsome, hsparse, hafter⟩

/-! ## Rows before and after -/

theorem keyedBy_read_root (k : Bytes) : (keyedBy arrow S.key k (after.read S.root)).Perm
      ((Lib.latest (NamedRow.bytes S.key.seq)
        (keyedBy arrow S.key k (store.readStaged S.root S.pipeline epoch commit))).elim
          (keyedBy arrow S.key k (store.read S.root)) ([·])) := by
  cases hview : store.view S.root with
  | none =>
    simp [Store.read, Store.readStaged, hview, (view_of_none h.published hview).1, keyedBy]
  | some view =>
    rw [Store.read, Store.read, Store.readStaged, hview]
    rcases view_root h hview with ⟨hstaged, hafter⟩ | ⟨rows, -, hrows, hafter⟩
    · simp [hafter, hstaged, keyedBy, readNamed, readBack]
    · rw [hafter]
      exact keyedBy_upsert view.fields_nodup hrows k

theorem rootRows_staged : rootRows { table := S.root, id := S.id, seq := S.key.seq }
        (store.stagedRows S.root S.pipeline epoch commit)
      = S.stagedIds store epoch commit := by
  rw [stagedIds, Store.readStaged]
  cases hview : store.view S.root with
  | none => rw [(view_of_none h.published hview).2]; rfl
  | some view =>
    rcases view_root h hview with ⟨hstaged, -⟩ | ⟨rows, hsome, hrows, -⟩
    · rw [hstaged]
      rfl
    · obtain ⟨schema, hschema⟩ := Option.isSome_iff_exists.mp hsome
      have hfields : view.fields = schema.fields := by rw [TableView.fields, hschema]; rfl
      have hid : S.id ∈ view.fields := by
        rw [hfields]
        exact h.follows.created view hview schema hschema
      have hseq : S.key.seq ∈ view.fields := seq_mem_of_upsert hrows
      rw [rootRows_eq_map_readBack hid hseq, Option.elim_some, readNamed, List.map_map]
      rfl

/-- The rows of a child table once a commit is published, root by root. -/
theorem rowsOf_read_child (hchild : child ∈ S.children) {column : String}
    (hcolumn : child.merge.columns.head? = some column) (id : Bytes) :
    (rowsOf column id (after.read child.table)).Perm
      ((winningSeq (S.stagedIds store epoch commit) id).elim
        (rowsOf column id (store.read child.table)) fun seq =>
          (rowsOf column id (store.readStaged child.table S.pipeline epoch commit)).filter
            fun row => row.bytes child.merge.seq = seq) := by
  rw [← rootRows_staged h]
  cases hview : store.view child.table with
  | none =>
    simp only [Store.read, Store.readStaged, hview, (view_of_none h.published hview).1, rowsOf]
    cases winningSeq _ id <;> simp
  | some view =>
    rw [Store.read, Store.read, Store.readStaged, hview]
    rcases view_child h hchild hview with
      ⟨hstaged, hroots, hafter⟩ | ⟨rows, type, -, hrows, hafter⟩
    · rw [hafter, hroots]
      exact .refl _
    · rw [hafter]
      exact rowsOf_mergeChildrenSparse view.fields_nodup hcolumn hrows id

/-! ## A commit keeps what holds of the stream -/

theorem mem_read_root (hrow : row ∈ after.read S.root) :
    row ∈ store.readStaged S.root S.pipeline epoch commit ∨ row ∈ store.read S.root := by
  have hmem : row ∈ keyedBy arrow S.key (arrow.encode S.key (row.key S.key)) (after.read S.root) :=
    List.mem_filter.mpr ⟨hrow, by simp⟩
  rw [(keyedBy_read_root h _).mem_iff] at hmem
  cases hlatest : Lib.latest (NamedRow.bytes S.key.seq) (keyedBy arrow S.key
      (arrow.encode S.key (row.key S.key))
      (store.readStaged S.root S.pipeline epoch commit)) with
  | none =>
    rw [hlatest] at hmem
    exact .inr (List.mem_of_mem_filter hmem)
  | some winner =>
    rw [hlatest] at hmem
    obtain rfl := List.mem_singleton.mp hmem
    exact .inl (List.mem_of_mem_filter (mem_of_latest hlatest))

theorem mem_read_root_of_unstaged (hrow : row ∈ store.read S.root)
    (hunstaged : ∀ staged ∈ store.readStaged S.root S.pipeline epoch commit,
      arrow.encode S.key (staged.key S.key) ≠ arrow.encode S.key (row.key S.key)) :
    row ∈ after.read S.root := by
  have hperm := keyedBy_read_root h (arrow.encode S.key (row.key S.key))
  have hnone : keyedBy arrow S.key (arrow.encode S.key (row.key S.key))
      (store.readStaged S.root S.pipeline epoch commit) = [] := by
    rw [keyedBy, List.filter_eq_nil_iff]
    intro staged hstaged hkey
    exact hunstaged staged hstaged (by simpa using hkey)
  rw [hnone] at hperm
  exact List.mem_of_mem_filter (hperm.mem_iff.mpr (List.mem_filter.mpr ⟨hrow, by simp⟩))

/-- Each child row published is of a root row published. -/
theorem children_publish (hencode : Function.Injective (arrow.encode S.key))
    (hchild : child ∈ S.children) {column : String}
    (hcolumn : child.merge.columns.head? = some column) (hrow : row ∈ after.read child.table) :
    ∃ root ∈ after.read S.root,
      root.bytes S.id = row.bytes column ∧ root.bytes S.key.seq = row.bytes child.merge.seq := by
  have hmem : row ∈ rowsOf column (row.bytes column) (after.read child.table) :=
    List.mem_filter.mpr ⟨hrow, by simp⟩
  rw [(rowsOf_read_child h hchild hcolumn _).mem_iff] at hmem
  cases hwinning : winningSeq (S.stagedIds store epoch commit) (row.bytes column) with
  | none =>
    -- the root is not staged: it stays published, and so do its children
    rw [hwinning] at hmem
    obtain ⟨root, hroot, hid, hseq⟩ := h.follows.children child hchild column hcolumn row
      (List.mem_of_mem_filter hmem)
    refine ⟨root, mem_read_root_of_unstaged h hroot ?_, hid, hseq⟩
    intro staged hstaged hkey
    refine winningSeq_eq_none.mp hwinning (staged.bytes S.key.seq)
      (List.mem_map.mpr ⟨staged, hstaged, Prod.ext ?_ rfl⟩)
    rw [← hid, h.commits.identified staged hstaged, hencode hkey, h.follows.identified root hroot]
  | some seq =>
    rw [hwinning] at hmem
    obtain ⟨-, hseq⟩ := List.mem_filter.mp hmem
    obtain rfl : row.bytes child.merge.seq = seq := by simpa using hseq
    obtain ⟨hstaged, hgreatest⟩ := winningSeq_eq_some hwinning
    obtain ⟨staged, hstaged, hpair⟩ := List.mem_map.mp hstaged
    obtain ⟨hid, hseq⟩ := Prod.mk.inj hpair
    have hkeyed : staged ∈ keyedBy arrow S.key (arrow.encode S.key (staged.key S.key))
        (store.readStaged S.root S.pipeline epoch commit) :=
      List.mem_filter.mpr ⟨hstaged, by simp⟩
    cases hlatest : Lib.latest (NamedRow.bytes S.key.seq) (keyedBy arrow S.key
        (arrow.encode S.key (staged.key S.key))
        (store.readStaged S.root S.pipeline epoch commit)) with
    | none =>
      rw [latest_eq_none.mp hlatest] at hkeyed
      cases hkeyed
    | some winner =>
      obtain ⟨hwinner, hkey⟩ := List.mem_filter.mp (mem_of_latest hlatest)
      have hsame : winner.key S.key = staged.key S.key := hencode (by simpa using hkey)
      have hwinnerId : winner.bytes S.id = row.bytes column := by
        rw [h.commits.identified winner hwinner, hsame, ← h.commits.identified staged hstaged, hid]
      have hperm := keyedBy_read_root h (arrow.encode S.key (staged.key S.key))
      rw [hlatest] at hperm
      refine ⟨winner, List.mem_of_mem_filter (hperm.mem_iff.mpr (List.mem_singleton_self _)),
        hwinnerId, le_antisymm ?_ ?_⟩
      · exact hgreatest _ (List.mem_map.mpr ⟨winner, hwinner, Prod.ext hwinnerId rfl⟩)
      · rw [← hseq]
        exact le_of_latest hlatest hkeyed

/-- A table of the stream keeps its owner, its key, its columns, and rows kept under them. -/
theorem view_after (hname : S.mergeOf name = some key) {next : TableView D}
    (hnext : after.view name = some next) :
    ∃ view, store.view name = some view ∧ next = { view with published := next.published } ∧
      Within view.fields next.published ∧ (view.schema = none → next.published = []) := by
  cases hview : store.view name with
  | none =>
    rw [(view_of_none h.published hview).1] at hnext
    cases hnext
  | some view =>
    refine ⟨view, rfl, ?_⟩
    have hkept : after.view name = some view → next = { view with published := next.published } ∧
        Within view.fields next.published ∧ (view.schema = none → next.published = []) := by
      intro hafter
      rw [hafter] at hnext
      cases hnext
      exact ⟨rfl, h.follows.within name key _ hname hview⟩
    have hmerged : ∀ rows, view.schema.isSome → Within view.fields rows →
        after.view name = some { view with published := rows } →
        next = { view with published := next.published } ∧
          Within view.fields next.published ∧ (view.schema = none → next.published = []) := by
      intro rows hsome hwithin hafter
      rw [hafter] at hnext
      cases hnext
      refine ⟨rfl, hwithin, fun hnone => ?_⟩
      rw [hnone] at hsome
      cases hsome
    rcases mergeOf_cases hname with ⟨rfl, rfl⟩ | ⟨child, hchild, rfl, rfl⟩
    · rcases view_root h hview with ⟨-, hafter⟩ | ⟨rows, hsome, hrows, hafter⟩
      · exact hkept hafter
      · exact hmerged rows hsome (within_upsert hrows) hafter
    · rcases view_child h hchild hview with
        ⟨-, -, hafter⟩ | ⟨rows, type, hsome, hrows, hafter⟩
      · exact hkept hafter
      · exact hmerged rows hsome (within_mergeChildrenSparse hrows) hafter

/-- A commit of the stream keeps what holds of its tables. -/
theorem follows_publish (hencode : Function.Injective (arrow.encode S.key)) :
    S.Follows idOf after where
  owned name key next hname hnext := by
    obtain ⟨view, hview, hsame, -⟩ := view_after h hname hnext
    rw [hsame]
    exact h.follows.owned name key view hname hview
  within name key next hname hnext := by
    obtain ⟨view, hview, hsame, hwithin, hnone⟩ := view_after h hname hnext
    rw [hsame]
    exact ⟨hwithin, hnone⟩
  created next hnext schema hschema := by
    obtain ⟨view, hview, hsame, -⟩ := view_after h mergeOf_root hnext
    rw [hsame] at hschema
    exact h.follows.created view hview schema hschema
  identified row hrow := by
    rcases mem_read_root h hrow with hstaged | hheld
    · exact h.commits.identified row hstaged
    · exact h.follows.identified row hheld
  children child hchild column hcolumn row hrow :=
    children_publish h hencode hchild hcolumn hrow

end

/-! ## Any call keeps what holds of the stream -/

theorem follows_congr (hfollows : S.Follows idOf store)
    (hviews : ∀ name key, S.mergeOf name = some key → after.view name = store.view name) :
    S.Follows idOf after := by
  have hread : ∀ name key, S.mergeOf name = some key → after.read name = store.read name := by
    intro name key hname
    rw [Store.read, Store.read, hviews name key hname]
  refine ⟨?_, ?_, ?_, ?_, ?_⟩
  · intro name key view hname hview
    rw [hviews name key hname] at hview
    exact hfollows.owned name key view hname hview
  · intro name key view hname hview
    rw [hviews name key hname] at hview
    exact hfollows.within name key view hname hview
  · intro view hview
    rw [hviews _ _ mergeOf_root] at hview
    exact hfollows.created view hview
  · rw [hread _ _ mergeOf_root]
    exact hfollows.identified
  · intro child hchild
    rw [hread _ _ mergeOf_root, hread _ _ (mergeOf_child hchild)]
    exact hfollows.children child hchild

/-- Another pipeline's commit touches no table of the stream. -/
theorem view_publish_other (hfollows : S.Follows idOf store) (hother : pipeline ≠ S.pipeline)
    (h : (store.enter pipeline).publish arrow pipeline epoch commit = .ok (after, counts))
      (hname : S.mergeOf name = some key) : after.view name = store.view name := by
  cases hview : store.view name with
  | none =>
    have hnone : store.tables[name]? = none := Option.map_eq_none_iff.mp hview
    rw [Store.view, Store.getElem?_publish_none h hnone, Option.map_none]
  | some view =>
    obtain ⟨table, htable, rfl⟩ := Option.map_eq_some_iff.mp hview
    have howner : table.owner = some S.pipeline := (hfollows.owned name key _ hname hview).1
    have hunowned : ∀ held, (store.enter pipeline).owned pipeline name ≠ .ok held := by
      intro held hheld
      obtain ⟨hheld, hpipeline⟩ := Store.getElem?_of_owned hheld
      cases htable.symm.trans hheld
      exact hother (Option.some.inj (hpipeline.symm.trans howner))
    have howns := Store.owned_of_owns (Store.publish_eq_ok h).1
    obtain ⟨plan, hplan, hafter⟩ := Store.getElem?_publish h (fun entry hentry hnamed => by
        obtain ⟨held, hheld⟩ := howns.1 entry hentry name hnamed
        exact hunowned held hheld)
      (fun dropped hdropped hsame => by
        obtain ⟨held, hheld⟩ := howns.2 dropped hdropped (by
          rw [hsame, Std.ExtTreeMap.contains_eq_isSome_getElem?]
          simp [Store.enter, htable])
        rw [hsame] at hheld
        exact hunowned held hheld) htable
    rcases Store.plan_eq_ok_iff.mp hplan with ⟨-, rfl⟩ | ⟨-, ⟨held, hheld⟩, -⟩
    · rw [Store.view, hafter]
      rfl
    · exact absurd hheld (hunowned held)

/-- What a schema of the table `name` may become: it keeps its columns, and the root's holds its
    id. -/
structure Extends (S : Stream) (store : Store D V) (name : String) (schema : Option TableSchema) :
    Prop where
  wider : ((store.view name).getD {}).fields ⊆ schema.elim [] TableSchema.fields
  kept : schema = none → ((store.view name).getD {}).schema = none
  id : name = S.root → ∀ held, schema = some held → S.id ∈ held.fields

/-- A claim of a table of the stream, and a schema change of it, keep its rows. -/
theorem follows_claim (hfollows : S.Follows idOf store)
    (hname : S.mergeOf name = some key) {schema : Option TableSchema}
    (hextends : S.Extends store name schema)
    (hafter : after.view name = some { (store.view name).getD {} with
      owner := some S.pipeline, merge := some key, schema })
    (hothers : ∀ other, other ≠ name → after.view other = store.view other) :
    S.Follows idOf after := by
  have hwithin : Within ((store.view name).getD {}).fields ((store.view name).getD {}).published ∧
      (((store.view name).getD {}).schema = none →
        ((store.view name).getD {}).published = []) := by
    cases hview : store.view name with
    | none => exact ⟨fun _ hbatch => absurd hbatch List.not_mem_nil, fun _ => rfl⟩
    | some view => exact hfollows.within name key view hname hview
  have hread : ∀ other, after.read other = store.read other := by
    intro other
    by_cases hsame : other = name
    · subst hsame
      rw [Store.read, Store.read, hafter, Option.elim_some]
      change readNamed (schema.elim [] TableSchema.fields)
        ((store.view other).getD {}).published = _
      rw [readNamed_eq (hwithin.1.mono hextends.wider), ← readNamed_eq hwithin.1]
      cases store.view other <;> rfl
    · rw [Store.read, Store.read, hothers other hsame]
  refine ⟨?_, ?_, ?_, ?_, ?_⟩
  · intro other key' view hother hview
    by_cases hsame : other = name
    · subst hsame
      cases hname.symm.trans hother
      rw [hafter] at hview
      cases hview
      exact ⟨rfl, rfl⟩
    · rw [hothers other hsame] at hview
      exact hfollows.owned other key' view hother hview
  · intro other key' view hother hview
    by_cases hsame : other = name
    · subst hsame
      rw [hafter] at hview
      cases hview
      exact ⟨hwithin.1.mono hextends.wider, fun hnone => hwithin.2 (hextends.kept hnone)⟩
    · rw [hothers other hsame] at hview
      exact hfollows.within other key' view hother hview
  · intro view hview
    by_cases hsame : S.root = name
    · rw [hsame, hafter] at hview
      cases hview
      exact hextends.id hsame.symm
    · rw [hothers _ hsame] at hview
      exact hfollows.created view hview
  · rw [hread]
    exact hfollows.identified
  · intro child hchild
    rw [hread, hread]
    exact hfollows.children child hchild

theorem add_subset {table : String} {type : ColumnType}
    (h : add join table schema name type = .ok next) : schema.fields ⊆ next.fields := by
  unfold add at h
  split at h
  · split at h
    · cases h
      exact List.Subset.refl _
    · cases h
  · cases h
    exact List.subset_append_left _ _

theorem changed_subset (h : changed join (some schema) change = .ok next) :
    schema.fields ⊆ next.fields := by
  unfold changed at h
  cases change with
  | create table declared =>
    dsimp only at h
    generalize declared.fields = names at h
    induction names generalizing schema with
    | nil =>
      obtain rfl := pure_eq_ok.mp h
      exact List.Subset.refl _
    | cons name names ih =>
      rw [List.foldlM_cons] at h
      obtain ⟨added, hadded, h⟩ := bind_eq_ok.mp h
      exact List.Subset.trans (add_subset hadded) (ih h)
  | addColumn table name type => exact add_subset h
  | widen table column wider =>
    dsimp only at h
    split at h
    · cases h
      exact List.Subset.refl _
    · cases h

/-- Referring to a table keeps what holds of the stream, where its own are referred to by its
    pipeline under their keys. -/
theorem follows_reference (hfollows : S.Follows idOf store) {ref : TableRef}
    (hfits : ∀ key, S.mergeOf ref.name = some key → pipeline = S.pipeline ∧ ref.merge = some key)
    (hviews : ∀ name, after.view name = store.view name ∨
      (ref.name = name ∧ ∃ schema, (S.mergeOf name ≠ none → S.Extends store name schema) ∧
        after.view name = some { (store.view name).getD {} with
          owner := some pipeline, merge := ref.merge, schema })) :
    S.Follows idOf after := by
  have hothers : ∀ other, other ≠ ref.name → after.view other = store.view other := by
    intro other hother
    rcases hviews other with hsame | ⟨hsame, -⟩
    · exact hsame
    · exact absurd hsame.symm hother
  have hkept : after.view ref.name = store.view ref.name → S.Follows idOf after := by
    intro hsame
    refine follows_congr hfollows fun name _ _ => ?_
    by_cases hname : name = ref.name
    · rw [hname, hsame]
    · exact hothers name hname
  cases hkey : S.mergeOf ref.name with
  | none =>
    refine follows_congr hfollows fun name key hname => hothers name ?_
    rintro rfl
    rw [hkey] at hname
    cases hname
  | some key =>
    obtain ⟨rfl, hmerge⟩ := hfits key hkey
    rcases hviews ref.name with hsame | ⟨-, schema, hextends, hafter⟩
    · exact hkept hsame
    · rw [hmerge] at hafter
      exact follows_claim hfollows hkey (hextends (by simp [hkey])) hafter hothers

theorem extends_self (hfollows : S.Follows idOf store) (name : String) :
    S.Extends store name ((store.view name).getD {}).schema where
  wider := List.Subset.refl _
  kept hnone := hnone
  id hname held hheld := by
    subst hname
    cases hview : store.view S.root with
    | none =>
      rw [hview] at hheld
      cases hheld
    | some view =>
      rw [hview] at hheld
      exact hfollows.created view hview held hheld

theorem extends_changed (hfollows : S.Follows idOf store)
    (hid : ∀ table schema, change = .create table schema → table.name = S.root →
      S.id ∈ schema.fields)
    (h : changed arrow.join ((store.view change.table.name).getD {}).schema change = .ok next) :
    S.Extends store change.table.name (some next) := by
  have hself := extends_self hfollows change.table.name
  cases hschema : ((store.view change.table.name).getD {}).schema with
  | none =>
    rw [hschema] at h
    have hfields : ((store.view change.table.name).getD {}).fields = [] := by
      rw [TableView.fields, hschema]
      rfl
    refine ⟨?_, fun hnone => absurd hnone (Option.some_ne_none _), ?_⟩
    · rw [hfields]
      exact List.nil_subset _
    rintro hname held hheld
    cases hheld
    cases change with
    | create table declared =>
      cases h
      exact hid table _ rfl hname
    | addColumn table name type => cases h
    | widen table column wider => cases h
  | some schema =>
    rw [hschema] at h hself
    have hwider := changed_subset h
    refine ⟨?_, fun hnone => absurd hnone (Option.some_ne_none _), ?_⟩
    · rw [TableView.fields, hschema]
      exact hwider
    · rintro hname held hheld
      cases hheld
      exact hwider (hself.id hname schema rfl)

theorem follows_call (hencode : Function.Injective (arrow.encode S.key))
    (hfollows : S.Follows idOf store) {call : Call D V} (hfits : S.Fits idOf store call) :
    S.Follows idOf (store.call arrow call) := by
  cases call with
  | «open» pipeline =>
    exact follows_congr hfollows fun name _ _ => Store.view_open store pipeline name
  | applySchema pipeline epoch change =>
    refine follows_reference hfollows (fun key hkey => ⟨(hfits key hkey).1, (hfits key hkey).2.1⟩)
      fun name => ?_
    rcases Store.view_applySchema store change name with hsame | ⟨rfl, schema, hschema, hafter⟩
    · exact .inl hsame
    · refine .inr ⟨rfl, schema, fun hnamed => ?_, hafter⟩
      obtain ⟨key, hkey⟩ := Option.ne_none_iff_exists'.mp hnamed
      rcases hschema with rfl | ⟨next, hnext, rfl⟩
      · exact extends_self hfollows _
      · exact extends_changed hfollows (hfits key hkey).2.2 hnext
  | writer pipeline epoch ref =>
    refine follows_reference hfollows hfits fun name => ?_
    rcases Store.view_writer store pipeline epoch ref name with hsame | ⟨rfl, hafter⟩
    · exact .inl hsame
    · exact .inr ⟨rfl, _, fun _ => extends_self hfollows _, hafter⟩
  | flush writer buffered =>
    exact follows_congr hfollows fun name _ _ => Store.view_flush store writer buffered name
  | discardStaged pipeline epoch =>
    exact follows_congr hfollows fun name _ _ => Store.view_discardStaged store pipeline epoch name
  | commit pipeline epoch commit now =>
    rcases Store.commit_cases arrow store pipeline epoch commit now with
      ⟨published, counts, ⟨-, -, hpublished⟩, hafter⟩ | ⟨-, hafter⟩
    · have hviews : ∀ name, (store.call arrow (.commit pipeline epoch commit now)).view name
          = published.view name := by
        intro name
        rw [Store.call, hafter]
        rfl
      by_cases hpipeline : pipeline = S.pipeline
      · subst hpipeline
        exact follows_congr (follows_publish ⟨hfollows, hfits rfl, hpublished⟩ hencode)
          fun name _ _ => hviews name
      · exact follows_congr hfollows fun name key hname =>
          (hviews name).trans (view_publish_other hfollows hpipeline hpublished hname)
    · refine follows_congr hfollows fun name _ _ => ?_
      rw [Store.call, hafter]
      rfl

theorem follows_empty : S.Follows idOf ({} : Store D V) := by
  have hview : ∀ name, ({} : Store D V).view name = none := fun name => by simp [Store.view]
  constructor <;> simp [Store.read, hview]

theorem follows_run (hencode : Function.Injective (arrow.encode S.key))
    (hfollows : S.Follows idOf store) {calls : List (Call D V)}
    (hfits : S.FitsAll idOf arrow store calls) : S.Follows idOf (store.run arrow calls) := by
  induction calls generalizing store with
  | nil => exact hfollows
  | cons call calls ih => exact ih (follows_call hencode hfollows hfits.1) hfits.2

theorem fitsAll_concat {calls : List (Call D V)} {call : Call D V} :
    S.FitsAll idOf arrow store (calls ++ [call]) ↔
      S.FitsAll idOf arrow store calls ∧ S.Fits idOf (store.run arrow calls) call := by
  induction calls generalizing store with
  | nil => simp [FitsAll]
  | cons first calls ih =>
    rw [List.cons_append, FitsAll, ih, FitsAll, and_assoc]
    rfl

end

/-! ## Children follow their root -/

/-- After each commit of the stream that applies, of each root staged, a child table holds exactly
    the child rows staged with the id and sequence of the root row of the greatest sequence; the
    child rows of any other root are untouched; and every child row published has the id and the
    sequence of a root row published. -/
theorem children_follow_root {S : Stream} {arrow : Arrow D} {idOf : KeyCells D S.key → Bytes}
    (hencode : Function.Injective (arrow.encode S.key)) {calls : List (Call D V)} {epoch : Epoch}
    {commit : CommitMeta V} {now : Nat}
    (hcalls : S.FitsAll idOf arrow {} (calls ++ [.commit S.pipeline epoch commit now]))
    {before after : Store D V} (hbefore : before = Store.run arrow {} calls)
    (hafter : after = Store.run arrow {} (calls ++ [.commit S.pipeline epoch commit now]))
    (happlies : ∃ published, before.Applies arrow S.pipeline epoch commit published)
    {child : ChildTable} (hchild : child ∈ S.children) {column : String}
    (hcolumn : child.merge.columns.head? = some column) :
    (∀ root ∈ before.readStaged S.root S.pipeline epoch commit,
      (∀ other ∈ before.readStaged S.root S.pipeline epoch commit,
        other.bytes S.id = root.bytes S.id → other.bytes S.key.seq ≤ root.bytes S.key.seq) →
      (rowsOf column (root.bytes S.id) (after.read child.table)).Perm
        ((rowsOf column (root.bytes S.id)
          (before.readStaged child.table S.pipeline epoch commit)).filter fun row =>
            row.bytes child.merge.seq = root.bytes S.key.seq)) ∧
    (∀ id, (∀ root ∈ before.readStaged S.root S.pipeline epoch commit, root.bytes S.id ≠ id) →
      (rowsOf column id (after.read child.table)).Perm
        (rowsOf column id (before.read child.table))) ∧
    ∀ row ∈ after.read child.table, ∃ root ∈ after.read S.root,
      root.bytes S.id = row.bytes column ∧ root.bytes S.key.seq = row.bytes child.merge.seq := by
  obtain ⟨hearlier, hfits⟩ := fitsAll_concat.mp hcalls
  have hfollows : S.Follows idOf before := by
    rw [hbefore]
    exact follows_run hencode follows_empty hearlier
  have hcommits : S.Commits idOf before epoch commit := by
    rw [hbefore]
    exact hfits rfl
  obtain ⟨⟨published, counts⟩, happlies⟩ := happlies
  have hread : ∀ name, after.read name = published.read name := by
    intro name
    rcases Store.commit_cases arrow before S.pipeline epoch commit now with
      ⟨stored, held, hstored, hcommit⟩ | ⟨hnone, -⟩
    · have hsame : stored = published :=
        congrArg Prod.fst (Except.ok.inj (hstored.2.2.symm.trans happlies.2.2))
      rw [hafter, Store.run_concat, ← hbefore, Store.call, hcommit, ← hsame]
      rfl
    · exact absurd happlies (hnone _)
  rw [hread, hread]
  have hpublishes : S.Publishes idOf arrow before epoch commit published counts :=
    ⟨hfollows, hcommits, happlies.2.2⟩
  have hrows := rowsOf_read_child hpublishes hchild hcolumn
  refine ⟨fun root hroot hgreatest => ?_, fun id hid => ?_, fun row hrow =>
    children_publish hpublishes hencode hchild hcolumn hrow⟩
  · have hmem : (root.bytes S.id, root.bytes S.key.seq) ∈ S.stagedIds before epoch commit :=
      List.mem_map.mpr ⟨root, hroot, rfl⟩
    have hperm := hrows (root.bytes S.id)
    cases hwinning : winningSeq (S.stagedIds before epoch commit) (root.bytes S.id) with
    | none => exact absurd hmem (winningSeq_eq_none.mp hwinning _)
    | some seq =>
      obtain ⟨hstaged, hle⟩ := winningSeq_eq_some hwinning
      obtain ⟨other, hother, hpair⟩ := List.mem_map.mp hstaged
      obtain ⟨hid, rfl⟩ := Prod.mk.inj hpair
      have hseq : other.bytes S.key.seq = root.bytes S.key.seq :=
        le_antisymm (hgreatest other hother hid) (hle _ hmem)
      rw [hwinning, hseq] at hperm
      exact hperm
  · have hnone : winningSeq (S.stagedIds before epoch commit) id = none := by
      rw [winningSeq_eq_none]
      intro seq hmem
      obtain ⟨root, hroot, hpair⟩ := List.mem_map.mp hmem
      exact hid root hroot (Prod.mk.inj hpair).1
    have hperm := hrows id
    rw [hnone] at hperm
    exact hperm

end Stream

/-! ## Orders and their items -/

namespace Orders

def code : Cell Empty → Bytes
  | none => []
  | some (.int (.ofNat n)) => 0 :: 0 :: List.replicate n 0
  | some (.int (.negSucc n)) => 0 :: 1 :: List.replicate n 0
  | some (.bool b) => [1, if b then 1 else 0]
  | some (.bytes b) => 2 :: b

theorem code_injective : Function.Injective code := by
  have hlength : ∀ n m, List.replicate n (0 : Byte) = List.replicate m 0 → n = m := by
    intro n m h
    simpa using congrArg List.length h
  rintro (_ | (_ | _) | (_ | _) | _ | ⟨_, ⟨⟩⟩) (_ | (_ | _) | (_ | _) | _ | ⟨_, ⟨⟩⟩) h <;>
    simp [code] at h <;> first
      | rfl
      | (rw [hlength _ _ h])
      | (rw [h])

def arrow : Arrow Empty where
  columnType _ _ := { name := "Binary", numbered := false }
  encode key cells := (List.finRange key.columns.length).flatMap fun index => code (cells index)
  join type _ := type
  holds _ _ := .ok ()
  buries _ _ _ := .ok (.ok ())
  memorySize _ := 0

def key : MergeKey :=
  { columns := ["order"], seq := "_seq", root := none, changes := none, history := none }

def items : ChildTable where
  table := "orders_items"
  merge :=
    { columns := ["_root_id"], seq := "_seq",
      root := some { table := "orders", id := "_id", seq := "_seq" }, changes := none,
      history := none }

def stream : Stream where
  pipeline := "shop"
  root := "orders"
  key := key
  id := "_id"
  children := [items]
  upserts := ⟨rfl, rfl, rfl⟩
  follows := by simp [items, key]
  apart := by simp [items]
  distinct := by simp

def idOf (cells : KeyCells Empty stream.key) : Bytes := code (cells ⟨0, by decide⟩)

theorem encode_injective : Function.Injective (arrow.encode key) := by
  intro cells other h
  have hcode : code (cells ⟨0, by decide⟩) = code (other ⟨0, by decide⟩) := by
    simpa [arrow, key, List.finRange_succ] using h
  funext ⟨index, hindex⟩
  obtain rfl : index = 0 := Nat.lt_one_iff.mp hindex
  exact code_injective hcode

def schemaOf (fields : Schema) (h : fields.Nodup) : TableSchema :=
  { fields, type := fun _ => { name := "Binary", numbered := false }, nodup := h }

/-- Orders by number, each at a sequence. -/
def orders (rows : List (Nat × Byte)) : Batch Empty where
  fields := ["order", "_id", "_seq"]
  rows := rows.map fun row =>
    [some (.int row.1), some (.bytes (code (some (.int row.1)))), some (.bytes [row.2])]
  shaped := by
    intro row hrow
    obtain ⟨order, -, rfl⟩ := List.mem_map.mp hrow
    rfl

/-- Items, each of an order at a sequence. -/
def itemsOf (rows : List (Nat × Byte × Byte)) : Batch Empty where
  fields := ["_root_id", "_seq", "item"]
  rows := rows.map fun row =>
    [some (.bytes (code (some (.int row.1)))), some (.bytes [row.2.1]), some (.bytes [row.2.2])]
  shaped := by
    intro row hrow
    obtain ⟨item, -, rfl⟩ := List.mem_map.mp hrow
    rfl

def segment (id : SegmentId) : SegmentSet :=
  { ranges := [{ first := id, last := id }], runs := by simp, ordered := .cons (by simp) .nil }

def commit (seq : Nat) (after : Option CommitKey) : CommitMeta Unit :=
  { key := { epoch := 1, seq }, after, segments := segment seq, abandoned := .new,
    stateDelta := [], finishGenerations := [], childTables := [items], dropTables := [] }

def rootRef : TableRef :=
  { path := ["orders"], name := "orders", generation := none, merge := some key }

def itemsRef : TableRef :=
  { path := ["orders", "items"], name := "orders_items", generation := none,
    merge := some items.merge }

def flushes (segment : SegmentId) (roots : List (Nat × Byte))
    (children : List (Nat × Byte × Byte)) :
    List (Call Empty Unit) :=
  [.flush { pipeline := "shop", epoch := 1, table := "orders", generation := none }
      [(segment, orders roots)],
    .flush { pipeline := "shop", epoch := 1, table := "orders_items", generation := none }
      [(segment, itemsOf children)]]

/-- Orders 1 and 2 are committed with their items, then order 1 is staged twice more. -/
def calls : List (Call Empty Unit) :=
  [.open "shop",
    .applySchema "shop" 1 (.create rootRef (schemaOf ["order", "_id", "_seq"] (by decide))),
    .applySchema "shop" 1 (.create itemsRef (schemaOf ["_root_id", "_seq", "item"] (by decide)))]
  ++ flushes 1 [(1, 1), (2, 2)] [(1, 1, 10), (1, 1, 11), (2, 2, 20)]
  ++ [.commit "shop" 1 (commit 1 none) 0]
  ++ flushes 2 [(1, 3), (1, 4)] [(1, 3, 12), (1, 4, 13)]

def second : CommitMeta Unit := commit 2 (some { epoch := 1, seq := 1 })

end Orders

/-- Of order 1, staged at 3 and at 4, the item of 4 alone is published; order 2 keeps its own. -/
theorem children_follow_root_orders : let before := Store.run Orders.arrow {} Orders.calls
    let after := Store.run Orders.arrow {} (Orders.calls ++ [.commit "shop" 1 Orders.second 0])
    (∀ root ∈ before.readStaged "orders" "shop" 1 Orders.second,
      (∀ other ∈ before.readStaged "orders" "shop" 1 Orders.second,
        other.bytes "_id" = root.bytes "_id" → other.bytes "_seq" ≤ root.bytes "_seq") →
      (rowsOf "_root_id" (root.bytes "_id") (after.read "orders_items")).Perm
        ((rowsOf "_root_id" (root.bytes "_id")
          (before.readStaged "orders_items" "shop" 1 Orders.second)).filter fun row =>
            row.bytes "_seq" = root.bytes "_seq")) ∧
    (∀ id, (∀ root ∈ before.readStaged "orders" "shop" 1 Orders.second, root.bytes "_id" ≠ id) →
      (rowsOf "_root_id" id (after.read "orders_items")).Perm
        (rowsOf "_root_id" id (before.read "orders_items"))) ∧
    (∀ row ∈ after.read "orders_items", ∃ root ∈ after.read "orders",
      root.bytes "_id" = row.bytes "_root_id" ∧ root.bytes "_seq" = row.bytes "_seq") ∧
    (after.read "orders_items").map (NamedRow.bytes "item") = [[20], [13]] := by
  have hcalls : Orders.stream.FitsAll Orders.idOf Orders.arrow {}
      (Orders.calls ++ [.commit Orders.stream.pipeline 1 Orders.second 0]) := by decide +kernel
  have hchild : Orders.items ∈ Orders.stream.children := by decide
  have happlies : ∃ published, (Store.run Orders.arrow {} Orders.calls).Applies Orders.arrow
      Orders.stream.pipeline 1 Orders.second published := by
    obtain ⟨published, hpublished⟩ := exists_of_isOk (x := ((Store.run Orders.arrow {}
      Orders.calls).enter "shop").publish Orders.arrow "shop" 1 Orders.second) (by decide +kernel)
    exact ⟨published, by decide +kernel, rfl, hpublished⟩
  obtain ⟨hstaged, hothers, hroots⟩ := Stream.children_follow_root Orders.encode_injective hcalls
    rfl rfl happlies hchild rfl
  exact ⟨hstaged, hothers, hroots, by decide +kernel⟩

end Rdlt.Memory
