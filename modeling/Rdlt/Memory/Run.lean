/-
  Rdlt.Memory.Run

  Runs of the destination: the calls sessions of any pipelines make, one after
  the other, and what each call leaves of one table's rows.
-/

import Rdlt.Memory.Publish

namespace Rdlt.Memory

open Lib

open Merge

variable {D V : Type}

/-! ## Calls -/

inductive Call (D V : Type) where
  | «open» (pipeline : PipelineId)
  | applySchema (pipeline : PipelineId) (epoch : Epoch) (change : TableChange)
  | writer (pipeline : PipelineId) (epoch : Epoch) (ref : TableRef)
  | flush (writer : Store.Writer) (buffered : List (SegmentId × Batch D))
  | discardStaged (pipeline : PipelineId) (epoch : Epoch)
  | commit (pipeline : PipelineId) (epoch : Epoch) (commit : CommitMeta V) (now : Nat)

namespace Store

section

variable (arrow : Arrow D) (store : Store D V)

def call : Call D V → Store D V
  | .open pipeline => (store.open pipeline).1
  | .applySchema pipeline epoch change => (store.applySchema arrow pipeline epoch change).1
  | .writer pipeline epoch ref => (store.writer pipeline epoch ref).1
  | .flush writer buffered => (store.flush writer buffered).1
  | .discardStaged pipeline epoch => store.discardStaged pipeline epoch
  | .commit pipeline epoch commit now => (store.commit arrow pipeline epoch commit now).1

def run (calls : List (Call D V)) : Store D V :=
  calls.foldl (call arrow) store

@[simp] theorem run_nil : store.run arrow [] = store := rfl

theorem run_concat (calls : List (Call D V)) (call : Call D V) :
    store.run arrow (calls ++ [call]) = (store.run arrow calls).call arrow call := by
  rw [run, List.foldl_append]
  rfl

/-- A commit applies: it did not land, it is not fenced, what it expects landed did, and its rows
    are published. -/
def Applies (pipeline : PipelineId) (epoch : Epoch)
    (commit : CommitMeta V) (published : Store D V × Nat × Nat) : Prop :=
  ((store.enter pipeline).pipelines.getD pipeline {}).fence.decide commit = .ok none ∧
    commit.key.epoch = epoch ∧
    (store.enter pipeline).publish arrow pipeline epoch commit = .ok published

end

end Store

/-! ## What a table's rows depend on -/

/-- A table without what is staged or hidden. -/
@[ext] structure TableView (D : Type) where
  owner : Option PipelineId := none
  schema : Option TableSchema := none
  merge : Option MergeKey := none
  published : List (Batch D) := []

def Table.view (table : Table D) : TableView D :=
  { owner := table.owner, schema := table.schema, merge := table.merge,
    published := table.published }

def Store.view (store : Store D V) (name : String) : Option (TableView D) :=
  (store.tables[name]?).map Table.view

namespace Store

variable {arrow : Arrow D} {store after : Store D V} {pipeline : PipelineId} {epoch : Epoch}
  {name : String}

theorem view_insert (store : Store D V) (other : String) (table : Table D) (name : String) :
    ({ store with tables := store.tables.insert other table } : Store D V).view name
      = if other = name then some table.view else store.view name := by
  rw [view, OrdMap.getElem?_insert]
  by_cases hname : other = name
  · rw [if_pos hname, if_pos hname, Option.map_some]
  · rw [if_neg hname, if_neg hname, view]

theorem view_open (store : Store D V) (pipeline : PipelineId) (name : String) :
    (store.open pipeline).1.view name = store.view name := by
  unfold Store.open
  dsimp only
  split <;> rfl

theorem view_table {ref : TableRef} (h : store.table pipeline epoch ref = .ok after) :
    after.view name = if ref.name = name then
      some { (store.view name).getD {} with owner := some pipeline, merge := ref.merge }
    else store.view name := by
  unfold Store.table at h
  dsimp only at h
  split at h
  · cases h
  · split at h
    · cases h
    · rename_i howner
      cases h
      refine (view_insert { store with names := _ } _ _ _).trans ?_
      by_cases hname : ref.name = name
      · rw [if_pos hname, if_pos hname, ← hname]
        have hsame : ((store.tables.getD ref.name {}).owner.getD pipeline) = pipeline := by
          simpa using howner
        rw [hsame, view, Std.ExtTreeMap.getD_eq_getD_getElem?]
        cases store.tables[ref.name]? <;> rfl
      · rw [if_neg hname, if_neg hname]

theorem view_writer (store : Store D V) (pipeline : PipelineId) (epoch : Epoch) (ref : TableRef)
    (name : String) : (store.writer pipeline epoch ref).1.view name = store.view name ∨
      (ref.name = name ∧ (store.writer pipeline epoch ref).1.view name
        = some { (store.view name).getD {} with owner := some pipeline, merge := ref.merge }) := by
  unfold Store.writer
  dsimp only
  split
  · exact .inl rfl
  · split
    · exact .inl rfl
    · split
      · exact .inl rfl
      · rename_i after hafter
        rw [view_table hafter]
        by_cases hname : ref.name = name
        · exact .inr ⟨hname, by rw [if_pos hname]⟩
        · exact .inl (by rw [if_neg hname])

theorem view_foldl_stage (writer : Writer) (table : Table D)
    (buffered : List (SegmentId × Batch D)) :
    (buffered.foldl (stage writer) table).view = table.view :=
  List.foldlRecOn (motive := (Table.view · = table.view)) _ _ rfl fun _ h _ _ => h

theorem getElem?_of_owned {table : Table D} (h : store.owned pipeline name = .ok table) :
    store.tables[name]? = some table ∧ table.owner = some pipeline := by
  unfold owned at h
  split at h
  · rename_i held hheld
    split at h
    · rename_i owner howner
      split at h
      · rename_i hsame
        cases h
        exact ⟨hheld, by rw [howner, hsame]⟩
      · cases h
    · cases h
  · cases h

theorem view_flush (store : Store D V) (writer : Writer) (buffered : List (SegmentId × Batch D))
    (name : String) : (store.flush writer buffered).1.view name = store.view name := by
  unfold Store.flush
  dsimp only
  split
  · rfl
  · split
    · rfl
    · rename_i table htable
      obtain ⟨held, hheld, htable⟩ := bind_eq_ok.mp htable
      obtain ⟨⟨⟩, -, htable⟩ := bind_eq_ok.mp htable
      obtain rfl := pure_eq_ok.mp htable
      rw [view_insert, view_foldl_stage]
      by_cases hname : writer.table = name
      · rw [if_pos hname, view, ← hname, (getElem?_of_owned hheld).1, Option.map_some]
      · rw [if_neg hname]

theorem view_discardStaged (store : Store D V) (pipeline : PipelineId) (epoch : Epoch)
    (name : String) : (store.discardStaged pipeline epoch).view name = store.view name := by
  simp only [view, Store.discardStaged, Std.ExtTreeMap.getElem?_map, Option.map_map]
  rfl

theorem change_eq_ok {table next : Table D} {change : TableChange}
    (h : table.change arrow change = .ok next) :
    ∃ schema, changed arrow.join table.schema change = .ok schema ∧
      next = { table with schema := some schema } := by
  obtain ⟨schema, hschema, h⟩ := bind_eq_ok.mp h
  obtain ⟨⟨⟩, -, h⟩ := bind_eq_ok.mp h
  refine ⟨schema, hschema, ?_⟩
  dsimp only at h
  split at h
  · exact (pure_eq_ok.mp h).symm
  · obtain ⟨kept, -, h⟩ := bind_eq_ok.mp h
    obtain ⟨⟨⟩, -, h⟩ := bind_eq_ok.mp h
    exact (pure_eq_ok.mp h).symm

/-- A schema change claims the table, and where it applies gives it its columns. -/
theorem view_applySchema (store : Store D V) (change : TableChange) (name : String) :
    (store.applySchema arrow pipeline epoch change).1.view name = store.view name ∨
      (change.table.name = name ∧ ∃ schema, (schema = ((store.view name).getD {}).schema ∨
            ∃ next, changed arrow.join ((store.view name).getD {}).schema change = .ok next ∧
              schema = some next) ∧ (store.applySchema arrow pipeline epoch change).1.view name
            = some { (store.view name).getD {} with
                owner := some pipeline, merge := change.table.merge, schema }) := by
  unfold Store.applySchema
  dsimp only
  split
  · exact .inl rfl
  · rename_i claimed hclaimed
    have hview := @view_table _ _ _ _ _ _ name _ hclaimed
    by_cases hname : change.table.name = name
    · rw [if_pos hname] at hview
      split
      · exact .inr ⟨hname, _, .inl rfl, hview⟩
      · rename_i table htable
        obtain ⟨held, hheld, hsame⟩ := Option.map_eq_some_iff.mp hview
        rw [hname, Std.ExtTreeMap.getD_eq_getD_getElem?, hheld, Option.getD_some] at htable
        obtain ⟨next, hnext, rfl⟩ := change_eq_ok htable
        have hschema : held.schema = ((store.view name).getD {}).schema :=
          congrArg TableView.schema hsame
        rw [hschema] at hnext
        refine .inr ⟨hname, some next, .inr ⟨next, hnext, rfl⟩, ?_⟩
        rw [view_insert, if_pos hname, Option.some.injEq]
        exact congrArg (fun view : TableView D => { view with schema := some next }) hsame
    · rw [if_neg hname] at hview
      split
      · exact .inl hview
      · exact .inl (by rw [view_insert, if_neg hname, hview])

/-! ## Commits -/

variable {commit : CommitMeta V} {now : Nat}

theorem apply_eq_ok_iff {arrow : Arrow D} {result : Store D V × Receipt} :
    store.apply arrow pipeline epoch commit now = .ok result ↔
      commit.key.epoch = epoch ∧ ∃ published counts,
        store.publish arrow pipeline epoch commit = .ok (published, counts) ∧
        result = (published.record pipeline commit (receiptOf commit now counts),
          receiptOf commit now counts) := by
  unfold apply
  rw [ite_throw_bind_eq_ok, bind_eq_ok]
  simp only [bne_iff_ne, ne_eq, not_not, pure_eq_ok]
  refine and_congr_right fun _ => ?_
  constructor
  · rintro ⟨⟨published, counts⟩, hpublished, rfl⟩
    exact ⟨published, counts, hpublished, rfl⟩
  · rintro ⟨published, counts, hpublished, rfl⟩
    exact ⟨(published, counts), hpublished, rfl⟩

/-- A commit that applies leaves its rows published and its receipt recorded; any other leaves the
    store as it was. -/
theorem commit_cases (arrow : Arrow D) (store : Store D V) (pipeline : PipelineId) (epoch : Epoch)
    (commit : CommitMeta V) (now : Nat) :
    (∃ published counts, store.Applies arrow pipeline epoch commit (published, counts) ∧
      store.commit arrow pipeline epoch commit now
        = (published.record pipeline commit (receiptOf commit now counts),
            .ok (receiptOf commit now counts))) ∨
    ((∀ published, ¬ store.Applies arrow pipeline epoch commit published) ∧
      (store.commit arrow pipeline epoch commit now).1 = store.enter pipeline) := by
  unfold Store.commit Applies
  dsimp only
  split
  · rename_i hdecide
    exact .inr ⟨by simp [hdecide], rfl⟩
  · rename_i hdecide
    exact .inr ⟨by simp [hdecide], rfl⟩
  · rename_i hdecide
    split
    · rename_i error herror
      refine .inr ⟨?_, rfl⟩
      rintro ⟨published, counts⟩ ⟨-, hepoch, hpublished⟩
      have hok : (store.enter pipeline).apply arrow pipeline epoch commit now = .ok _ :=
        apply_eq_ok_iff.mpr ⟨hepoch, published, counts, hpublished, rfl⟩
      rw [herror] at hok
      cases hok
    · rename_i applied receipt happlied
      obtain ⟨hepoch, published, counts, hpublished, hresult⟩ := apply_eq_ok_iff.mp happlied
      cases hresult
      exact .inl ⟨published, counts, ⟨hdecide, hepoch, hpublished⟩, rfl⟩

end Store

end Rdlt.Memory
