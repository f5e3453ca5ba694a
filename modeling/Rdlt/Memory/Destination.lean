/-
  Rdlt.Memory.Destination

  A transactional destination that keeps tables and state in process memory:
  sessions claim tables, stage batches and commit them. Every call runs under
  the store's lock, so a run is a sequence of calls.
-/

import Rdlt.Memory.Table

namespace Rdlt.Memory

open Lib

open Merge

variable {D V : Type}

/-! ## The store -/

structure PipelineStore (V : Type) where
  epoch : Epoch := 0
  state : OrdMap String V := ∅
  /-- The receipt of the last commit that landed. -/
  landed : Option Receipt := none

def PipelineStore.fence (store : PipelineStore V) : Fence :=
  { epoch := store.epoch, landed := store.landed }

def applyChange (state : OrdMap String V) : StateChange V → OrdMap String V
  | .put key record => state.insert key record
  | .delete key => state.erase key

/-- Applies the commit's state changes and keeps `receipt` as the last commit's that landed. -/
def PipelineStore.committed (store : PipelineStore V) (commit : CommitMeta V) (receipt : Receipt) :
    PipelineStore V :=
  { store with state := commit.stateDelta.foldl applyChange store.state, landed := some receipt }

abbrev PathKey := PipelineId ×ₗ TablePath

instance PathKey.transCmp : Std.TransCmp (@compare PathKey LinearOrder.toOrd) := inferInstance

structure Store (D V : Type) where
  pipelines : OrdMap PipelineId (PipelineStore V) := ∅
  tables : OrdMap String (Table D) := ∅
  /-- The name of each table a pipeline has referred to, by the pipeline and its logical path. -/
  names : OrdMap PathKey String := ∅

namespace Store

section

variable (arrow : Arrow D) (store : Store D V) (pipeline : PipelineId) (epoch : Epoch)
  (commit : CommitMeta V)

/-! ## Who owns the tables -/

/-- Claims the table `ref` refers to for `pipeline`'s session at `epoch` where no pipeline owns it,
    recording its name for the path and how it merges; another pipeline's table, and a claim by a
    fenced session, is refused. -/
def table (ref : TableRef) : Except ConnectorError (Store D V) :=
  let unclaimed := (store.tables[ref.name]?).all fun table => table.owner.isNone
  let current := (store.pipelines[pipeline]?).map PipelineStore.epoch
  if unclaimed && current != some epoch then
    .error (ConnectorError.fenced s!"pipeline {pipeline} has a session newer than epoch {epoch}")
  else
    let entry := store.tables.getD ref.name {}
    let owner := entry.owner.getD pipeline
    if owner != pipeline then .error (ConnectorError.tableOwned ref.name owner)
    else
      .ok { store with
        tables :=
          store.tables.insert ref.name { entry with owner := some owner, merge := ref.merge }
        names := store.names.insert (toLex (pipeline, ref.path)) ref.name }

/-- The table `name`, which `pipeline` owns; another pipeline's is refused, and so is one no
    pipeline owns, as a table dropped since. -/
def owned (name : String) : Except ConnectorError (Table D) :=
  match store.tables[name]? with
  | some table =>
    match table.owner with
    | some owner =>
      if owner = pipeline then .ok table else .error (ConnectorError.tableOwned name owner)
    | none => unowned
  | none => unowned
where
  unowned : Except ConnectorError (Table D) :=
    .error ((ConnectorError.config
      s!"table {name} belongs to no pipeline, so no pipeline's session changes it").withCode
        "table_unowned")

/-- The name of the table `pipeline` registered for `path`, where it still exists. -/
def named (path : TablePath) : Option String :=
  (store.names[(toLex (pipeline, path) : PathKey)]?).filter store.tables.contains

/-- Refuses `commit` where a table whose generation it swaps in, or which it drops, is not
    `pipeline`'s; a table that does not exist is neither swapped nor dropped. -/
def owns : Except ConnectorError Unit :=
  let swapped := commit.finishGenerations.filterMap fun entry => store.named pipeline entry.1
  let dropped := (commit.dropTables.map DroppedTable.name).filter store.tables.contains
  (swapped ++ dropped).forM fun name => do
    let _ ← store.owned pipeline name

/-! ## Publishing -/

/-- The batches `pipeline`'s session at `epoch` staged for the table `name` in the commit's
    segments. -/
def stagedRows (name : String) (pipeline : PipelineId) (epoch : Epoch) (commit : CommitMeta V) :
    List (Batch D) :=
  match store.tables[name]? with
  | none => []
  | some table =>
    (table.stagedIn pipeline epoch commit.segments).flatMap fun entry => entry.2.map Prod.snd

/-- What a commit does to one table: its name, the batches the commit staged for it, and for a
    merge table its rows once merged. -/
structure Plan (D : Type) where
  name : String
  staged : Staged D
  merged : Option (Merged D)

/-- How the commit says the child table `name` merges, where it lists it and stages rows of its
    root. -/
def listed (name : String) : Option MergeKey :=
  ((commit.childTables.find? fun child => child.table == name).map ChildTable.merge).filter
    fun key => key.root.any fun root =>
      !(store.stagedRows root.table pipeline epoch commit).isEmpty

def planMerge (table : Table D) (staged : Staged D) (key : MergeKey) :
    Except ConnectorError (Merged D) :=
  match key.root with
  | some root => do
      let roots := store.stagedRows root.table pipeline epoch commit
      let rows ← table.mergedChildren arrow staged key root roots
      pure { rows, tombstones := [] }
  | none => table.merged arrow staged key

/-- What the commit does to the table `name`; none for one it neither staged nor lists. -/
def plan (name : String) (table : Table D) : Except ConnectorError (Option (Plan D)) :=
  let staged := (table.stagedIn pipeline epoch commit.segments).flatMap Prod.snd
  -- A child table the commit lists follows its root's staged rows even where it staged nothing.
  let listed := store.listed pipeline epoch commit name
  if staged.isEmpty && listed.isNone then .ok none
  else do
    let _ ← store.owned pipeline name
    match table.merge.or listed with
    | some key => do
        let merged ← store.planMerge arrow pipeline epoch commit table staged key
        pure (some { name, staged, merged := some merged })
    | none => pure (some { name, staged, merged := none })

def plans : Except ConnectorError (List (Plan D)) := do
  let plans ← store.tables.toList.mapM fun entry =>
    store.plan arrow pipeline epoch commit entry.1 entry.2
  pure (plans.filterMap id)

/-- The table less what the session staged in the segments the commit publishes, and in those the
    load abandoned, which nothing publishes. -/
def unstaged (table : Table D) (pipeline : PipelineId) (epoch : Epoch) (commit : CommitMeta V) :
    Table D :=
  let done (key : StagedKey) : Bool :=
    key.pipeline == pipeline && key.epoch == epoch &&
      (commit.segments.contains key.segment || commit.abandoned.contains key.segment)
  { table with staged := table.staged.filter fun key _ => !done key }

def unstage : Store D V :=
  { store with tables := store.tables.map fun _ table => unstaged table pipeline epoch commit }

def append (table : Table D) (staged : Option GenerationId × Batch D) : Table D :=
  match staged.1 with
  | some generation =>
    { table with
      generations := table.generations.insert generation
        (table.generations.getD generation [] ++ [staged.2]) }
  | none => { table with published := table.published ++ [staged.2] }

def Plan.done (plan : Plan D) (table : Table D) : Table D :=
  match plan.merged with
  | some merged => { table with published := merged.rows, tombstones := merged.tombstones }
  | none => plan.staged.foldl append table

def publishPlan (plan : Plan D) : Store D V :=
  { store with
    tables := store.tables.insert plan.name (plan.done (store.tables.getD plan.name {})) }

/-- Swaps in a finished generation; a path the pipeline registered no table for names one it never
    created. -/
def finish (store : Store D V) (entry : TablePath × GenerationId) : Store D V :=
  match store.named pipeline entry.1 with
  | none => store
  | some name =>
    let table := store.tables.getD name {}
    { store with
      tables := store.tables.insert name { table with
        published := table.generations.getD entry.2 [], generations := ∅, tombstones := [] } }

def drop (dropped : DroppedTable) : Store D V :=
  { store with
    tables := store.tables.erase dropped.name
    names := store.names.filter fun _ name => name != dropped.name }

/-- Publishes the segments of `commit` that `pipeline`'s session at `epoch` staged and swaps in the
    generations it finishes; with the rows and bytes published. Every publish is worked out first,
    so a failure changes nothing. -/
def publish : Except ConnectorError (Store D V × Nat × Nat) := do
  store.owns pipeline commit
  let plans ← store.plans arrow pipeline epoch commit
  let batches := plans.flatMap fun plan => plan.staged.map Prod.snd
  let store := store.unstage pipeline epoch commit
  let store := plans.foldl publishPlan store
  let store := commit.finishGenerations.foldl (finish pipeline) store
  let store := commit.dropTables.foldl drop store
  pure (store, (batches.map Batch.numRows).sum, (batches.map arrow.memorySize).sum)

/-! ## Sessions -/

/-- What an open gives the engine: the session's epoch, the receipt of the last commit that landed,
    and the pipeline's state. -/
structure Opened (V : Type) where
  epoch : Epoch
  landed : Option Receipt
  state : List V

def «open» : Store D V × Except ConnectorError (Opened V) :=
  let held := store.pipelines.getD pipeline {}
  match held.epoch.next with
  | none =>
    ({ store with pipelines := store.pipelines.insert pipeline held },
      .error (ConnectorError.data s!"pipeline {pipeline} holds the last epoch there is"))
  | some epoch =>
    ({ store with pipelines := store.pipelines.insert pipeline { held with epoch } },
      .ok { epoch, landed := held.landed, state := held.state.toList.map Prod.snd })

def applySchema (change : TableChange) : Store D V × Except ConnectorError Unit :=
  match store.table pipeline epoch change.table with
  | .error error => (store, .error error)
  | .ok store =>
    -- the table stays claimed where the change is refused
    match (store.tables.getD change.table.name {}).change arrow change with
    | .error error => (store, .error error)
    | .ok table => ({ store with tables := store.tables.insert change.table.name table }, .ok ())

/-- A writer of a table: what it stages its batches as. -/
structure Writer where
  pipeline : PipelineId
  epoch : Epoch
  table : String
  generation : Option GenerationId
  deriving DecidableEq, Repr

def writer (ref : TableRef) : Store D V × Except ConnectorError Writer :=
  if (ref.merge.any fun key => key.history.isSome) && ref.generation.isSome then
    (store, .error (ConnectorError.internal
      "a history table merges into its table, never a generation"))
  else
    let held := (store.tables[ref.name]?).bind Table.schema
    match ref.merge.elim (.ok ()) fun key => holdsKey ref.name key held with
    | .error error => (store, .error error)
    | .ok () =>
      match store.table pipeline epoch ref with
      | .error error => (store, .error error)
      | .ok store =>
        (store, .ok { pipeline, epoch, table := ref.name, generation := ref.generation })

def stage (writer : Writer) (table : Table D) (buffered : SegmentId × Batch D) : Table D :=
  let key := StagedKey.of writer.pipeline writer.epoch buffered.1
  { table with
    staged := table.staged.insert key
      (table.staged.getD key [] ++ [(writer.generation, buffered.2)]) }

/-- Stages what a writer buffered; nothing of it where a batch of it is refused. -/
def flush (writer : Writer) (buffered : List (SegmentId × Batch D)) :
    Store D V × Except ConnectorError Unit :=
  let pipeline := writer.pipeline
  let epoch := writer.epoch
  let current := (store.pipelines.getD pipeline {}).epoch
  if current != epoch then
    (store, .error (ConnectorError.fenced
      s!"pipeline {pipeline} is at epoch {current}; this writer's session opened at {epoch}"))
  else
    let staged : Except ConnectorError (Table D) := do
      let table ← store.owned pipeline writer.table
      buffered.forM fun entry => table.admits entry.2
      pure (buffered.foldl (stage writer) table)
    match staged with
    | .error error => (store, .error error)
    | .ok table => ({ store with tables := store.tables.insert writer.table table }, .ok ())

/-- Removes what older sessions of the pipeline staged. -/
def discardStaged : Store D V :=
  { store with
    tables := store.tables.map fun _ table =>
      { table with
        staged := table.staged.filter fun key _ => key.pipeline != pipeline || epoch ≤ key.epoch } }

def enter : Store D V :=
  { store with pipelines := store.pipelines.insert pipeline (store.pipelines.getD pipeline {}) }

def record (receipt : Receipt) : Store D V :=
  let held := store.pipelines.getD pipeline {}
  { store with pipelines := store.pipelines.insert pipeline (held.committed commit receipt) }

def receiptOf (now : Nat) (counts : Nat × Nat) : Receipt :=
  { key := commit.key, committedAt := now, rows := counts.1, bytes := counts.2 }

def apply (now : Nat) : Except ConnectorError (Store D V × Receipt) := do
  let sent := commit.key.text
  if commit.key.epoch != epoch then
    throw (ConnectorError.fenced s!"a session of epoch {epoch} cannot apply {sent}")
  let (published, counts) ← store.publish arrow pipeline epoch commit
  let receipt := receiptOf commit now counts
  pure (published.record pipeline commit receipt, receipt)

end

def commit (arrow : Arrow D) (store : Store D V) (pipeline : PipelineId) (epoch : Epoch)
    (commit : CommitMeta V) (now : Nat) : Store D V × Except ConnectorError Receipt :=
  let store := store.enter pipeline
  match (store.pipelines.getD pipeline {}).fence.decide commit with
  | .error error => (store, .error error)
  | .ok (some landed) => (store, .ok landed)
  | .ok none =>
    match store.apply arrow pipeline epoch commit now with
    | .error error => (store, .error error)
    | .ok (store, receipt) => (store, .ok receipt)

end Store

end Rdlt.Memory
