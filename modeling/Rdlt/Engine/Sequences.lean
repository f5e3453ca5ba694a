/-
  Rdlt.Engine.Sequences

  How a stream's table sequences and matches its rows, and whether a load may go
  on doing so.
-/

import Rdlt.Connector.Records
import Rdlt.Engine.Reads

namespace Rdlt.Engine

open Records (Sequences Identity TableState)

/-! ## What a load is accepted by -/

/-- How a stream is written. -/
inductive WriteMode where
  | append
  | replace
  | merge
  | history
  deriving DecidableEq, Repr

inductive LineageColumns where
  | none
  | root
  | child
  deriving DecidableEq, Repr

/-- A stream's plan, as far as its table's rows are sequenced and matched by it. -/
structure LoadPlan extends StreamPlan where
  write : WriteMode
  deriving DecidableEq, Repr

namespace LoadPlan

/-- Whether the stream matches rows by key: merged, or kept as history. -/
def keyed (plan : LoadPlan) : Bool := plan.write = .merge ∨ plan.write = .history

def keepsHistory (plan : LoadPlan) : Bool := plan.write = .history

/-- Whether the stream is read as changes and matched by key. -/
def mergesChanges (plan : LoadPlan) : Bool := plan.mode = .cdc ∧ plan.keyed

end LoadPlan

/-- What state records of how a table's rows are sequenced and matched. -/
structure Keying where
  sequences : Sequences
  history : Bool
  key : List ColumnPath
  changeTime : Option ColumnPath
  identity : Identity
  deriving DecidableEq

/-- A load refused before its table changes: a config error of its stream. -/
structure Refusal where
  code : String
  stream : StreamName
  message : String
  deriving DecidableEq, Repr

section

variable (keying : Keying) (plan : LoadPlan) (table : TableState)

def refuse (code detail : String) : Except Refusal Unit :=
  let name := plan.name
  .error { code, stream := plan.name, message := s!"stream {name}: {detail}" }

/-- Refuses to load `plan`'s stream as `keying` says into its created table, which state records as
    `table`, where that would change how its rows are sequenced or matched. -/
def refuseChange (keying : Keying) : Except Refusal Unit :=
  if keying.sequences = .source ∧ table.sequences ≠ some .source then
    refuse plan "table_sequences_mismatch"
      ("its table holds rows the engine merged, which a change stream's positions cannot order; "
        ++ "load the change stream into a table of its own")
  else if table.history ≠ keying.history then
    refuse plan "table_history_mismatch"
      (if keying.history then
        "its table was created without history, whose rows have no versions to close; "
          ++ "keep the stream's history in a table of its own"
      else
        "its table keeps the history of another stream, whose versions only a history stream keeps")
  else if keying.key ≠ [] ∧ table.key ≠ [] ∧ table.key ≠ keying.key then
    refuse plan "table_key_mismatch"
      "its table's rows were merged by another key; reset the stream's tables to merge by this one"
  else if keying.history ∧ table.changeTime ≠ keying.changeTime then
    refuse plan "table_change_time_mismatch"
      ("its table's versions began at another change time; "
        ++ "reset the stream's tables to begin them at this one")
  else if keying.key ≠ [] ∧ table.identity = .position then
    refuse plan "table_identity_mismatch"
      ("its table holds normalized rows a load that did not merge identified by their position, "
        ++ "whose children a merge would leave behind; "
        ++ "reset the stream's tables to merge into them")
  else .ok ()

/-- How a load sequences and matches its rows. -/
def keyingOf (key : List ColumnPath) (changeTime : Option ColumnPath)
    (lineage : LineageColumns) : Keying where
  sequences := if plan.mergesChanges then .source else .engine
  history := plan.keepsHistory
  key := key
  changeTime := changeTime.filter fun _ => plan.keepsHistory
  identity := if key = [] ∧ lineage ≠ .none then .position else .key

/-- What state records of a load's keying over what it records of the table: the key its rows hold
    where the load merges nothing, and whether some roots are identified by position. -/
def Keying.onto : Keying :=
  { keying with
    key := if keying.key = [] then table.key else keying.key
    identity := if table.schema.isSome ∧ table.identity = .position then .position
      else keying.identity }

def Keying.recordedIn : Bool :=
  table.sequences = some keying.sequences ∧ table.history = keying.history ∧
    table.key = keying.key ∧ table.changeTime = keying.changeTime ∧ table.identity = keying.identity

/-- Refuses a change of how a created table's rows are sequenced or matched. -/
def refuseCreated (keying : Keying) : Except Refusal Unit :=
  if table.schema.isSome then refuseChange plan table keying else .ok ()

end

/-- What state must record of how `plan`'s table sequences and matches its rows, which state records
    as `recorded`, before its load merges by `key`; none where state records it already. -/
def toRecord (plan : LoadPlan) (recorded : Option TableState) (key : List ColumnPath)
    (changeTime : Option ColumnPath) (lineage : LineageColumns) : Except Refusal (Option Keying) :=
  let keying := keyingOf plan key changeTime lineage
  match recorded with
  | none => .ok (some keying)
  | some table => do
      refuseCreated plan table keying
      let keying := keying.onto table
      .ok (if keying.recordedIn table then none else some keying)

/-! ## Loads of one table -/

/-- A load of a table, with the schema it leaves in state, where it leaves one. -/
structure Load where
  plan : LoadPlan
  key : List ColumnPath
  changeTime : Option ColumnPath
  lineage : LineageColumns
  leaves : Option (SchemaVersion × TableSchema)

namespace Load

def keying (load : Load) : Keying := keyingOf load.plan load.key load.changeTime load.lineage

def merges (load : Load) : Bool := load.key ≠ []

/-- Whether the load identifies normalized root rows by their positions. -/
def positional (load : Load) : Bool := load.key = [] ∧ load.lineage ≠ .none

end Load

inductive LoadEvent where
  | load (load : Load)
  | reset

/-- A pipeline's state and the loads of a table accepted since its schema was first left there. -/
structure Loads where
  state : Records.PipelineState
  span : List Load := []

namespace Loads

section

variable (loads : Loads) (path : TablePath)

def table : Option TableState := loads.state.tables[path]?

def schema (loads : Loads) (path : TablePath) : Option (SchemaVersion × TableSchema) :=
  (loads.table path).bind TableState.schema

def entry (keying : Keying) : Records.StateEntry :=
  .sequences path keying.sequences keying.history keying.key keying.changeTime keying.identity

/-- The state once an accepted load recorded how it sequences its rows and left its schema. -/
def recorded (state : Records.PipelineState) (keying : Option Keying)
    (leaves : Option (SchemaVersion × TableSchema)) : Records.PipelineState :=
  let state := keying.elim state fun keying => state.put (entry path keying)
  leaves.elim state fun left => state.put (.schema path left.1 left.2)

/-- A load is refused, or recorded; a reset forgets what state records of the table. -/
def step (loads : Loads) : LoadEvent → Loads
  | .load load =>
    match toRecord load.plan (loads.table path) load.key load.changeTime load.lineage with
    | .error _ => loads
    | .ok keying =>
      let after : Loads :=
        { loads with state := recorded path loads.state keying load.leaves }
      if (after.schema path).isSome then { after with span := loads.span ++ [load] } else after
  | .reset =>
    { state := [Records.StateKey.schema path, .names path, .sequences path].foldl
        Records.PipelineState.delete loads.state }

def run (loads : Loads) (events : List LoadEvent) : Loads :=
  events.foldl (step path) loads

end

end Loads

/-- What a load and a later one of its span agree in. -/
structure Compatible (load later : Load) : Prop where
  key : load.merges → later.merges → load.key = later.key
  history : load.plan.keepsHistory = later.plan.keepsHistory
  changeTime : load.plan.keepsHistory → load.changeTime = later.changeTime
  changes : later.plan.mergesChanges → load.plan.mergesChanges
  identity : later.merges → ¬ load.positional

@[simp] theorem Keying.onto_empty (keying : Keying) : keying.onto {} = keying := by
  obtain ⟨sequences, history, key, changeTime, identity⟩ := keying
  cases key <;> rfl

/-! ## What state records of the loads of a span -/

variable {table : TableState}

theorem refuseChange_eq_ok {plan : LoadPlan} {keying : Keying}
    (h : refuseChange plan table keying = .ok ()) :
    (keying.sequences = .source → table.sequences = some .source) ∧ table.history = keying.history ∧
      (keying.key ≠ [] → table.key ≠ [] → table.key = keying.key) ∧
      (keying.history → table.changeTime = keying.changeTime) ∧
      (keying.key ≠ [] → table.identity ≠ .position) := by
  unfold refuseChange at h
  split at h
  · cases h
  rename_i hsequences
  split at h
  · cases h
  rename_i hhistory
  split at h
  · cases h
  rename_i hkey
  split at h
  · cases h
  rename_i htime
  split at h
  · cases h
  rename_i hidentity
  exact ⟨fun hsource => by_contra fun hne => hsequences ⟨hsource, hne⟩, not_not.mp hhistory,
    fun hmerges hmerged => by_contra fun hne => hkey ⟨hmerges, hmerged, hne⟩,
    fun hkeeps => by_contra fun hne => htime ⟨hkeeps, hne⟩,
    fun hmerges hposition => hidentity ⟨hmerges, hposition⟩⟩

variable {loads : Loads}

namespace Loads

variable (path : TablePath) (state : Records.PipelineState)

/-- What state records of the table agrees with the loads of its span, and they with one another. -/
structure Agrees (table : TableState) (span : List Load) : Prop where
  key : ∀ load ∈ span, load.merges → table.key = load.key
  history : ∀ load ∈ span, table.history = load.plan.keepsHistory
  changeTime : ∀ load ∈ span, load.plan.keepsHistory → table.changeTime = load.changeTime
  changes : table.sequences = some .source → ∀ load ∈ span, load.plan.mergesChanges
  identity : ∀ load ∈ span, load.positional → table.identity = .position
  compatible : span.Pairwise Compatible

/-- Where state holds the table's schema, it records what the loads of the span agree in; where it
    does not, there are none. -/
structure Sound (path : TablePath) (loads : Loads) : Prop where
  agrees : ∀ table ∈ loads.table path, table.schema.isSome → Agrees table loads.span
  unspanned : loads.schema path = none → loads.span = []

def keyed (table : TableState) (keying : Keying) : TableState :=
  { table with
    sequences := some keying.sequences, history := keying.history, key := keying.key,
    changeTime := keying.changeTime, identity := keying.identity }

theorem keyed_of_recordedIn {keying : Keying} (h : keying.recordedIn table) :
    keyed table keying = table := by
  simp only [Keying.recordedIn, decide_eq_true_eq] at h
  obtain ⟨hsequences, hhistory, hkey, htime, hidentity⟩ := h
  cases table
  simp_all [keyed]

theorem tables_recorded (keying : Keying) (leaves : Option (SchemaVersion × TableSchema)) :
    (recorded path state (some keying) leaves).tables[path]?
      = some { keyed (state.tables.getD path {}) keying with
          schema := leaves.or (state.tables.getD path {}).schema } := by
  cases leaves with
  | none =>
    simp only [recorded, Option.elim_some, Option.elim_none, Records.PipelineState.put, entry,
      Records.PipelineState.entryTable, Lib.OrdMap.getElem?_insert, if_true]
    rfl
  | some left =>
    simp only [recorded, Option.elim_some, Records.PipelineState.put, entry,
      Records.PipelineState.entryTable, Lib.OrdMap.getElem?_insert, if_true,
      Std.ExtTreeMap.getD_insert_self]
    rfl

theorem tables_unrecorded {state : Records.PipelineState}
    (htable : state.tables[path]? = some table) (leaves : Option (SchemaVersion × TableSchema)) :
    (recorded path state none leaves).tables[path]?
      = some { table with schema := leaves.or table.schema } := by
  cases leaves with
  | none =>
    simp only [recorded, Option.elim_none, htable]
    rfl
  | some left =>
    have hheld : state.tables.getD path {} = table := by
      rw [Std.ExtTreeMap.getD_eq_getD_getElem?, htable, Option.getD_some]
    simp only [recorded, Option.elim_some, Option.elim_none, Records.PipelineState.put,
      Records.PipelineState.entryTable, Lib.OrdMap.getElem?_insert, if_true, hheld]
    rfl

theorem table_recorded {path : TablePath} {load : Load} {keying : Option Keying}
    (h : toRecord load.plan (loads.table path) load.key load.changeTime load.lineage = .ok keying) :
    (recorded path loads.state keying load.leaves).tables[path]?
        = some { keyed ((loads.table path).getD {})
          (load.keying.onto ((loads.table path).getD {})) with
            schema := load.leaves.or ((loads.table path).getD {}).schema } ∧
      ∀ table ∈ loads.table path, table.schema.isSome →
        refuseChange load.plan table load.keying = .ok () := by
  have hgetD : loads.state.tables.getD path {} = (loads.table path).getD {} :=
    Std.ExtTreeMap.getD_eq_getD_getElem?
  cases htable : loads.table path with
  | none =>
    rw [htable] at h
    cases h
    refine ⟨?_, fun _ hmem => nomatch hmem⟩
    rw [tables_recorded, hgetD, htable]
    rw [Option.getD_none, Keying.onto_empty]
    rfl
  | some table =>
    rw [htable] at h
    rw [toRecord] at h
    obtain ⟨⟨⟩, haccepted, h⟩ := Lib.bind_eq_ok.mp h
    cases h
    refine ⟨?_, fun held hheld hschema => ?_⟩
    · rw [Option.getD_some]
      split
      · rename_i hrecorded
        have hkept : keyed table (load.keying.onto table) = table := keyed_of_recordedIn hrecorded
        rw [tables_unrecorded path htable, hkept]
      · rw [tables_recorded, hgetD, htable]
        rfl
    · cases hheld
      rwa [refuseCreated, if_pos hschema] at haccepted

theorem changeTime_keying {load : Load} (h : load.plan.keepsHistory) :
    load.keying.changeTime = load.changeTime := by
  rw [Load.keying, keyingOf]
  cases load.changeTime <;> simp [h]

theorem agrees_first (table : TableState) (load : Load)
    (schema : Option (SchemaVersion × TableSchema)) :
    Agrees { keyed table (load.keying.onto table) with schema } [load] := by
  constructor
  · simp only [List.forall_mem_singleton]
    intro hmerges
    have hload : load.keying.key ≠ [] := of_decide_eq_true hmerges
    exact if_neg hload
  · simp only [List.forall_mem_singleton]
    rfl
  · simp only [List.forall_mem_singleton]
    exact changeTime_keying
  · simp only [List.forall_mem_singleton]
    intro hsequences
    have hload : load.keying.sequences = .source := Option.some.inj hsequences
    by_contra hnot
    simp [Load.keying, keyingOf, hnot] at hload
  · simp only [List.forall_mem_singleton]
    intro hpositional
    have hload : load.keying.identity = .position := if_pos (of_decide_eq_true hpositional)
    simp [keyed, Keying.onto, hload]
  · exact List.pairwise_singleton _ _

/-- A load accepted by what state records of the table leaves it agreeing with the load too. -/
theorem Agrees.concat {span : List Load} {load : Load} (hagrees : Agrees table span)
    (hschema : table.schema.isSome) (haccepted : refuseChange load.plan table load.keying = .ok ())
    (schema : Option (SchemaVersion × TableSchema)) :
    Agrees { keyed table (load.keying.onto table) with schema } (span ++ [load]) := by
  obtain ⟨hsource, hhistory, hkey, htime, hidentity⟩ := refuseChange_eq_ok haccepted
  have hnew := agrees_first table load schema
  have hcompatible : ∀ held ∈ span, Compatible held load := by
    intro held hheld
    have hkeeps : held.plan.keepsHistory = load.plan.keepsHistory :=
      (hagrees.history held hheld).symm.trans hhistory
    refine ⟨fun hmerges hmerges' => ?_, hkeeps, fun hold => ?_, fun hchanges =>
      ?_, fun hmerges h => ?_⟩
    · have htable := hagrees.key held hheld hmerges
      refine htable.symm.trans (hkey (of_decide_eq_true hmerges') ?_)
      rw [htable]
      exact of_decide_eq_true hmerges
    · have hload : load.plan.keepsHistory := hkeeps ▸ hold
      exact (hagrees.changeTime held hheld hold).symm.trans
        ((htime hload).trans (changeTime_keying hload))
    · refine hagrees.changes (hsource ?_) held hheld
      simp [Load.keying, keyingOf, hchanges]
    · exact hidentity (of_decide_eq_true hmerges) (hagrees.identity held hheld h)
  refine ⟨?_, ?_, ?_, ?_, ?_, ?_⟩
  · refine List.forall_mem_append.mpr ⟨fun held hheld hmerges => ?_, hnew.key⟩
    by_cases hload : load.keying.key = []
    · exact (if_pos hload).trans (hagrees.key held hheld hmerges)
    · exact (if_neg hload).trans ((hcompatible held hheld).key hmerges (decide_eq_true hload)).symm
  · exact List.forall_mem_append.mpr
      ⟨fun held hheld => (hcompatible held hheld).history.symm, hnew.history⟩
  · refine List.forall_mem_append.mpr ⟨fun held hheld hold => ?_, hnew.changeTime⟩
    have hload : load.plan.keepsHistory := (hcompatible held hheld).history ▸ hold
    exact (changeTime_keying hload).trans ((hcompatible held hheld).changeTime hold).symm
  · intro hsequences
    refine List.forall_mem_append.mpr ⟨fun held hheld => ?_, hnew.changes hsequences⟩
    exact hagrees.changes (hsource (Option.some.inj hsequences)) held hheld
  · refine List.forall_mem_append.mpr ⟨fun held hheld hpositional => ?_, hnew.identity⟩
    exact if_pos ⟨hschema, hagrees.identity held hheld hpositional⟩
  · refine List.pairwise_append.mpr ⟨hagrees.compatible, List.pairwise_singleton _ _, ?_⟩
    simpa only [List.forall_mem_singleton] using hcompatible

/-! ## Steps and runs -/

theorem Sound.load {path : TablePath} (h : loads.Sound path) (load : Load) :
    (loads.step path (.load load)).Sound path := by
  unfold step
  dsimp only
  cases hrecord : toRecord load.plan (loads.table path) load.key load.changeTime load.lineage with
  | error _ => exact h
  | ok keying =>
    obtain ⟨htable, haccepted⟩ := table_recorded hrecord
    dsimp only
    have hagrees : ∀ schema, Agrees
        { keyed ((loads.table path).getD {}) (load.keying.onto ((loads.table path).getD {})) with
          schema } (loads.span ++ [load]) := by
      intro schema
      cases hheld : (loads.table path).bind TableState.schema with
      | none =>
        rw [h.unspanned hheld]
        exact agrees_first _ load schema
      | some held =>
        obtain ⟨table, hmem, hschema⟩ := Option.bind_eq_some_iff.mp hheld
        have hsome : table.schema.isSome := Option.isSome_iff_exists.mpr ⟨held, hschema⟩
        rw [hmem]
        exact (h.agrees table hmem hsome).concat hsome (haccepted table hmem hsome) schema
    split
    · rename_i hsome
      refine ⟨fun table hmem _ => ?_, fun hnone => ?_⟩
      · cases htable.symm.trans hmem
        exact hagrees _
      · have hnone :
            (schema { loads with state := recorded path loads.state keying load.leaves } path)
            = none := hnone
        rw [hnone] at hsome
        cases hsome
    · rename_i hnone
      have hleft :
          (schema { loads with state := recorded path loads.state keying load.leaves } path)
          = none := by simpa using hnone
      refine ⟨fun table hmem hsome => ?_, fun _ => h.unspanned ?_⟩
      · rw [schema, hmem, Option.bind_some] at hleft
        rw [hleft] at hsome
        cases hsome
      · -- the schema there was would still be there
        rw [schema, table, htable, Option.bind_some] at hleft
        have hkept := (Option.or_eq_none_iff.mp hleft).2
        rw [schema]
        cases htable : loads.table path with
        | none => rfl
        | some table => rwa [htable] at hkept

theorem tables_heldTable (change : TableState → TableState) :
    (state.heldTable path change).tables[path]? = state.tables[path]?.map change := by
  unfold Records.PipelineState.heldTable
  cases htable : state.tables[path]? with
  | none => exact htable
  | some table => simp

theorem Sound.reset {path : TablePath} : (loads.step path .reset).Sound path := by
  have hnone : (loads.step path .reset).schema path = none := by
    rw [schema, table, step]
    simp only [List.foldl_cons, List.foldl_nil, Records.PipelineState.delete, tables_heldTable,
      Option.map_map]
    cases loads.state.tables[path]? <;> rfl
  refine ⟨fun table hmem hsome => ?_, fun _ => rfl⟩
  rw [schema, hmem, Option.bind_some] at hnone
  rw [hnone] at hsome
  cases hsome

theorem Sound.run {path : TablePath} (h : loads.Sound path) (events : List LoadEvent) :
    (loads.run path events).Sound path := by
  refine List.foldlRecOn _ _ h fun loads h event _ => ?_
  cases event with
  | load load => exact h.load load
  | reset => exact Sound.reset

/-- The loads of a table accepted since one first left its schema in state, it included, are
    compatible, each with each after it, however loads and resets follow one another. -/
theorem span_compatible (path : TablePath) (state : Records.PipelineState)
    (hstate : ∀ table ∈ state.tables[path]?, table.schema = none) (events : List LoadEvent) :
    (run path { state } events).span.Pairwise Compatible := by
  have hsound : Sound path { state } := by
    refine ⟨fun table hmem hsome => ?_, fun _ => rfl⟩
    rw [hstate table hmem] at hsome
    cases hsome
  have hrun := hsound.run events
  cases hschema : (run path { state } events).schema path with
  | none =>
    rw [hrun.unspanned hschema]
    exact .nil
  | some held =>
    obtain ⟨table, hmem, htable⟩ := Option.bind_eq_some_iff.mp hschema
    exact (hrun.agrees table hmem (Option.isSome_iff_exists.mpr ⟨held, htable⟩)).compatible

/-- Orders merged by their id as changes and then as the engine sequences them; changes after that
    are refused, until the table is reset. -/
theorem span_compatible_orders : let id : ColumnPath := ⟨["id"], by decide⟩
    let merged (mode : ReadMode) (leaves : Option (SchemaVersion × TableSchema)) : LoadEvent :=
      .load { plan := { name := "orders", mode, write := .merge }, key := [id], changeTime := none,
              lineage := .none, leaves }
    let events := [merged .cdc (some (1, ⟨.nil, by decide, by decide⟩)), merged .incremental none,
      merged .cdc none]
    (run ["orders"] { state := {} } events).span.length = 2 ∧
      (run ["orders"] { state := {} } events).span.Pairwise Compatible :=
  ⟨by decide +kernel, span_compatible _ _ (by decide +kernel) _⟩

end Loads

end Rdlt.Engine
