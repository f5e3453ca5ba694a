/-
  Rdlt.Merge.History

  Merging a history table's rows: each key keeps every version, and a change
  closes its key's current version where the change begins, or leaves it as it
  is.
-/

import Rdlt.Merge.History.Versions
import Rdlt.Merge.Changes

namespace Rdlt.Merge

variable {D : Type} {schema : Schema} {key : MergeKey}

/-! ## The table -/

/-- A history table while its changes apply: its versions, each key's, and the truncates applied so
    far, in sequence order, which a key meets when it is next touched. -/
structure History where
  list : List History.Version
  keys : Lib.OrdMap Bytes History.Key
  truncates : List At

namespace History

def keep (table : History) (rowKey : Bytes) (versions : Versions) : History :=
  { table with list := versions.list, keys := table.keys.insert rowKey versions.key }

/-- Adds the published version at `place`, of `rowKey`, which is its key's current one or not. -/
def hold (guards : Guards) (table : History) (rowKey : Bytes) (place : At) (current : Bool) :
    History :=
  let index := table.list.length
  let began := guards.begins place
  let ended := guards.ends place
  let list := table.list ++
    [{ data := place, opened := place, began, ended, current, touched := false }]
  let latest := ended.elim began fun ended => max ended began
  match table.keys[rowKey]? with
  | some state =>
    let state :=
      { state with
        newest := if guards.seq state.newest < guards.seq place then place else state.newest
        current := if current then some index else state.current
        floor := some (state.floor.elim latest fun floor => max floor latest) }
    { table with list, keys := table.keys.insert rowKey state }
  | none =>
    let state : Key :=
      { newest := place, current := if current then some index else none, floor := some latest
        met := 0, truncated := false }
    { table with list, keys := table.keys.insert rowKey state }

/-- The versions the rows `published` hold, keyed by `keys`, those `flags` says current. -/
def load (guards : Guards) (published : List At) (keys : At → Bytes) (flags : At → Bool) :
    History :=
  published.foldl (fun table place => table.hold guards (keys place) place (flags place))
    { list := [], keys := ∅, truncates := [] }

section

variable (guards : Guards) (table : History)

/-- Whether a change of `rowKey` at `place` is sequenced past the key's newest version, once the key
    has met the truncates so far. -/
def past (rowKey : Bytes) (place : At) : History × Bool :=
  match table.keys[rowKey]? with
  | none => (table, true)
  | some state =>
    let versions := meet guards table.truncates { list := table.list, key := state }
    (table.keep rowKey versions,
      pastNewest (guards.seq versions.key.newest) (guards.seq place) versions.key.truncated)

def upsert (guards : Guards) (table : History) (rowKey : Bytes) (place : At) : History :=
  match table.keys[rowKey]? with
  | some state =>
    let versions := meet guards table.truncates { list := table.list, key := state }
    let versions := versions.upsert guards place
    table.keep rowKey { versions with key := { versions.key with truncated := false } }
  | none =>
    let state : Key :=
      { newest := place, current := none, floor := none, met := table.truncates.length
        truncated := false }
    table.keep rowKey (Versions.upsert guards { list := table.list, key := state } place)

def delete (rowKey : Bytes) (place : At) : History :=
  match table.keys[rowKey]? with
  | some state =>
    let versions := meet guards table.truncates { list := table.list, key := state }
    let versions := versions.remove guards place
    table.keep rowKey { versions with key := { versions.key with truncated := false } }
  | none => table

/-- Records the truncate at `place`, which does to every current version sequenced before it what a
    delete does, when its key next meets the table's truncates. -/
def truncate (place : At) : History :=
  { table with truncates := table.truncates ++ [place] }

/-- The table's versions once every key has met every truncate. -/
def finish : List Version :=
  table.keys.toList.foldl
    (fun list entry => (meet guards table.truncates { list, key := entry.2 }).list) table.list

end

end History

/-! ## What a merge reads -/

/-- The column a change stream whose deletes are soft records deletion times in. -/
def deletedAt (key : MergeKey) : Option String :=
  match key.changes.map ChangeColumns.deletion with
  | some (.soft time) => some time
  | _ => none

/-- An instant a cell counts. -/
def countedAs : Cell D → Except MergeError (Option Int)
  | none => .ok none
  | some (.int n) =>
    if History.minInstant ≤ n ∧ n < 2 ^ 63 then .ok (some n)
    else .error (.cast "Int64 is no count of Int64's units")
  | some value => .error (.cast s!"{value.kind} is no count of Int64's units")

def flagOf : Cell D → Except MergeError (Option Bool)
  | none => .ok none
  | some (.bool b) => .ok (some b)
  | some value =>
    .error (.refused .typeUnconvertible
      s!"no conversion from {value.kind} to Boolean keeps every value")

def readAs {α : Type} (read : Cell D → Except MergeError (Option α)) (cell : Cell D) : Option α :=
  match read cell with
  | .ok value => value
  | .error _ => none

def sourceValues {α : Type} (sources : Sources D schema) (rows : List At) (name : String)
    (read : Cell D → Except MergeError (Option α)) : Except MergeError (At → Option α) := do
  let column ← indexOf schema name
  rows.forM fun place => do
    let _ ← read (sources.cell place column)
  pure fun place => readAs read (sources.cell place column)

/-- The bytes the column `name` of each source compares by; none where it is null. -/
def sourceHashes (sources : Sources D schema) (name : String) :
    Except MergeError (At → Option Bytes) := do
  let bytes ← sourceBytes sources name
  pure fun place =>
    if (schema.indexOf? name).any fun column => !sources.isNull place column then
      some (bytes place)
    else none

/-- The sequences, hashes, validity and, where deletes are soft, deletion times of the sources. -/
def guards (sources : Sources D schema) (key : MergeKey) (history : HistoryColumns) :
    Except MergeError History.Guards := do
  let times ←
    match deletedAt key with
    | some time => do
        let column ← indexOf schema time
        pure (some fun place => !sources.isNull place column)
    | none => pure none
  let rows := places 0 sources.list
  let seqs ← sourceBytes sources key.seq
  let hashes ← sourceHashes sources history.rowHash
  let begins ← sourceValues sources rows history.validFrom countedAs
  let ends ← sourceValues sources rows history.validTo countedAs
  pure
    { seq := seqs
      hash := hashes
      begins := fun place => (begins place).getD History.minInstant
      ends
      times }

/-! ## The changes -/

/-- What each row of `raw` does: a change stream's names it, and every other row is an upsert. -/
def rowOps (raw : Batch D) (key : MergeKey) : Except MergeError (List ChangeOp) :=
  match key.changes with
  | some changes => ops raw changes
  | none => pure (List.replicate raw.numRows .update)

/-- Every row of `incoming`, the sources from `first` on, in sequence order, with its op. A truncate
    applies before the other rows of its sequence. -/
def historyChanges (incoming : List (Batch D)) (first : Nat) (key : MergeKey)
    (guards : History.Guards) : Except MergeError (List Change) := do
  let rows ← (incoming.zipIdx first).mapM fun (raw, source) => do
    let ops ← rowOps raw key
    pure (ops.zipIdx.map fun (op, row) =>
      { place := ⟨source, row⟩, op, seq := guards.seq ⟨source, row⟩ : Change })
  pure (rows.flatten.insertionSort fun left right => appliesBefore left right)

/-- Applies `change` to the table and its tombstones, where it is sequenced past its key's newest
    version, tombstone and the bound, or `guarded` says no change stream's, which guards nothing. -/
def applyHistory (guards : History.Guards) (keys : At → Bytes) (guarded : Bool)
    (state : History × Tombstones D key) (change : Change) : History × Tombstones D key :=
  let (table, tombstones) := state
  let hard := guards.times.isNone
  if change.op = .truncate then
    if tombstones.admits none change.seq then
      (table.truncate change.place, if hard then tombstones.raise change.seq else tombstones)
    else state
  else
    let rowKey := keys change.place
    let (table, applies) :=
      if guarded then
        if tombstones.admits (some rowKey) change.seq then table.past guards rowKey change.place
        else (table, false)
      else (table, true)
    if !applies then (table, tombstones)
    else if change.op = .delete then
      (table.delete guards rowKey change.place,
        if hard then tombstones.bury rowKey change.seq change.place else tombstones)
    else (table.upsert guards rowKey change.place, tombstones.lift rowKey)

/-! ## Assembling -/

/-- A source holding the validity of each version the merge touched, in order. -/
def decided (versions : List History.Version) (history : HistoryColumns) : Batch D where
  fields := [history.validFrom, history.validTo]
  rows := (versions.filter History.Version.touched).map fun version =>
    [some (.int version.began), version.ended.map .int]
  shaped := by
    intro row hrow
    obtain ⟨version, -, rfl⟩ := List.mem_map.mp hrow
    rfl

/-- A source holding both flags. -/
def flagBatch (history : HistoryColumns) : Batch D where
  fields := [history.isCurrent]
  rows := [[some (.bool false)], [some (.bool true)]]
  shaped := by simp

/-- The columns a history table records a version's life in, and those its opening row gives. -/
structure LifeColumns (schema : Schema) where
  validFrom : schema.Column
  validTo : schema.Column
  isCurrent : schema.Column
  opened : List schema.Column

def lifeColumns (schema : Schema) (key : MergeKey) (history : HistoryColumns) :
    Except MergeError (LifeColumns schema) := do
  let validFrom ← indexOf schema history.validFrom
  let validTo ← indexOf schema history.validTo
  let isCurrent ← indexOf schema history.isCurrent
  let seq ← indexOf schema key.seq
  let opened ←
    match deletedAt key with
    | some time => do
        let column ← indexOf schema time
        pure [seq, column]
    | none => pure [seq]
  pure { validFrom, validTo, isCurrent, opened }

/-- The columns of a version set apart from its data's: none of a version the merge left; of
    another, those its opening row gives, its validity, at `placed` of `validity`, and its flag. -/
def versionOver (columns : LifeColumns schema) (validity flag placed : Nat)
    (version : History.Version) : List (schema.Column × Option At) :=
  if !version.touched then []
  else
    let decided : At := ⟨validity, placed⟩
    let overlay := columns.opened.map (fun column => (column, some version.opened)) ++
      [(columns.validFrom, some decided), (columns.validTo, version.ended.map fun _ => decided),
        (columns.isCurrent, some ⟨flag, if version.current then 1 else 0⟩)]
    overlay.insertionSort fun left right => left.1 ≤ right.1

/-- Where the cells of `versions` come from, the first of those touched being the row `placed` of
    the source `validity`. -/
def versionPicks (columns : LifeColumns schema) (validity flag : Nat) :
    Nat → List History.Version → List (Pick schema)
  | _, [] => []
  | placed, version :: versions =>
    { base := .row version.data, overlay := versionOver columns validity flag placed version } ::
      versionPicks columns validity flag (if version.touched then placed + 1 else placed) versions

/-- The versions as batches of the columns they hold: a version the merge left is its published row
    whole; of another, each column is of the row its value comes from, its validity and flag as the
    merge decided them. -/
def assembleVersions (sources : Sources D schema) (versions : List History.Version)
    (columns : LifeColumns schema) (history : HistoryColumns) : List (Batch D) :=
  let validity := sources.list.length
  let sources : Sources D schema :=
    { list := sources.list ++ [decided versions history, flagBatch history] }
  assemble sources (versionPicks columns validity (validity + 1) 0 versions)

/-! ## The merge -/

/-- The published versions of a history table, and its tombstones, once `incoming` applies, row by
    row in sequence order, to `published` and, for a change stream's, `buried`; `encode` is the
    bytes a key compares by. -/
def mergeHistory (schema : Schema) (published buried incoming : List (Batch D)) (key : MergeKey)
    (history : HistoryColumns) (encode : KeyCells D key → Bytes) :
    Except MergeError (Merged D) := do
  let schema := key.changes.elim schema (stored schema)
  converter schema key
  let sources : Sources D schema := { list := published ++ incoming }
  let held := published.length
  let keys place := encode (sources.keyCells key place)
  let guards ← guards sources key history
  let rows := places 0 published
  let flags ← sourceValues sources rows history.isCurrent flagOf
  let table := History.load guards rows keys fun place => (flags place).getD false
  let tombstones ← Tombstones.load encode (if key.changes.isSome then buried else [])
  let changes ← historyChanges incoming held key guards
  let (table, tombstones) :=
    changes.foldl (applyHistory guards keys key.changes.isSome) (table, tombstones)
  let columns ← lifeColumns schema key history
  pure
    { rows := assembleVersions sources (table.finish guards) columns history
      tombstones := tombstones.assemble (sources.keyCells key) }

end Rdlt.Merge
