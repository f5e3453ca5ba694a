/-
  Rdlt.Merge.Written

  What a written batch of a merge table must hold before any of its rows is
  staged or merged.
-/

import Rdlt.Merge.Key

namespace Rdlt.Merge

variable {D : Type}

/-! ## Ops -/

/-- A cell of an op column as an 8-bit integer. -/
def int8Of : Cell D → Except MergeError (Option Int)
  | none => .ok none
  | some (.int n) =>
    if -128 ≤ n ∧ n ≤ 127 then .ok (some n)
    else .error (.refused .opInvalid "a change stream's ops are no bytes")
  | some _ => .error (.refused .opInvalid "a change stream's ops are no bytes")

def opOf : Option Int → Except MergeError ChangeOp
  | none => .error (.refused .opInvalid "None is no change stream's op")
  | some code =>
    match ChangeOp.fromCode code with
    | some op => .ok op
    | none => .error (.refused .opInvalid s!"Some({code}) is no change stream's op")

def ops (batch : Batch D) (changes : ChangeColumns) : Except MergeError (List ChangeOp) := do
  if !batch.hasColumn changes.op then
    throw (.refused .opInvalid s!"the rows have no op column {changes.op}")
  let codes ← (batch.column changes.op).mapM int8Of
  codes.mapM opOf

/-- What the row `row` of `batch` does; an op no change has is read as an insert. -/
def ChangeColumns.opAt (changes : ChangeColumns) (batch : Batch D) (row : Nat) : ChangeOp :=
  match int8Of (batch.cell row changes.op) >>= opOf with
  | .ok op => op
  | .error _ => .insert

/-! ## Unchanged flags -/

def bitmapOf : Cell D → Except MergeError (Option Bytes)
  | none => .ok none
  | some (.bytes b) => .ok (some b)
  | some _ => .error (.refused .flagsInvalid "unchanged flags are no bitmap of bytes")

/-- What a flag on each of a batch's fields is refused as. -/
def flagRefusals (fields : Schema) (stored : Option Schema) (key : MergeKey)
    (changes : ChangeColumns) : List (Option Code) :=
  fields.map fun name =>
    if key.setAlways name then some .flagOnKey
    else if changes.directive name || stored.any (fun stored => !stored.contains name) then
      some .flagOnMissingColumn
    else none

def refusedFlag (refusals : List (Option Code)) (bitmap : Bytes) : Option (Nat × Code) :=
  (UnchangedFlags.ordinalsBelow bitmap refusals.length).findSome? fun field =>
    (refusals[field]?.join).map fun code => (field, code)

/-- Refuses `batch` where a row flags unchanged a field that is its key, its sequence, or no
    column its table stores. -/
def flags (batch : Batch D) (stored : Option Schema) (key : MergeKey) (changes : ChangeColumns) :
    Except MergeError Unit :=
  match changes.unchanged.filter batch.hasColumn with
  | none => pure ()
  | some column => do
      let bitmaps ← (batch.column column).mapM bitmapOf
      let refusals := flagRefusals batch.fields stored key changes
      match bitmaps.reduceOption.findSome? (refusedFlag refusals) with
      | some (field, code) =>
        let name := batch.fields.getD field ""
        throw (.refused code s!"a change flags {name} unchanged")
      | none => pure ()

/-! ## Admission -/

def untimed (batch : Batch D) (time : String) (ops : List ChangeOp) : Bool :=
  ops.zipIdx.any fun (op, row) =>
    (op == .delete || op == .truncate) && (batch.cell row time).isNone

/-- Refuses `batch`, written for a table merged by `key`, whose stored columns are `stored` where
    known, unless every row has a sequence and, for a change stream's, an op, a deletion time where
    a history's deletes are soft, and flags naming stored columns other than the key and the
    sequence. -/
def admitted (batch : Batch D) (stored : Option Schema) (key : MergeKey) :
    Except MergeError Unit := do
  if !batch.hasColumn key.seq then
    throw (.refused .mergeKeyInvalid s!"the rows have no sequence column {key.seq}")
  if (batch.column key.seq).any Option.isNone then
    throw (.refused .sequenceMissing "a row has no sequence")
  -- A child table is keyed by its root's id, the first of its key's columns.
  let keyed := if key.root.isSome then key.columns.take 1 else key.columns
  match keyed.find? fun column => !batch.hasColumn column with
  | some missing => throw (.refused .mergeKeyInvalid s!"the rows have no key column {missing}")
  | none => pure ()
  match key.changes with
  | none => pure ()
  | some changes => do
      let ops ← ops batch changes
      match key.history, changes.deletion with
      | some _, .soft time =>
        if untimed batch time ops then
          throw (.refused .deletionUntimed
            "a delete or a truncate of a history table says no deletion time")
      | _, _ => pure ()
      flags batch stored key changes

end Rdlt.Merge
