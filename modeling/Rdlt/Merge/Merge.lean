/-
  Rdlt.Merge.Merge

  Merging a merge table's rows by key, for a destination that keeps them as
  batches: for a history table, each row versions its key in sequence order; for
  a change stream's table, each row applies in sequence order as its op says;
  otherwise an incoming row replaces the published row with its key, and among
  incoming rows of one key the greatest sequence wins.
-/

import Rdlt.Merge.History

namespace Rdlt.Merge

variable {D : Type}

/-! ## Upserts -/

/-- The row that wins each key of `incoming`: the first of its greatest sequence. -/
def winners (keys seqs : At → Bytes) (incoming : List At) : Lib.OrdMap Bytes At :=
  incoming.foldl
    (fun winners place =>
      match winners[keys place]? with
      | some best =>
        if seqs place ≤ seqs best then winners else winners.insert (keys place) place
      | none => winners.insert (keys place) place)
    ∅

def At.le (left right : At) : Bool :=
  left.source < right.source ∨ (left.source = right.source ∧ left.row ≤ right.row)

/-- The published rows once `incoming` upserts into `published` by `key`, the greatest sequence
    winning among incoming rows of one key. -/
def upsert (schema : Schema) (published incoming : List (Batch D)) (key : MergeKey)
    (encode : KeyCells D key → Bytes) : Except MergeError (List (Batch D)) := do
  converter schema key
  let sources : Sources D schema := { list := published ++ incoming }
  let keys place := encode (sources.keyCells key place)
  let seqs ← sourceBytes sources key.seq
  let winners := winners keys seqs (places published.length incoming)
  let kept := (places 0 published).filter fun place => !winners.contains (keys place)
  let won := (winners.toList.map Prod.snd).insertionSort fun left right => At.le left right
  pure (assemble sources ((kept ++ won).map fun place => { base := .row place, overlay := [] }))

/-! ## Any merge table -/

/-- The published rows once `incoming` is merged into `published` by `key`, and the tombstones of a
    change stream's table; `encode` is the bytes a key compares by. A batch that may not be merged
    is refused first, so that nothing merges then. -/
def mergeSparse (schema : Schema) (published buried incoming : List (Batch D)) (key : MergeKey)
    (encode : KeyCells D key → Bytes) : Except MergeError (Merged D) := do
  let stored := key.changes.elim schema (stored schema)
  incoming.forM fun batch => admitted batch (some stored) key
  match key.history, key.changes with
  | some history, _ => mergeHistory schema published buried incoming key history encode
  | none, some changes => mergeChanges schema published buried incoming key changes encode
  | none, none => do
      let rows ← upsert schema published incoming key encode
      pure { rows, tombstones := [] }

end Rdlt.Merge
