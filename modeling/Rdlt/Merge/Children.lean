/-
  Rdlt.Merge.Children

  Merging a child table's rows. A child table follows its root: where a commit
  publishes root rows, the rows of those roots go, and of the child rows the
  commit staged, those of each root's winning row, by root id and sequence, are
  added.
-/

import Rdlt.Merge.Merge

namespace Rdlt.Merge

variable {D : Type}

/-! ## Ids and sequences of roots -/

/-- A column's type, as far as a merge reads it: its name, and whether its values compare as
    numbers. -/
structure ColumnType where
  name : String
  numbered : Bool
  deriving DecidableEq, Repr

def keyless : MergeError := unkeyed "the table is merged by a key of no column"

/-- Refuses a root's column `ofRoot` of `roots` and its children's `ofChildren` of `schema` where
    one compares as a number and the other as bytes, so that every child would be taken for that of
    a root not published. -/
def alike (roots : Batch D) (rootType : String → ColumnType) (ofRoot : String) (schema : Schema)
    (childType : String → ColumnType) (ofChildren : String) : Except MergeError Unit :=
  -- A column that is missing is refused where it is read.
  if !roots.hasColumn ofRoot || !schema.contains ofChildren then .ok ()
  else if (rootType ofRoot).numbered = (childType ofChildren).numbered then .ok ()
  else
    let root := (rootType ofRoot).name
    let child := (childType ofChildren).name
    .error (unkeyed s!"the roots' {ofRoot} is {root} and their children's {ofChildren} is {child}")

/-- The column `name` of `batch` as the bytes an id or a sequence compares by. -/
def binary (batch : Batch D) (name : String) : Except MergeError (List Bytes) := do
  if !batch.hasColumn name then
    throw (unkeyed s!"the rows have no column {name}")
  (batch.column name).mapM compared

/-- The greatest sequence of each root once the roots `ids` are published at `seqs`. -/
def rootWinners (winners : Lib.OrdMap Bytes Bytes) (ids seqs : List Bytes) :
    Lib.OrdMap Bytes Bytes :=
  (ids.zip seqs).foldl
    (fun winners root => winners.insert root.1 (max (winners.getD root.1 []) root.2)) winners

/-! ## Child rows -/

/-- The published rows of a child table once the roots `roots` publish replace their children:
    published rows of those roots go, and of `incoming`, the rows of each root's winning row, by
    root id and sequence, are added. -/
def mergeChildrenSparse (rootType : Batch D → String → ColumnType)
    (childType : String → ColumnType) (schema : Schema) (published incoming : List (Batch D))
    (key : MergeKey) (root : RootKey) (roots : List (Batch D)) :
    Except MergeError (List (Batch D)) :=
  match key.columns.head? with
  | none => .error keyless
  | some column => do
      let winners ← roots.foldlM
        (fun winners batch => do
          alike batch (rootType batch) root.id schema childType column
          alike batch (rootType batch) root.seq schema childType key.seq
          let ids ← binary batch root.id
          let seqs ← binary batch root.seq
          pure (rootWinners winners ids seqs))
        ∅
      let sources : Sources D schema := { list := published ++ incoming }
      let owners ← sourceBytes sources column
      let seqs ← sourceBytes sources key.seq
      -- A published row stays unless its root is published again; an incoming row is added where
      -- it is of its root's winning row.
      let stays place :=
        if place.source < published.length then (winners[owners place]?).isNone
        else winners[owners place]? == some (seqs place)
      pure (assemble sources (((places 0 sources.list).filter stays).map fun place =>
        { base := .row place, overlay := [] }))

end Rdlt.Merge
