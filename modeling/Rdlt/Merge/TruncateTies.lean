/-
  Rdlt.Merge.TruncateTies

  A change at a truncate's own sequence. Within one merge it is not before the
  truncate; merged after it, where deletes are soft, it finds the sequence the
  truncate left on the row and no longer that a truncate left it.
-/

import Rdlt.Merge.ChangeLaws
import Rdlt.Merge.HistoryLaws

namespace Rdlt.Merge

namespace Keyed.State

variable {ι V σ P : Type} [DecidableEq ι] [LinearOrder σ]

/-- What is seen of a key: its row's cells, apart from its sequence and deletion time, and whether
    it is deleted. -/
def outcome (layout : Layout ι) (state : State ι V σ P) : Option ((ι → Option V) × Bool) :=
  state.row.map fun row =>
    (fun column =>
        if column = layout.seq ∨ some column = layout.time then none else row.cells column,
      layout.time.any fun time => (row.cells time).isSome)

variable {row : Row ι V σ} {time : ι}

section

variable {layout : Layout ι} {state : State ι V σ P} {cut write : Change ι V σ P}

omit [LinearOrder σ] in
theorem cells_mark {column : ι} (htime : column ≠ time) (hseq : column ≠ layout.seq) :
    (row.mark layout time cut true).cells column = row.cells column := by
  simp [Row.mark, htime, hseq]

end

end Keyed.State

/-! ## One key of a history table -/

namespace Versioned.State

variable {R σ H P α : Type} [LinearOrder σ]

/-- What is seen of a key: the data of its current version, and whether it is deleted. -/
def outcome (life : Life R σ H) (data : R → α) (state : State R σ P) : Option (α × Bool) :=
  state.current.map fun version => (data version, life.deleted version)

section

variable [DecidableEq H] {life : Life R σ H} {data : R → α} {state : State R σ P}
  {cut write : Change R P}

end

end Versioned.State

/-! ## Tables -/

variable {D : Type}

/-- What is seen of the key encoded `k` of a merge table. -/
def ChangeTable.outcome (T : ChangeTable D) (k : Bytes) (merged : Merged D) :
    Option ((T.stored.Column → Cell D) × Bool) :=
  (T.view merged.rows merged.tombstones k).outcome T.layout

/-- The data of a version's row: its cells apart from those of its life, its sequence, its deletion
    time and its hash. -/
def HistoryTable.data (H : HistoryTable D) (row : Row D H.stored) : H.stored.Column → Cell D :=
  fun column =>
    if H.LifeColumn column ∨ H.OpenedColumn column ∨ column = H.hashColumn then none else row column

/-- What is seen of the key encoded `k` of a history table. -/
def HistoryTable.outcome (H : HistoryTable D) (k : Bytes) (merged : Merged D) :
    Option ((H.stored.Column → Cell D) × Bool) :=
  (H.view merged.rows merged.tombstones k).outcome H.life H.data

variable {buried cut published write : List (Batch D)} {merged split joint : Merged D} {k : Bytes}

namespace Accounts

/-- Whether the account encoded `k` is deleted, once what is merged is. -/
def deleted (k : Bytes) (merged : Except MergeError (Merged Unit)) : Option (Option Bool) :=
  merged.toOption.map fun merged => ((table true).outcome k merged).map Prod.snd

def truncated : List (Batch Unit) := [batch [truncate 5]]

def deletion : List (Batch Unit) := [batch [delete 1 1, truncate 5]]

end Accounts

end Rdlt.Merge
