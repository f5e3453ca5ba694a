/-
  Rdlt.Engine.FlushLaws

  Staging only a flush's last root rows changes nothing published.
-/

import Rdlt.Engine.FlushRows

namespace Rdlt.Engine.Flush

open Lib

open Merge

variable {D τ : Type} {N : Normalized τ D} (flush : Flush N)

/-! ## The root table -/

theorem ofKey_lowered (k : Bytes) (roots : List ((τ × RootRow D N.root) × Nat)) :
    ofKey N.key N.encode k (roots.map flush.lowered)
      = (roots.filter fun root => N.storedKey root.1.1 root.1.2 = k).map flush.lowered := by
  rw [ofKey, List.filter_map]
  refine congrArg _ (List.filter_congr fun root _ => ?_)
  rw [Function.comp_apply, lowered, keyOf_lowerRoot]
  rfl

theorem latest_lowered (roots : List ((τ × RootRow D N.root) × Nat)) :
    Lib.latest (bytesOf N.key.seq) (roots.map flush.lowered)
      = (Lib.latest (fun root => sequence flush.segment root.2) roots).map flush.lowered := by
  rw [latest_map]
  refine congrArg (fun rank => (Lib.latest rank roots).map flush.lowered) (funext fun root => ?_)
  rw [Function.comp_apply, lowered, bytesOf_seq_lowerRoot]

theorem readBack_append {schema : Schema} (published incoming : List (Batch D)) :
    readBack schema (published ++ incoming)
      = readBack schema published ++ readBack schema incoming :=
  List.flatMap_append

section

variable [LinearOrder τ] (compares : Bool) (waits : Nat → Bool)

theorem latest_ofKey_stagedRoots (k : Bytes) : Lib.latest (bytesOf N.key.seq)
        (ofKey N.key N.encode k (readBack N.root (flush.stagedRoots compares waits)))
      = Lib.latest (bytesOf N.key.seq)
          (ofKey N.key N.encode k (readBack N.root flush.everyRoot)) := by
  rw [readBack_stagedRoots, readBack_everyRoot, ofKey_lowered, ofKey_lowered, latest_lowered,
    latest_lowered, flush.latest_kept compares waits]
  intro root later hlater hroot
  rw [decide_eq_true_iff] at hroot ⊢
  exact hlater.2.2.1.trans hroot

theorem upsert_stagedRoots (published : List (Batch D)) :
    Lib.Agree (fun every staged => (readBack N.root staged).Perm (readBack N.root every))
      (upsert N.root published flush.everyRoot N.key N.encode)
      (upsert N.root published (flush.stagedRoots compares waits) N.key N.encode) := by
  refine agree_of ?_ fun every staged hevery hstaged => ?_
  · obtain ⟨column, hcolumn⟩ := Schema.exists_indexOf? N.rootHolds.1
    have hrows : ∀ (roots : List ((τ × RootRow D N.root) × Nat)),
        ∀ row ∈ roots.map flush.lowered, Compares (row column) := by
      refine fun roots => List.forall_mem_map.mpr fun root _ => ?_
      rw [lowered, lowerRoot_seq _ _ _ hcolumn]
      exact ⟨_, rfl⟩
    rw [exists_upsert_iff hcolumn, exists_upsert_iff hcolumn, readBack_append, readBack_append,
      readBack_everyRoot, readBack_stagedRoots, List.forall_mem_append, List.forall_mem_append,
      and_iff_left (hrows _), and_iff_left (hrows _)]
  · refine perm_of_forall_filter_perm (fun row => N.encode (keyOf N.key row)) fun k => ?_
    have hkey := ofKey_upsert N.rootNamed hevery k
    have hkey' := ofKey_upsert N.rootNamed hstaged k
    rw [upserted, latest_ofKey_stagedRoots, ← upserted] at hkey'
    exact hkey'.trans hkey.symm

end

/-! ## The roots' winning sequences -/

theorem rootRows_of_readBack {batches : List (Batch D)}
    {roots : List ((τ × RootRow D N.root) × Nat)}
    (h : readBack N.root batches = roots.map flush.lowered) :
    rootRows N.rootKey batches = roots.map fun root =>
      (N.rootId root.1.1 root.1.2.key, sequence flush.segment root.2) := by
  have hseq : N.rootKey.seq ∈ N.root := by
    rw [N.rootSeq]
    exact N.rootHolds.1
  rw [rootRows_eq_map_readBack N.rootHolds.2.1 hseq, h, List.map_map]
  refine List.map_congr_left fun root _ => ?_
  rw [Function.comp_apply, lowered, bytesOf_id_lowerRoot, N.rootSeq, bytesOf_seq_lowerRoot]

theorem winningSeq_roots (roots : List ((τ × RootRow D N.root) × Nat)) (id : Bytes) :
    winningSeq (roots.map fun root =>
        (N.rootId root.1.1 root.1.2.key, sequence flush.segment root.2)) id
      = (Lib.latest (fun root => sequence flush.segment root.2)
          (roots.filter fun root => N.rootId root.1.1 root.1.2.key = id)).map
            fun root => sequence flush.segment root.2 := by
  rw [winningSeq, List.filter_map, latest_map, Option.map_map]
  rfl

theorem winningSeq_ne_of_supersedes {types : τ} {key : Bytes} {position : Nat}
    {later : (τ × RootRow D N.root) × Nat} (h : flush.Supersedes types key position later) :
    winningSeq (rootRows N.rootKey flush.everyRoot) (N.rootId types key)
      ≠ some (sequence flush.segment position) := by
  obtain ⟨hlater, hlt, -, hid⟩ := h
  rw [flush.rootRows_of_readBack flush.readBack_everyRoot, winningSeq_roots]
  intro hwinner
  obtain ⟨winner, hwinner, hseq⟩ := Option.map_eq_some_iff.mp hwinner
  have hle := le_of_latest hwinner (List.mem_filter.mpr ⟨hlater, decide_eq_true_iff.mpr hid⟩)
  have hlt' : sequence flush.segment position < sequence flush.segment later.2 :=
    flush.sequence_lt_of_placed hlater hlt
  rw [hseq] at hle
  exact absurd hle (not_le.mpr hlt')

theorem compares_lowerChildren (piece : Piece N) (first : Nat) (part : List (Row D N.child × Nat))
    {owner seq : N.child.Column} (howner : N.child.indexOf? N.owner = some owner)
    (hseq : N.child.indexOf? N.childKey.seq = some seq) :
    ∀ row ∈ flush.lowerChildren piece first part, Compares (row owner) ∧ Compares (row seq) := by
  refine List.forall_mem_map.mpr fun row _ => ?_
  rw [lowerChild_owner _ _ _ howner, lowerChild_seq _ _ _ hseq]
  exact ⟨⟨_, rfl⟩, _, rfl⟩

/-- Whether a child table's merge reads a batch of the flush's root rows, its columns say alone. -/
theorem readable_prepared (types : Schema → String → ColumnType) (childType : String → ColumnType)
    (piece : Piece N) (first : Nat) (part : List (RootRow D N.root × Nat)) :
    Readable (fun batch => types batch.fields) childType N.child N.childKey N.rootKey N.owner
        (prepared (flush.lowerRoots piece first part))
      ↔ Readable (fun batch => types batch.fields) childType N.child N.childKey N.rootKey N.owner
          (prepared ([] : List (Row D N.root))) := by
  obtain ⟨seq, hseq⟩ := Schema.exists_indexOf? N.rootHolds.1
  obtain ⟨id, hid⟩ := Schema.exists_indexOf? N.rootHolds.2.1
  have hbinary : ∀ rows : List (Row D N.root),
      (∀ row ∈ rows, Compares (row id) ∧ Compares (row seq)) →
        (∃ ids, binary (prepared rows) N.rootKey.id = .ok ids) ∧
          ∃ seqs, binary (prepared rows) N.rootKey.seq = .ok seqs := by
    intro rows hrows
    rw [exists_binary_iff, exists_binary_iff, fields_prepared, N.rootSeq,
      column_prepared N.rootNamed rows hid, column_prepared N.rootNamed rows hseq]
    exact ⟨⟨N.rootHolds.2.1, List.forall_mem_map.mpr fun row hrow => (hrows row hrow).1⟩,
      N.rootHolds.1, List.forall_mem_map.mpr fun row hrow => (hrows row hrow).2⟩
  have hlowered : ∀ row ∈ flush.lowerRoots piece first part,
      Compares (row id) ∧ Compares (row seq) := by
    refine List.forall_mem_map.mpr fun row _ => ?_
    rw [lowerRoot_id _ _ _ hid, lowerRoot_seq _ _ _ hseq]
    exact ⟨⟨_, rfl⟩, _, rfl⟩
  simp only [Readable, alike, Batch.hasColumn, fields_prepared]
  rw [and_iff_left (hbinary _ hlowered), and_iff_left (hbinary [] fun _ hrow => by cases hrow)]

variable [LinearOrder τ] (compares : Bool) (waits : Nat → Bool)
  (types : Schema → String → ColumnType) (childType : String → ColumnType)

theorem winningSeq_stagedRoots (id : Bytes) :
    winningSeq (rootRows N.rootKey (flush.stagedRoots compares waits)) id
      = winningSeq (rootRows N.rootKey flush.everyRoot) id := by
  rw [flush.rootRows_of_readBack (flush.readBack_stagedRoots compares waits),
    flush.rootRows_of_readBack flush.readBack_everyRoot, winningSeq_roots, winningSeq_roots,
    flush.latest_kept compares waits]
  intro root later hlater hroot
  rw [decide_eq_true_iff] at hroot ⊢
  exact hlater.2.2.2.trans hroot

/-! ## The child table -/

theorem readBack_everyChild : readBack N.child flush.everyChild
      = ((Engine.stamped flush.firstRow flush.pieces).zip (flush.stagings compares waits)).flatMap
          fun staging => staging.1.1.children.flatMap
            (flush.lowerChildren staging.1.1 staging.1.2) := by
  rw [everyChild, readBack_prepared N.childNamed]
  conv_lhs => rw [← List.map_fst_zip (flush.length_stamped_le compares waits), List.flatMap_map]

theorem readBack_stagedChildren : readBack N.child (flush.stagedChildren compares waits)
      = ((Engine.stamped flush.firstRow flush.pieces).zip (flush.stagings compares waits)).flatMap
          fun staging => staging.1.1.children.flatMap fun part =>
            flush.lowerChildren staging.1.1 staging.1.2
              (merged false (fun _ => []) staging.2 part) := by
  rw [stagedChildren, readBack_prepared N.childNamed]

def wins (row : Row D N.child) : Bool :=
  winningSeq (rootRows N.rootKey flush.everyRoot) (bytesOf N.owner row)
    == some (bytesOf N.childKey.seq row)

theorem filter_wins_stagedChildren :
    (readBack N.child (flush.stagedChildren compares waits)).filter flush.wins
      = (readBack N.child flush.everyChild).filter flush.wins := by
  rw [readBack_stagedChildren, flush.readBack_everyChild compares waits, List.filter_flatMap,
    List.filter_flatMap]
  refine List.flatMap_congr fun ⟨stamped, staging⟩ htakes => ?_
  rw [List.filter_flatMap, List.filter_flatMap]
  refine List.flatMap_congr fun part hpart => ?_
  cases staging with
  | none => rfl
  | some set =>
    have htakes : flush.Takes compares waits stamped (some set) := htakes
    rw [lowerChildren, lowerChildren, List.filter_map, List.filter_map, merged, List.filter_filter]
    refine congrArg _ (List.filter_congr fun row hrow => ?_)
    by_cases hset : set[row.2]? = some true
    · simp [hset]
    · -- its root row is left out, so it is not of a winning row
      have hbound : row.2 < stamped.1.rows.length := stamped.1.descends part hpart row hrow
      have hheld : stamped.1.rows[row.2]? = some (stamped.1.rows.get ⟨row.2, hbound⟩) :=
        List.getElem?_eq_getElem hbound
      obtain ⟨later, hlater⟩ := htakes.superseded_of_unset hheld hset
      have hne := flush.winningSeq_ne_of_supersedes hlater
      have hlost : flush.wins (N.lowerChild (stamped.1.idAt row.2)
          (sequence flush.segment (stamped.2 + row.2)) row.1) = false := by
        rw [wins, bytesOf_owner_lowerChild, bytesOf_seq_lowerChild, Piece.idAt, hheld]
        exact beq_eq_false_iff_ne.mpr hne
      rw [Function.comp_apply, hlost, Bool.false_and]

theorem readable_stagedRoots : (∀ batch ∈ flush.everyRoot,
        Readable (fun batch => types batch.fields) childType N.child N.childKey N.rootKey N.owner
          batch)
      ↔ ∀ batch ∈ flush.stagedRoots compares waits,
          Readable (fun batch => types batch.fields) childType N.child N.childKey N.rootKey
            N.owner batch := by
  rw [everyRoot, ← List.map_fst_zip (flush.length_stamped_le compares waits), List.flatMap_map,
    stagedRoots]
  simp only [List.forall_mem_flatMap, List.forall_mem_map, readable_prepared]

/-- Merging the child rows a flush stages after the roots it stages publishes what merging every
    child row of it after every root does. -/
theorem mergeChildren_stagedChildren (published : List (Batch D)) :
    Lib.Agree (fun every staged => (readBack N.child staged).Perm (readBack N.child every))
      (mergeChildrenSparse (fun batch => types batch.fields) childType N.child published
        flush.everyChild N.childKey N.rootKey flush.everyRoot)
      (mergeChildrenSparse (fun batch => types batch.fields) childType N.child published
        (flush.stagedChildren compares waits) N.childKey N.rootKey
        (flush.stagedRoots compares waits)) := by
  refine agree_of ?_ fun every staged hevery hstaged => ?_
  · obtain ⟨owner, howner⟩ := Schema.exists_indexOf? N.childHolds.1
    obtain ⟨seq, hseq⟩ := Schema.exists_indexOf? N.childHolds.2.1
    have hevery : ∀ row ∈ readBack N.child flush.everyChild,
        Compares (row owner) ∧ Compares (row seq) := by
      simp only [flush.readBack_everyChild compares waits, List.forall_mem_flatMap]
      exact fun _ _ _ _ => flush.compares_lowerChildren _ _ _ howner hseq
    have hstaged : ∀ row ∈ readBack N.child (flush.stagedChildren compares waits),
        Compares (row owner) ∧ Compares (row seq) := by
      simp only [readBack_stagedChildren, List.forall_mem_flatMap]
      exact fun _ _ _ _ => flush.compares_lowerChildren _ _ _ howner hseq
    rw [exists_mergeChildrenSparse_iff N.childOwner howner hseq,
      exists_mergeChildrenSparse_iff N.childOwner howner hseq,
      ← flush.readable_stagedRoots compares waits, readBack_append, readBack_append,
      List.forall_mem_append, List.forall_mem_append, and_iff_left hevery, and_iff_left hstaged]
  · have hreads := readBack_mergeChildrenSparse N.childNamed N.childOwner hevery
    have hreads' := readBack_mergeChildrenSparse N.childNamed N.childOwner hstaged
    simp only [winningSeq_stagedRoots] at hreads'
    have hsame := flush.filter_wins_stagedChildren compares waits
    unfold wins at hsame
    rw [hsame] at hreads'
    exact hreads'.trans hreads.symm

/-- Merging the rows a flush stages, root and child tables alike, into any published tables gives
    the same published rows as merging every row of the flush. -/
theorem staged_publishes_every_row (types : Schema → String → ColumnType)
    (childType : String → ColumnType) (roots children : List (Batch D)) :
    Lib.Agree (fun every staged => (readBack N.root staged).Perm (readBack N.root every))
        (upsert N.root roots flush.everyRoot N.key N.encode)
        (upsert N.root roots (flush.stagedRoots compares waits) N.key N.encode) ∧
      Lib.Agree (fun every staged => (readBack N.child staged).Perm (readBack N.child every))
        (mergeChildrenSparse (fun batch => types batch.fields) childType N.child children
          flush.everyChild N.childKey N.rootKey flush.everyRoot)
        (mergeChildrenSparse (fun batch => types batch.fields) childType N.child children
          (flush.stagedChildren compares waits) N.childKey N.rootKey
          (flush.stagedRoots compares waits)) :=
  ⟨flush.upsert_stagedRoots compares waits roots,
    flush.mergeChildren_stagedChildren compares waits types childType children⟩

/-! ## A flush of orders -/

namespace Orders

/-- Orders by number, each with its items; numbers arrive as integers, type 0, or as text, type 1,
    and an order's id tells which. -/
def tables : Normalized Nat Empty where
  root := ["id", "number", "seq"]
  key := { columns := ["number"], seq := "seq", root := none, changes := none, history := none }
  child := ["order", "item", "seq"]
  childKey := { columns := ["order", "item"], seq := "seq"
                root := some { table := "orders", id := "id", seq := "seq" }
                changes := none, history := none }
  rootKey := { table := "orders", id := "id", seq := "seq" }
  owner := "order"
  stored := fun _ key _ => some (.bytes key)
  encode := fun cells => comparedBytes (cells ⟨0, by decide⟩)
  idOf := fun types key => Fin.ofNat 256 types :: key
  rootNamed := by decide
  childNamed := by decide
  rootSeq := rfl
  rootHolds := by decide
  keyNamed := by decide
  keyApart := by decide
  childOwner := rfl
  childHolds := by decide

def order (number : Byte) : RootRow Empty tables.root := { key := [number], row := fun _ => none }

def item (number : Byte) : Row Empty tables.child := fun _ => some (.bytes [number])

/-- Orders 1, 2 and 1 again, with an item each. -/
def first : Piece tables where
  types := 0
  batches := [[order 1, order 2], [order 1]]
  roots := [[(order 1, 0), (order 2, 1)], [(order 1, 2)]]
  children := [[(item 1, 0), (item 2, 1), (item 3, 2)]]
  cut := rfl
  descends := by decide

/-- Order 1 once more, as text, and order 2 as text twice. -/
def second : Piece tables where
  types := 1
  batches := [[order 1, order 2, order 2]]
  roots := [[(order 1, 0), (order 2, 1), (order 2, 2)]]
  children := [[(item 4, 0), (item 5, 1), (item 6, 2)]]
  cut := rfl
  descends := by decide

def received : Flush tables where
  segment := 7
  firstRow := 300
  pieces := [first, second]
  fits := by decide

end Orders

/-- Of six orders the flush stages four, the second piece having waited for its room, and publishes
    what all six do. -/
theorem staged_publishes_orders : (readBack Orders.tables.root
        (Orders.received.stagedRoots true fun piece => piece == 1)).length = 4 ∧
      (readBack Orders.tables.child
        (Orders.received.stagedChildren true fun piece => piece == 1)).length = 5 ∧
      Lib.Agree (fun every staged => (readBack Orders.tables.root staged).Perm
          (readBack Orders.tables.root every))
        (upsert Orders.tables.root [] Orders.received.everyRoot Orders.tables.key
          Orders.tables.encode)
        (upsert Orders.tables.root []
          (Orders.received.stagedRoots true fun piece => piece == 1) Orders.tables.key
          Orders.tables.encode) :=
  ⟨by decide +kernel, by decide +kernel, (Orders.received.staged_publishes_every_row true
    (fun piece => piece == 1) (fun _ name => { name, numbered := false })
    (fun name => { name, numbered := false }) [] []).1⟩

end Rdlt.Engine.Flush
