/-
  Rdlt.Merge.HistoryLaws

  The laws of a history table as merges of batches keep them: each key's
  versions live one after another whatever instants changes say, and a change
  stream's history depends neither on where commits fall nor on replays.
-/

import Rdlt.Merge.ChangeTable
import Rdlt.Merge.Refine.HistoryMerge

namespace Rdlt.Merge

open Lib

variable {D : Type}

/-! ## A history of accounts -/

namespace Ledger

def history : HistoryColumns where
  validFrom := "from"
  validTo := "to"
  isCurrent := "current"
  rowHash := "hash"

def key (soft : Bool) : MergeKey :=
  { Accounts.key soft with history := some history }

/-- The history of accounts, each a number and a balance, whose deletes are soft or hard. -/
def table (soft : Bool) : HistoryTable Unit where
  schema := ["id", "balance", "seq", "deleted", "from", "to", "current", "hash", "op", "unchanged"]
  key := key soft
  history := history
  encode := Accounts.encode
  kept := rfl
  nodup := by decide
  keyed := by cases soft <;> decide
  distinct := by cases soft <;> decide
  named := by cases soft <;> decide
  timed := by
    cases soft
    · rintro time ⟨⟩
    · rintro time ⟨⟩
      decide

/-- A batch of changes of accounts, each with when it says it begins. -/
def batch (rows : List (Accounts.Written × Int)) : Batch Unit where
  fields := ["id", "balance", "seq", "deleted", "op", "unchanged", "from", "hash"]
  rows := rows.map fun entry =>
    entry.1.row ++ [some (.int entry.2), entry.1.balance.map .int]
  shaped := by
    intro row hrow
    obtain ⟨entry, -, rfl⟩ := List.mem_map.mp hrow
    rfl

/-- Accounts that say they begin before others ended. -/
def backdated : List (Batch Unit) :=
  [batch [(Accounts.insert 1 10 1, 7), (Accounts.insert 1 20 2, 3), (Accounts.delete 1 4, 5),
    (Accounts.truncate 6, 1)]]

def opened : List (Batch Unit) := [batch [(Accounts.insert 1 10 1, 7), (Accounts.truncate 2, 3)]]

def reopened : List (Batch Unit) := [batch [(Accounts.insert 1 20 3, 5)]]

def replayed : List (Batch Unit) := [batch [(Accounts.truncate 2, 3)]]

end Ledger

variable {again first later : List (Batch D)}

namespace HistoryTable

variable {H : HistoryTable D} {published buried incoming : List (Batch D)} {merged : Merged D}

/-! ## Lives -/

/-- A key's versions live one after another: their intervals do not overlap, none ends before it
    begins, at most one is flagged current, which has no end and begins no earlier than any other
    begins or ends, and every other has an end. -/
structure LivesOf (H : HistoryTable D) (rows : List (Row D H.stored)) : Prop where
  apart : rows.Pairwise fun left right => Disjoint (H.life.interval left) (H.life.interval right)
  ordered : ∀ row ∈ rows, ∀ ended ∈ H.life.ends row, H.life.begins row ≤ ended
  single : (rows.filter H.flagged).length ≤ 1
  unended : ∀ row ∈ rows, H.flagged row → H.life.ends row = none
  last : ∀ row ∈ rows, H.flagged row → ∀ other ∈ rows,
    H.life.begins other ≤ H.life.begins row ∧ ∀ ended ∈ H.life.ends other, ended ≤ H.life.begins row
  ended : ∀ row ∈ rows, H.flagged row = false → (H.life.ends row).isSome

/-- Each key's versions in `rows` live one after another. -/
def WellFormed (H : HistoryTable D) (rows : List (Batch D)) : Prop :=
  ∀ k, H.LivesOf (H.rowsOf rows k)

section

variable {rows : List (Row D H.stored)} {state : H.KeyState}
  (hclosed : ((rows.filter fun row => !H.flagged row : List _) : Multiset (Row D H.stored))
    = state.closed)
  (hcurrent : rows.filter H.flagged = state.current.toList)
include hclosed hcurrent

omit hcurrent in
theorem mem_closed_iff {row : Row D H.stored} :
    row ∈ state.closed ↔ row ∈ rows ∧ H.flagged row = false := by
  rw [← hclosed, Multiset.mem_coe, List.mem_filter, Bool.not_eq_true']

omit hclosed in
theorem current_eq_some_iff {row : Row D H.stored} :
    state.current = some row ↔ row ∈ rows ∧ H.flagged row = true := by
  rw [← List.mem_filter, hcurrent, Option.mem_toList]

theorem lives_of_livesOf (h : H.LivesOf rows) : state.Lives H.life where
  ended row hrow := by
    obtain ⟨hmem, hflag⟩ := (mem_closed_iff hclosed).mp hrow
    obtain ⟨ended, hended⟩ := Option.isSome_iff_exists.mp (h.ended row hmem hflag)
    exact ⟨ended, hended, h.ordered row hmem ended hended⟩
  apart := by
    rw [← hclosed]
    exact ⟨_, rfl, h.apart.sublist List.filter_sublist⟩
  unended row hrow := by
    obtain ⟨hmem, hflag⟩ := (current_eq_some_iff hcurrent).mp hrow
    exact h.unended row hmem hflag
  last row hrow held hheld := by
    obtain ⟨hmem, hflag⟩ := (current_eq_some_iff hcurrent).mp hrow
    exact h.last row hmem hflag held ((mem_closed_iff hclosed).mp hheld).1

theorem livesOf_of_lives (h : state.Lives H.life) : H.LivesOf rows := by
  have hsplit : ∀ row ∈ rows, row ∈ state.closed ∨ state.current = some row := by
    intro row hrow
    cases hflag : H.flagged row with
    | false => exact .inl ((mem_closed_iff hclosed).mpr ⟨hrow, hflag⟩)
    | true => exact .inr ((current_eq_some_iff hcurrent).mpr ⟨hrow, hflag⟩)
  have hsymm : Std.Symm fun left right : Row D H.stored =>
      Disjoint (H.life.interval left) (H.life.interval right) := ⟨fun _ _ h => h.symm⟩
  refine ⟨?_, ?_, ?_, ?_, ?_, ?_⟩
  · have hperm := List.filter_append_perm (fun row => !H.flagged row) rows
    rw [← hperm.pairwise_iff fun {_ _} h => h.symm]
    simp only [Bool.not_not]
    rw [hcurrent, List.pairwise_append]
    refine ⟨?_, ?_, fun held hheld row hrow => ?_⟩
    · have hapart := h.apart
      rw [← hclosed, Multiset.pairwise_coe_iff_pairwise] at hapart
      exact hapart
    · cases state.current <;> simp
    · have hheld : held ∈ state.closed := by
        rw [← hclosed]
        exact hheld
      obtain ⟨ended, hended, -⟩ := h.ended held hheld
      exact (Versioned.State.disjoint_of_ends_le hended
        ((h.last row (Option.mem_toList.mp hrow) held hheld).2 ended hended)).symm
  · intro row hrow ended hended
    rcases hsplit row hrow with hmem | hmem
    · obtain ⟨ended', hended', hle⟩ := h.ended row hmem
      cases hended'.symm.trans hended
      exact hle
    · rw [h.unended row hmem] at hended
      cases hended
  · rw [hcurrent]
    cases state.current <;> simp
  · intro row hrow hflag
    exact h.unended row ((current_eq_some_iff hcurrent).mpr ⟨hrow, hflag⟩)
  · intro row hrow hflag other hother
    have hmem := (current_eq_some_iff hcurrent).mpr ⟨hrow, hflag⟩
    rcases hsplit other hother with hother | hother
    · exact h.last row hmem other hother
    · cases hmem.symm.trans hother
      refine ⟨le_rfl, fun ended hended => ?_⟩
      rw [h.unended row hmem] at hended
      cases hended
  · intro row hrow hflag
    obtain ⟨ended, hended, -⟩ := h.ended row ((mem_closed_iff hclosed).mpr ⟨hrow, hflag⟩)
    exact Option.isSome_iff_exists.mpr ⟨ended, hended⟩

end

theorem current_view (hsingle : H.Single (readBack H.stored published)) (buried : List (Batch D))
    (k : Bytes) :
    (H.rowsOf published k).filter H.flagged = (H.view published buried k).current.toList := by
  have hone := hsingle k
  change ((H.rowsOf published k).filter H.flagged).length ≤ 1 at hone
  change _ = ((H.rowsOf published k).filter H.flagged).getLast?.toList
  match hrows : (H.rowsOf published k).filter H.flagged with
  | [] => rfl
  | [row] => rfl
  | _ :: _ :: _ =>
    rw [hrows] at hone
    simp at hone

theorem WellFormed.single (h : H.WellFormed published) : H.Single (readBack H.stored published) :=
  fun k => (h k).single

theorem wellFormed_of_merge (hpublished : H.WellFormed published)
    (h : H.merge published buried incoming = .ok merged) : H.WellFormed merged.rows := by
  intro k
  have hstored : (H.view published buried k).Lives H.life :=
    lives_of_livesOf rfl (current_view hpublished.single buried k) (hpublished k)
  obtain ⟨hclosed, hcurrent⟩ := rows_merge hpublished.single h k
  exact livesOf_of_lives hclosed hcurrent (hstored.merge H.guarded (H.changesFor incoming k))

theorem wellFormed_nil : H.WellFormed [] := fun _ =>
  ⟨List.Pairwise.nil, by simp [rowsOf, readBack], by simp [rowsOf, readBack],
    by simp [rowsOf, readBack], by simp [rowsOf, readBack], by simp [rowsOf, readBack]⟩

/-- Whatever rows a merge is given, and whatever instants they say, it succeeds exactly when it
    admits and reads them, and leaves each key's versions living one after another. -/
theorem merge_wellFormed (H : HistoryTable D) (published buried incoming : List (Batch D))
    (hpublished : H.WellFormed published) :
    ((∃ merged, H.merge published buried incoming = .ok merged) ↔
        (∀ raw ∈ incoming, H.Admitted raw) ∧ H.Ready published buried incoming) ∧
      ∀ merged, H.merge published buried incoming = .ok merged → H.WellFormed merged.rows :=
  ⟨exists_merge_iff, fun _ h => wellFormed_of_merge hpublished h⟩

/-- Accounts that say they begin before others ended. -/
theorem merge_wellFormed_ledger : ∃ merged : Merged Unit,
    (Ledger.table true).merge [] [] Ledger.backdated = .ok merged ∧
      (Ledger.table true).WellFormed merged.rows := by
  obtain ⟨merged, h⟩ := exists_of_isOk
    (x := (Ledger.table true).merge [] [] Ledger.backdated) (by decide +kernel)
  exact ⟨merged, h,
    (merge_wellFormed (Ledger.table true) [] [] Ledger.backdated wellFormed_nil).2 merged h⟩

/-! ## Histories in sequence -/

/-- Whether a stored history is in sequence: the version of a key flagged current has the greatest
    sequence of its versions, and a key with a tombstone has none. -/
structure InSequence (H : HistoryTable D) (rows tombstones : List (Batch D)) : Prop where
  newest : ∀ k, ∀ version ∈ (H.view rows tombstones k).current,
    ∀ other ∈ (H.view rows tombstones k).versions, H.life.seq other ≤ H.life.seq version
  buried : ∀ k, (H.storedGuard tombstones k).stone.isSome →
    (H.view rows tombstones k).current = none

theorem sequenced_view_iff {rows tombstones : List (Batch D)} :
    H.InSequence rows tombstones ↔ ∀ k, (H.view rows tombstones k).Sequenced H.life := by
  have hle : ∀ (k : Bytes) (version : Row D H.stored),
      (H.view rows tombstones k).newest ≤ H.life.seq version ↔
        ∀ other ∈ (H.view rows tombstones k).versions, H.life.seq other ≤ H.life.seq version := by
    intro k version
    change (H.view rows tombstones k).greatest H.life ≤ _ ↔ _
    rw [Versioned.State.greatest, Multiset.sup_le]
    simp
  constructor
  · intro h k
    refine ⟨rfl, fun version hversion => ?_, h.buried k⟩
    refine le_antisymm ((hle k version).mpr (h.newest k version hversion)) ?_
    have hmem : version ∈ (H.view rows tombstones k).versions :=
      Versioned.State.mem_versions.mpr (.inr hversion)
    change (H.life.seq version : WithBot Bytes) ≤ (H.view rows tombstones k).greatest H.life
    exact Multiset.le_sup
      (Multiset.mem_map_of_mem (fun row => (H.life.seq row : WithBot Bytes)) hmem)
  · intro h
    exact ⟨fun k version hversion => (hle k version).mp ((h k).newest version hversion).le,
      fun k => (h k).buried⟩

theorem inSequence_nil : H.InSequence [] [] := by
  have hnone : ∀ k, (H.view [] [] k).current = none := fun k => rfl
  refine ⟨fun k version hversion => ?_, fun k _ => hnone k⟩
  rw [hnone] at hversion
  cases hversion

/-- Every merge of a change stream leaves its history in sequence. -/
theorem inSequence_of_merge (hstream : H.key.changes.isSome)
    (hsingle : H.Single (readBack H.stored published)) (hsequence : H.InSequence published buried)
    (hnamed : H.Named incoming) (h : H.merge published buried incoming = .ok merged) :
    H.InSequence merged.rows merged.tombstones := by
  refine sequenced_view_iff.mpr fun k => ?_
  rw [view_merge hstream hsingle hnamed h]
  exact (sequenced_view_iff.mp hsequence k).merge _

/-- A stored history as the merges of a change stream keep it: its versions live one after another,
    and in sequence. -/
structure Orderly (H : HistoryTable D) (rows tombstones : List (Batch D)) : Prop where
  lives : H.WellFormed rows
  sequence : H.InSequence rows tombstones

theorem orderly_nil : H.Orderly [] [] := ⟨wellFormed_nil, inSequence_nil⟩

theorem orderly_of_merge (hstream : H.key.changes.isSome) (hpublished : H.Orderly published buried)
    (hnamed : H.Named incoming) (h : H.merge published buried incoming = .ok merged) :
    H.Orderly merged.rows merged.tombstones :=
  ⟨wellFormed_of_merge hpublished.lives h,
    inSequence_of_merge hstream hpublished.lives.single hpublished.sequence hnamed h⟩

theorem ready_merge (hsingle : H.Single (readBack H.stored published)) (hnamed : H.Named incoming)
    (h : H.merge published buried incoming = .ok merged)
    (hlater : ∀ row ∈ readBack H.stored later, H.ReadsRow row) :
    H.Ready merged.rows merged.tombstones later := by
  refine ⟨reads_merge hsingle h, hlater, fun stone hstone => ?_⟩
  split at hstone
  · exact compares_stones hnamed h stone hstone
  · simp [storedUnder] at hstone

/-! ## Tables that are the same -/

/-- Two merges left the table the same. -/
abbrev Same (H : HistoryTable D) : Merged D → Merged D → Prop := SameTable H.stored H.encode

/-- Two merges agree: both fail, or both leave the table the same. -/
abbrev Agree (H : HistoryTable D) :
    Except MergeError (Merged D) → Except MergeError (Merged D) → Prop :=
  Lib.Agree H.Same

/-- Merges of a change stream that store the same of each key left the table the same. -/
theorem same_of_view (hstream : H.key.changes.isSome) {left right : Merged D}
    (hleft : H.Single (readBack H.stored left.rows))
    (hright : H.Single (readBack H.stored right.rows))
    (h : ∀ k, H.view left.rows left.tombstones k = H.view right.rows right.tombstones k) :
    H.Same left right where
  rows := by
    refine perm_of_forall_filter_perm H.rowKey fun k => ?_
    have hclosed : ((H.rowsOf left.rows k).filter fun row => !H.flagged row).Perm
        ((H.rowsOf right.rows k).filter fun row => !H.flagged row) :=
      Multiset.coe_eq_coe.mp (congrArg Versioned.State.closed (h k))
    have hcurrent : (H.rowsOf left.rows k).filter H.flagged
        = (H.rowsOf right.rows k).filter H.flagged := by
      rw [current_view hleft left.tombstones, current_view hright right.tombstones, h]
    have hsplit := fun rows : List (Row D H.stored) =>
      List.filter_append_perm (fun row => !H.flagged row) rows
    simp only [Bool.not_not] at hsplit
    have hrows : (H.rowsOf left.rows k).Perm (H.rowsOf right.rows k) :=
      calc H.rowsOf left.rows k
          |>.Perm (((H.rowsOf left.rows k).filter fun row => !H.flagged row)
            ++ (H.rowsOf left.rows k).filter H.flagged) := (hsplit _).symm
        _ |>.Perm (((H.rowsOf right.rows k).filter fun row => !H.flagged row)
            ++ (H.rowsOf right.rows k).filter H.flagged) := hclosed.append (.of_eq hcurrent)
        _ |>.Perm (H.rowsOf right.rows k) := hsplit _
    simpa only [rowsOf, beq_eq_decide] using hrows
  guards k := by
    have hguard := congrArg Versioned.State.guard (h k)
    have hguarded : H.guarded = true := hstream
    change H.storedGuard left.tombstones k = H.storedGuard right.tombstones k at hguard
    simpa only [storedGuard, hguarded, if_true] using hguard

/-! ## Some of a merge's rows -/

theorem changeAt_congr {raw held : Batch D} (hfields : raw.fields = held.fields) {row place : Nat}
    (hrow : raw.rows[row]? = held.rows[place]?) : H.changeAt raw row = H.changeAt held place := by
  have hcell := cell_congr hfields hrow
  have hrowAt : H.rowAt raw row = H.rowAt held place := by
    funext column
    rw [rowAt, rowAt, hcell]
  have hop : H.opAt raw row = H.opAt held place := by
    unfold opAt
    cases H.key.changes with
    | none => rfl
    | some changes => exact opAt_congr hcell
  rw [changeAt, changeAt, hrowAt, hop]

theorem changesOf_append (first later : List (Batch D)) :
    H.changesOf (first ++ later) = H.changesOf first ++ H.changesOf later := by
  rw [changesOf, List.flatMap_append]
  rfl

theorem changesFor_append (first later : List (Batch D)) (k : Bytes) :
    H.changesFor (first ++ later) k = H.changesFor first k ++ H.changesFor later k := by
  rw [changesFor, changesOf_append, List.filter_append]
  rfl

theorem named_append : H.Named (first ++ later) ↔ H.Named first ∧ H.Named later := by
  simp only [Named, changesOf_append, List.forall_mem_append]

/-- Two merges, one after the other, succeed exactly when one merge of both does. -/
theorem exists_merge_merge_iff (hsingle : H.Single (readBack H.stored published))
    (hfirst : H.Named first) :
    (∃ merged', (H.merge published buried first >>= fun merged =>
        H.merge merged.rows merged.tombstones later) = .ok merged') ↔
      ∃ merged', H.merge published buried (first ++ later) = .ok merged' := by
  rw [exists_merge_iff]
  constructor
  · rintro ⟨merged', h⟩
    obtain ⟨merged, h, h'⟩ := bind_eq_ok.mp h
    obtain ⟨hadmitted, hready⟩ := exists_merge_iff.mp ⟨merged, h⟩
    obtain ⟨hadmitted', hready'⟩ := exists_merge_iff.mp ⟨merged', h'⟩
    refine ⟨List.forall_mem_append.mpr ⟨hadmitted, hadmitted'⟩, hready.rows, ?_, hready.stones⟩
    rw [readBack, List.flatMap_append, List.forall_mem_append]
    exact ⟨hready.changes, hready'.changes⟩
  · rintro ⟨hadmitted, hready⟩
    obtain ⟨hadmitted, hadmitted'⟩ := List.forall_mem_append.mp hadmitted
    have hchanges := hready.changes
    rw [readBack, List.flatMap_append, List.forall_mem_append] at hchanges
    obtain ⟨merged, h⟩ := exists_merge_iff.mpr ⟨hadmitted, hready.rows, hchanges.1, hready.stones⟩
    obtain ⟨merged', h'⟩ := exists_merge_iff.mpr
      ⟨hadmitted', ready_merge hsingle hfirst h hchanges.2⟩
    exact ⟨merged', bind_eq_ok.mpr ⟨merged, h, h'⟩⟩

section

variable (hstream : H.key.changes.isSome) (hsingle : H.Single (readBack H.stored published))
  (hsequence : H.InSequence published buried)
include hstream hsingle hsequence

/-- Merging any of a merge's rows again, in whatever order and batches, changes nothing. -/
theorem exists_merge_again (hnamed : H.Named incoming)
    (h : H.merge published buried incoming = .ok merged) (hagain : SubRows again incoming) :
    ∃ merged', H.merge merged.rows merged.tombstones again = .ok merged' ∧
      H.Same merged merged' := by
  obtain ⟨hadmitted, hready⟩ := exists_merge_iff.mp ⟨merged, h⟩
  have hsubset : H.changesOf again ⊆ H.changesOf incoming := hagain.flatMap_subset changeAt_congr
  have hnamed' : H.Named again := fun change hchange => hnamed change (hsubset hchange)
  have hmerged := single_merge hsingle h
  obtain ⟨merged', h'⟩ := exists_merge_iff.mpr ⟨hagain.admitted hadmitted,
    ready_merge hsingle hnamed h fun row hrow =>
      hready.changes row (hagain.readBack_subset _ hrow)⟩
  refine ⟨merged', h', same_of_view hstream hmerged (single_merge hmerged h') fun k => ?_⟩
  rw [view_merge hstream hmerged hnamed' h', view_merge hstream hsingle hnamed h]
  refine (Versioned.State.merge_replay (sequenced_view_iff.mp hsequence k)
    fun change hchange => ?_).symm
  obtain ⟨hmem, hconcerns⟩ := List.mem_filter.mp hchange
  exact List.mem_filter.mpr ⟨hsubset hmem, hconcerns⟩

/-- Where every change of `later` is past every change of `first`, merging one and then the other
    agrees with merging both at once. -/
theorem agree_merge_merge (hfirst : H.Named first) (hlater : H.Named later)
    (hlt : ∀ change ∈ H.changesOf first, ∀ other ∈ H.changesOf later,
      H.life.seq change.row < H.life.seq other.row) :
    H.Agree (H.merge published buried first >>= fun merged =>
        H.merge merged.rows merged.tombstones later)
      (H.merge published buried (first ++ later)) := by
  have hnamed : H.Named (first ++ later) := named_append.mpr ⟨hfirst, hlater⟩
  refine agree_of (exists_merge_merge_iff hsingle hfirst) ?_
  · intro left right hleft hright
    obtain ⟨merged, h, h'⟩ := bind_eq_ok.mp hleft
    have hmerged := single_merge hsingle h
    refine same_of_view hstream (single_merge hmerged h') (single_merge hsingle hright) fun k => ?_
    rw [view_merge hstream hmerged hlater h', view_merge hstream hsingle hfirst h,
      view_merge hstream hsingle hnamed hright, changesFor_append]
    refine Versioned.State.merge_merge_of_lt (sequenced_view_iff.mp hsequence k) rfl ?_
    intro change hchange other hother
    exact hlt change (List.mem_of_mem_filter hchange) other (List.mem_of_mem_filter hother)

end

/-- The history of a change stream depends neither on where commits fall nor on replays. The empty
    history is orderly and merges leave it so; where every change of `later` is past every change of
    `first`, merging one and then the other agrees with merging both at once; and merging any of the
    rows of `first` again changes nothing. -/
theorem merge_boundaries (H : HistoryTable D) (hstream : H.key.changes.isSome) :
    H.Orderly [] [] ∧
    ∀ published buried first, H.Orderly published buried → H.Named first →
      (∀ later, H.Named later →
        (∀ change ∈ H.changesOf first, ∀ other ∈ H.changesOf later,
          H.life.seq change.row < H.life.seq other.row) →
        H.Agree (H.merge published buried first >>= fun merged =>
            H.merge merged.rows merged.tombstones later)
          (H.merge published buried (first ++ later))) ∧
      ∀ merged, H.merge published buried first = .ok merged →
        H.Orderly merged.rows merged.tombstones ∧
        ∀ again, SubRows again first →
          ∃ merged', H.merge merged.rows merged.tombstones again = .ok merged' ∧
            H.Same merged merged' := by
  refine ⟨orderly_nil, fun published buried first hpublished hfirst => ?_⟩
  have hsingle := hpublished.lives.single
  refine ⟨fun later hlater hlt => ?_, fun merged h => ⟨?_, fun again hagain => ?_⟩⟩
  · exact agree_merge_merge hstream hsingle hpublished.sequence hfirst hlater hlt
  · exact orderly_of_merge hstream hpublished hfirst h
  · exact exists_merge_again hstream hsingle hpublished.sequence hfirst h hagain

/-- Accounts truncated in one commit and opened again in the next, the first merged again. -/
theorem merge_boundaries_ledger : ∃ merged merged' : Merged Unit,
    (Ledger.table true).merge [] [] Ledger.opened = .ok merged ∧
      (Ledger.table true).Agree ((Ledger.table true).merge [] [] Ledger.opened >>= fun merged =>
          (Ledger.table true).merge merged.rows merged.tombstones Ledger.reopened)
        ((Ledger.table true).merge [] [] (Ledger.opened ++ Ledger.reopened)) ∧
      (Ledger.table true).merge merged.rows merged.tombstones Ledger.replayed = .ok merged' ∧
      (Ledger.table true).Same merged merged' := by
  obtain ⟨merged, h⟩ := exists_of_isOk
    (x := (Ledger.table true).merge [] [] Ledger.opened) (by decide +kernel)
  obtain ⟨hempty, hmerges⟩ := merge_boundaries (Ledger.table true) rfl
  obtain ⟨hagree, hmerged⟩ := hmerges [] [] Ledger.opened hempty (by decide +kernel)
  obtain ⟨merged', h', hsame⟩ := (hmerged merged h).2 Ledger.replayed (by decide +kernel)
  exact ⟨merged, merged', h, hagree Ledger.reopened (by decide +kernel) (by decide +kernel),
    h', hsame⟩

end HistoryTable

end Rdlt.Merge
