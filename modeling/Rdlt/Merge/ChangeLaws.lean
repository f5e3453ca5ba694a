/-
  Rdlt.Merge.ChangeLaws

  The laws of a change stream's table as merges of batches keep them: merging
  changes again does nothing, where a commit falls does not matter, and where
  deletes are hard the order of commits does not either.
-/

import Rdlt.Merge.Converge
import Rdlt.Merge.Refine.Merge

namespace Rdlt.Merge

open Lib

variable {D : Type} {first later : List (Batch D)} {commits : List (List (Batch D))}

namespace Accounts

/-! Commits of accounts. -/

def opened : List (Batch Unit) := [batch [insert 1 10 1, truncate 2]]

def touched : List (Batch Unit) := [batch [touch 1 3]]

def closed : List (Batch Unit) := [batch [delete 1 4, insert 2 5 3]]

def mixed : List (Batch Unit) := [batch [insert 1 10 1, truncate 2, touch 1 2, insert 2 5 4]]

def replayed : List (Batch Unit) := [batch [insert 2 5 4, truncate 2]]

def two : List (Batch Unit) := [batch [insert 1 10 1, insert 2 20 5]]

def cut : List (Batch Unit) := [batch [insert 3 30 3, truncate 4, touch 2 6, truncate 6]]

end Accounts

namespace ChangeTable

variable {T : ChangeTable D} {published buried incoming : List (Batch D)} {merged : Merged D}

section

variable (hnamed : T.Named incoming) (h : T.merge published buried incoming = .ok merged)
include hnamed h

theorem view_merge (k : Bytes) : T.view merged.rows merged.tombstones k
      = (T.view published buried k).merge T.layout (T.changesFor incoming k) :=
  (merge_spec hnamed h k).1

theorem rowsOf_merge (k : Bytes) : T.rowsOf merged.rows k
      = ((T.view merged.rows merged.tombstones k).row.map Keyed.Row.cells).toList :=
  (merge_spec hnamed h k).2.1

theorem ready_merge (hlater : ∀ row ∈ readBack T.stored later, Compares (row T.seqColumn)) :
    T.Ready merged.rows merged.tombstones later := by
  refine ⟨fun row hrow => ?_, hlater, compares_stones hnamed h⟩
  refine (merge_spec hnamed h (T.rowKey row)).2.2 row ?_
  exact List.mem_filter.mpr ⟨hrow, beq_self_eq_true _⟩

end

/-! ## Tables that are the same -/

/-- Two merges left the table the same. -/
abbrev Same (T : ChangeTable D) : Merged D → Merged D → Prop := SameTable T.stored T.encode

theorem same_of_view {left right : Merged D} (hleft : ∀ k, T.rowsOf left.rows k
      = ((T.view left.rows left.tombstones k).row.map Keyed.Row.cells).toList)
    (hright : ∀ k, T.rowsOf right.rows k
      = ((T.view right.rows right.tombstones k).row.map Keyed.Row.cells).toList)
    (h : ∀ k, T.view left.rows left.tombstones k = T.view right.rows right.tombstones k) :
    T.Same left right where
  rows := by
    refine perm_of_forall_filter_perm T.rowKey fun k => .of_eq ?_
    have hrows : T.rowsOf left.rows k = T.rowsOf right.rows k := by rw [hleft, hright, h]
    simpa only [rowsOf, beq_eq_decide] using hrows
  guards k := congrArg Keyed.State.guard (h k)

/-! ## Some of a merge's rows -/

theorem changeAt_congr {raw held : Batch D} (hfields : raw.fields = held.fields) {row place : Nat}
    (hrow : raw.rows[row]? = held.rows[place]?) : T.changeAt raw row = T.changeAt held place := by
  have hcell := cell_congr hfields hrow
  have hrowAt : T.rowAt raw row = T.rowAt held place := by
    funext column
    rw [rowAt, rowAt, hcell]
  have hkept : T.keptAt raw row = T.keptAt held place := by
    funext column
    rw [keptAt, keptAt, bitmapAt, bitmapAt, hasColumn_congr hfields, hfields, hcell]
  have hop : T.opAt raw row = T.opAt held place := opAt_congr hcell
  rw [changeAt, changeAt, hrowAt, hkept, hop]

theorem compares_iff {written : List (Batch D)} :
    (∀ row ∈ readBack T.stored written, Compares (row T.seqColumn)) ↔
      ∀ change ∈ T.changesOf written, Compares (change.cells T.seqColumn) := by
  simp only [readBack, changesOf, readUnder, List.mem_flatMap, List.mem_map]
  constructor
  · rintro h change ⟨raw, hraw, row, hrow, rfl⟩
    exact h _ ⟨raw, hraw, row, hrow, rfl⟩
  · rintro h cells ⟨raw, hraw, row, hrow, rfl⟩
    exact h _ ⟨raw, hraw, row, hrow, rfl⟩

/-! ## Merging again -/

/-- Merging any of a merge's rows again, in whatever order and batches, leaves the table as the
    merge left it. -/
theorem merge_again (hnamed : T.Named incoming)
    (h : T.merge published buried incoming = .ok merged) (again : List (Batch D))
    (hagain : SubRows again incoming) :
    ∃ merged', T.merge merged.rows merged.tombstones again = .ok merged' ∧
      T.Same merged merged' := by
  obtain ⟨hadmitted, hready⟩ := (exists_merge_iff hnamed).mp ⟨merged, h⟩
  have hsubset : T.changesOf again ⊆ T.changesOf incoming := hagain.flatMap_subset changeAt_congr
  have hnamed' : T.Named again := fun change hchange => hnamed change (hsubset hchange)
  obtain ⟨merged', h'⟩ := (exists_merge_iff hnamed').mpr ⟨hagain.admitted hadmitted,
    ready_merge hnamed h fun row hrow => hready.changes row (hagain.readBack_subset _ hrow)⟩
  refine ⟨merged', h', same_of_view (rowsOf_merge hnamed h) (rowsOf_merge hnamed' h') fun k => ?_⟩
  rw [view_merge hnamed' h', view_merge hnamed h]
  refine (Keyed.State.merge_replay T.layout _ fun change hchange => ?_).symm
  obtain ⟨hmem, hconcerns⟩ := List.mem_filter.mp hchange
  exact List.mem_filter.mpr ⟨hsubset hmem, hconcerns⟩

/-- Accounts opened, touched and truncated, merged again in part. -/
theorem merge_again_accounts : ∃ merged merged' : Merged Unit,
    (Accounts.table true).merge [] [] Accounts.mixed = .ok merged ∧
      (Accounts.table true).merge merged.rows merged.tombstones Accounts.replayed = .ok merged' ∧
      (Accounts.table true).Same merged merged' := by
  obtain ⟨merged, h⟩ := exists_of_isOk
    (x := (Accounts.table true).merge [] [] Accounts.mixed) (by decide +kernel)
  obtain ⟨merged', h', hsame⟩ :=
    merge_again (by decide +kernel) h Accounts.replayed (by decide +kernel)
  exact ⟨merged, merged', h, h', hsame⟩

/-! ## Where a commit falls -/

/-- Two merges agree: both fail, or both leave the table the same. -/
abbrev Agree (T : ChangeTable D) :
    Except MergeError (Merged D) → Except MergeError (Merged D) → Prop :=
  Lib.Agree T.Same

theorem stored_view (rows tombstones : List (Batch D)) (k : Bytes) :
    (T.view rows tombstones k).stored = T.view rows tombstones k := by
  refine Keyed.State.ext ?_ rfl
  rw [view, Keyed.State.stored, Option.map_map]
  rfl

theorem changesOf_append (first later : List (Batch D)) :
    T.changesOf (first ++ later) = T.changesOf first ++ T.changesOf later := by
  rw [changesOf, List.flatMap_append]
  rfl

theorem changesFor_append (first later : List (Batch D)) (k : Bytes) :
    T.changesFor (first ++ later) k = T.changesFor first k ++ T.changesFor later k := by
  rw [changesFor, changesOf_append, List.filter_append]
  rfl

theorem named_append : T.Named (first ++ later) ↔ T.Named first ∧ T.Named later := by
  simp only [Named, changesOf_append, List.forall_mem_append]

/-- Two merges, one after the other, succeed exactly when one merge of both does. -/
theorem exists_merge_merge_iff (hfirst : T.Named first) (hlater : T.Named later) :
    (∃ merged', (T.merge published buried first >>= fun merged =>
        T.merge merged.rows merged.tombstones later) = .ok merged') ↔
      ∃ merged', T.merge published buried (first ++ later) = .ok merged' := by
  rw [exists_merge_iff (named_append.mpr ⟨hfirst, hlater⟩)]
  constructor
  · rintro ⟨merged', h⟩
    obtain ⟨merged, h, h'⟩ := bind_eq_ok.mp h
    obtain ⟨hadmitted, hready⟩ := (exists_merge_iff hfirst).mp ⟨merged, h⟩
    obtain ⟨hadmitted', hready'⟩ := (exists_merge_iff hlater).mp ⟨merged', h'⟩
    refine ⟨List.forall_mem_append.mpr ⟨hadmitted, hadmitted'⟩, hready.rows, ?_, hready.stones⟩
    rw [readBack, List.flatMap_append, List.forall_mem_append]
    exact ⟨hready.changes, hready'.changes⟩
  · rintro ⟨hadmitted, hready⟩
    obtain ⟨hadmitted, hadmitted'⟩ := List.forall_mem_append.mp hadmitted
    have hchanges := hready.changes
    rw [readBack, List.flatMap_append, List.forall_mem_append] at hchanges
    obtain ⟨merged, h⟩ := (exists_merge_iff hfirst).mpr
      ⟨hadmitted, hready.rows, hchanges.1, hready.stones⟩
    obtain ⟨merged', h'⟩ := (exists_merge_iff hlater).mpr
      ⟨hadmitted', ready_merge hfirst h hchanges.2⟩
    exact ⟨merged', bind_eq_ok.mpr ⟨merged, h, h'⟩⟩

/-- Where every change of `later` is past every change of `first`, merging one and then the other
    agrees with merging both at once. -/
theorem merge_then_agree (T : ChangeTable D) (published buried first later : List (Batch D))
    (hfirst : T.Named first) (hlater : T.Named later)
    (hlt : ∀ change ∈ T.changesOf first, ∀ other ∈ T.changesOf later, change.seq < other.seq) :
    T.Agree (T.merge published buried first >>= fun merged =>
        T.merge merged.rows merged.tombstones later)
      (T.merge published buried (first ++ later)) := by
  have hnamed : T.Named (first ++ later) := named_append.mpr ⟨hfirst, hlater⟩
  refine agree_of (exists_merge_merge_iff hfirst hlater) ?_
  · intro left right hleft hright
    obtain ⟨merged, h, h'⟩ := bind_eq_ok.mp hleft
    refine same_of_view (rowsOf_merge hlater h') (rowsOf_merge hnamed hright) fun k => ?_
    rw [view_merge hlater h', view_merge hfirst h, view_merge hnamed hright, changesFor_append]
    refine Keyed.State.merge_merge_of_lt T.layout (stored_view published buried k)
      fun change hchange other hother => ?_
    exact hlt change (List.mem_of_mem_filter hchange) other (List.mem_of_mem_filter hother)

/-- Accounts truncated in one commit and touched in the next. -/
theorem merge_then_agree_accounts : ∃ merged : Merged Unit,
    (Accounts.table true).merge [] [] (Accounts.opened ++ Accounts.touched) = .ok merged ∧
      (Accounts.table true).Agree
        ((Accounts.table true).merge [] [] Accounts.opened >>= fun merged =>
          (Accounts.table true).merge merged.rows merged.tombstones Accounts.touched)
        (.ok merged) := by
  obtain ⟨merged, h⟩ := exists_of_isOk (x := (Accounts.table true).merge [] []
    (Accounts.opened ++ Accounts.touched)) (by decide +kernel)
  refine ⟨merged, h, ?_⟩
  rw [← h]
  exact merge_then_agree (Accounts.table true) [] [] Accounts.opened Accounts.touched
    (by decide +kernel) (by decide +kernel) (by decide +kernel)

/-! ## The order of commits -/

def nothing : Merged D := { rows := [], tombstones := [] }

/-- The table once `commits` are merged, one after another, into what `merged` stores of it. -/
def mergeAll (T : ChangeTable D) (merged : Merged D) (commits : List (List (Batch D))) :
    Except MergeError (Merged D) :=
  commits.foldlM (fun merged incoming => T.merge merged.rows merged.tombstones incoming) merged

/-- Changes of whole rows, each naming its key, with a sequence that compares, and no two of one
    key at one sequence. -/
structure Whole (T : ChangeTable D) (changes : List T.KeyedChange) : Prop where
  whole : ∀ change ∈ changes, ∀ column, change.kept column = false
  named : ∀ change ∈ changes, change.op ≠ .truncate → change.names.allNull = false
  compares : ∀ change ∈ changes, Compares (change.cells T.seqColumn)
  untied : changes.Pairwise fun left right => left.op ≠ .truncate → right.op ≠ .truncate →
    T.encode left.names = T.encode right.names → left.seq ≠ right.seq

theorem Whole.perm {changes changes' : List T.KeyedChange} (h : T.Whole changes)
    (hperm : changes.Perm changes') : T.Whole changes' where
  whole change hchange := h.whole change (hperm.mem_iff.mpr hchange)
  named change hchange := h.named change (hperm.mem_iff.mpr hchange)
  compares change hchange := h.compares change (hperm.mem_iff.mpr hchange)
  untied := (hperm.pairwise_iff fun huntied hright hleft hkey hseq =>
    huntied hleft hright hkey.symm hseq.symm).mp h.untied

theorem Whole.untied_filter {changes : List T.KeyedChange} (h : T.Whole changes) (k : Bytes) :
    Keyed.Untied (changes.filter (T.concerns k)) := by
  have hsub : (((changes.filter (T.concerns k)).filter fun change => change.op ≠ .truncate)).Sublist
      changes := List.filter_sublist.trans List.filter_sublist
  rw [Keyed.Untied, List.Nodup, List.pairwise_map]
  refine (h.untied.sublist hsub).imp_of_mem fun {left right} hleft hright huntied => ?_
  have hkey : ∀ change ∈ (changes.filter (T.concerns k)).filter fun change => change.op ≠ .truncate,
      change.op ≠ .truncate ∧ T.encode change.names = k := by
    intro change hchange
    obtain ⟨hmem, hop⟩ := List.mem_filter.mp hchange
    have hop : change.op ≠ .truncate := by simpa using hop
    have hconcerns := (List.mem_filter.mp hmem).2
    exact ⟨hop, by simpa [concerns, hop] using hconcerns⟩
  obtain ⟨hop, hk⟩ := hkey left hleft
  obtain ⟨hop', hk'⟩ := hkey right hright
  exact huntied hop hop' (hk.trans hk'.symm)

theorem changesFor_flatten (commits : List (List (Batch D))) (k : Bytes) :
    (commits.map fun incoming => T.changesFor incoming k).flatten
      = T.changesFor commits.flatten k := by
  induction commits with
  | nil => rfl
  | cons incoming commits ih =>
    rw [List.map_cons, List.flatten_cons, List.flatten_cons, ih, changesFor_append]

/-- A table a merge could have stored. -/
structure Merges (T : ChangeTable D) (merged : Merged D) : Prop where
  rowsOf : ∀ k, T.rowsOf merged.rows k
    = ((T.view merged.rows merged.tombstones k).row.map Keyed.Row.cells).toList
  ready : T.Ready merged.rows merged.tombstones []

theorem merges_nothing : T.Merges nothing where
  rowsOf _ := rfl
  ready := ⟨by simp [nothing, readBack], by simp [readBack], by simp [nothing, storedUnder]⟩

theorem exists_mergeAll (hadmitted : ∀ raw ∈ commits.flatten, T.Admitted raw)
    (hnamed : T.Named commits.flatten)
    (hcompares : ∀ change ∈ T.changesOf commits.flatten, Compares (change.cells T.seqColumn))
    (hmerges : T.Merges merged) :
    ∃ merged', T.mergeAll merged commits = .ok merged' ∧ T.Merges merged' ∧
      ∀ k, T.view merged'.rows merged'.tombstones k
        = (commits.map fun incoming => T.changesFor incoming k).foldl
            (Keyed.State.merge T.layout) (T.view merged.rows merged.tombstones k) := by
  induction commits generalizing merged with
  | nil => exact ⟨merged, rfl, hmerges, fun _ => rfl⟩
  | cons incoming commits ih =>
    rw [List.flatten_cons, List.forall_mem_append] at hadmitted
    rw [List.flatten_cons, named_append] at hnamed
    rw [List.flatten_cons, changesOf_append, List.forall_mem_append] at hcompares
    obtain ⟨first, hfirst⟩ := (exists_merge_iff hnamed.1).mpr
      ⟨hadmitted.1, hmerges.ready.rows, compares_iff.mpr hcompares.1, hmerges.ready.stones⟩
    obtain ⟨merged', h, hmerges', hview⟩ := ih hadmitted.2 hnamed.2 hcompares.2
      ⟨rowsOf_merge hnamed.1 hfirst, ready_merge hnamed.1 hfirst (by simp [readBack])⟩
    refine ⟨merged', bind_eq_ok.mpr ⟨first, hfirst, h⟩, hmerges', fun k => ?_⟩
    rw [hview, List.map_cons, List.foldl_cons, view_merge hnamed.1 hfirst]

/-- Where deletes are hard, commits merged from nothing leave each key decided by its greatest
    change, unless a truncate is past it. -/
theorem exists_mergeAll_decided (hhard : T.changes.deletion = .hard)
    (hadmitted : ∀ raw ∈ commits.flatten, T.Admitted raw)
    (hwhole : T.Whole (T.changesOf commits.flatten)) :
    ∃ merged, T.mergeAll nothing commits = .ok merged ∧ T.Merges merged ∧
      ∀ k, T.view merged.rows merged.tombstones k
        = Keyed.decided (Keyed.greatest (T.changesFor commits.flatten k))
            (Keyed.latestTruncate (T.changesFor commits.flatten k)) := by
  obtain ⟨merged, h, hmerges, hview⟩ :=
    exists_mergeAll hadmitted hwhole.named hwhole.compares (T := T) merges_nothing
  refine ⟨merged, h, hmerges, fun k => ?_⟩
  have htime : T.layout.time = none := by rw [layout, time, hhard]
  have hdecided := Keyed.mergeAll_decided htime []
    (commits.map fun incoming => T.changesFor incoming k)
    (by
      rw [changesFor_flatten]
      exact fun change hchange => hwhole.whole change (List.mem_of_mem_filter hchange))
    (by
      rw [List.nil_append, changesFor_flatten]
      exact hwhole.untied_filter k)
  rw [hview, ← changesFor_flatten]
  exact hdecided

/-- Where deletes are hard, the same changes of whole rows leave the table the same, however they
    are split into commits and in whatever order the commits are merged: each key is decided by its
    greatest change, unless a truncate is past it. -/
theorem mergeAll_same (hhard : T.changes.deletion = .hard)
    (commits commits' : List (List (Batch D))) (hadmitted : ∀ raw ∈ commits.flatten, T.Admitted raw)
    (hadmitted' : ∀ raw ∈ commits'.flatten, T.Admitted raw)
    (hperm : (T.changesOf commits.flatten).Perm (T.changesOf commits'.flatten))
    (hwhole : T.Whole (T.changesOf commits.flatten)) :
    ∃ merged merged', T.mergeAll nothing commits = .ok merged ∧
      T.mergeAll nothing commits' = .ok merged' ∧ T.Same merged merged' ∧
      ∀ k, T.view merged.rows merged.tombstones k
        = Keyed.decided (Keyed.greatest (T.changesFor commits.flatten k))
            (Keyed.latestTruncate (T.changesFor commits.flatten k)) := by
  obtain ⟨merged, h, hmerges, hview⟩ := exists_mergeAll_decided hhard hadmitted hwhole
  obtain ⟨merged', h', hmerges', hview'⟩ :=
    exists_mergeAll_decided hhard hadmitted' (hwhole.perm hperm)
  refine ⟨merged, merged', h, h', same_of_view hmerges.rowsOf hmerges'.rowsOf fun k => ?_, hview⟩
  have hfor : (T.changesFor commits.flatten k).Perm (T.changesFor commits'.flatten k) :=
    hperm.filter _
  have huntied : Keyed.Untied (T.changesFor commits.flatten k) := hwhole.untied_filter k
  rw [hview, hview', Keyed.greatest_perm huntied hfor, Keyed.latestTruncate_perm hfor]

/-- Accounts deleted and truncated, in one order of commits and in another. -/
theorem mergeAll_same_accounts : ∃ merged merged' : Merged Unit,
    (Accounts.table false).mergeAll nothing [Accounts.opened, Accounts.closed] = .ok merged ∧
      (Accounts.table false).mergeAll nothing [Accounts.closed, Accounts.opened] = .ok merged' ∧
      (Accounts.table false).Same merged merged' := by
  have hperm : ((Accounts.table false).changesOf (Accounts.opened ++ Accounts.closed)).Perm
      ((Accounts.table false).changesOf (Accounts.closed ++ Accounts.opened)) := by
    rw [changesOf_append, changesOf_append]
    exact List.perm_append_comm
  obtain ⟨merged, merged', h, h', hsame, -⟩ := mergeAll_same rfl
    [Accounts.opened, Accounts.closed] [Accounts.closed, Accounts.opened]
    (by decide +kernel) (by decide +kernel) hperm
    ⟨by decide +kernel, by decide +kernel, by decide +kernel, by decide +kernel⟩
  exact ⟨merged, merged', h, h', hsame⟩

end ChangeTable

end Rdlt.Merge
