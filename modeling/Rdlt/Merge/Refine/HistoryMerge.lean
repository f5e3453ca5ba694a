/-
  Rdlt.Merge.Refine.HistoryMerge

  A merge of batches into a history table, key by key: it succeeds exactly when
  it reads every row it is given, and what it stores of each key is the key's
  versions once the changes of the key are merged into them.
-/

import Rdlt.Merge.Merge
import Rdlt.Merge.Refine.Assemble
import Rdlt.Merge.Refine.HistoryReads

namespace Rdlt.Merge

open Lib

open History (Version Guards)

namespace HistoryTable

variable {D : Type} {H : HistoryTable D}

/-! ## The state a merge ends in -/

/-- Whether a merge reads a stored version's row: what it compares and dates it by, and its flag. -/
structure ReadsVersion (H : HistoryTable D) (row : Row D H.stored) :
    Prop extends H.ReadsRow row where
  flag : Reads flagOf (row H.flagColumn)

/-- Whether a merge reads every row it is given. -/
structure Ready (H : HistoryTable D) (published buried incoming : List (Batch D)) : Prop where
  rows : ∀ row ∈ readBack H.stored published, H.ReadsVersion row
  changes : ∀ row ∈ readBack H.stored incoming, H.ReadsRow row
  stones : ∀ stone ∈ storedUnder H.key (if H.guarded then buried else []), Compares stone.seq

section

variable (H : HistoryTable D) (published incoming : List (Batch D))

def sourcesOf : Sources D H.stored where
  list := published ++ incoming

/-- The changes a merge applies, in the order it does. -/
def sortedOf : List Change :=
  ((places published.length incoming).map
    (H.changeOf (H.sourcesOf published incoming))).insertionSort
    fun left right => appliesBefore left right

/-- The table and tombstones once every change of a merge applied. -/
def applied (tombstones : Tombstones D H.key) : History × Tombstones D H.key :=
  let sources := H.sourcesOf published incoming
  (H.sortedOf published incoming).foldl
    (applyHistory (H.guardsOf sources) (H.keyAt sources) H.guarded)
    (History.load (H.guardsOf sources) (places 0 published) (H.keyAt sources)
      fun place => H.flagged (sources.cell place), tombstones)

/-- What a merge leaves once every change of it applied. -/
def mergedBy (tombstones : Tombstones D H.key) : Merged D where
  rows := assembleVersions (H.sourcesOf published incoming)
    ((H.applied published incoming tombstones).1.finish
      (H.guardsOf (H.sourcesOf published incoming))) H.columns H.history
  tombstones := (H.applied published incoming tombstones).2.assemble
    ((H.sourcesOf published incoming).keyCells H.key)

end

theorem load_congr (guards : Guards) (keys : At → Bytes) {flags flags' : At → Bool}
    {placed : List At}
    (h : ∀ place ∈ placed, flags place = flags' place) :
    History.load guards placed keys flags = History.load guards placed keys flags' := by
  refine List.foldl_ext _ _ _ fun table place hplace => ?_
  rw [h place hplace]

section

variable {merged : Merged D} {tombstones : Tombstones D H.key}

variable {published buried incoming : List (Batch D)} (sources : Sources D H.stored)

/-- A merge of admitted batches it reads succeeds with the state it ends in. -/
theorem mergeHistory_eq_ok (hadmitted : ∀ raw ∈ incoming, H.Admitted raw)
    (hready : H.Ready published buried incoming) :
    ∃ tombstones, Tombstones.load H.encode (if H.guarded then buried else []) = .ok tombstones ∧
      mergeHistory H.schema published buried incoming H.key H.history H.encode
        = .ok (H.mergedBy published incoming tombstones) := by
  obtain ⟨tombstones, hload⟩ := exists_load_iff.mpr hready.stones
  have hreads : ∀ row ∈ readBack H.stored (published ++ incoming), H.ReadsRow row := by
    intro row hrow
    rw [readBack, List.flatMap_append] at hrow
    exact (List.mem_append.mp hrow).elim (fun hrow => (hready.rows row hrow).toReadsRow)
      (hready.changes row)
  have hflag : H.stored.indexOf? H.history.isCurrent = some H.flagColumn := Schema.indexOf?_column _
  have hflags : ∀ place ∈ places 0 published,
      Reads flagOf ((H.sourcesOf published incoming).cell place H.flagColumn) := by
    intro place hplace
    refine (hready.rows _ ?_).flag
    rw [← map_cell_published published incoming]
    exact List.mem_map_of_mem hplace
  refine ⟨tombstones, hload, ?_⟩
  refine bind_eq_ok.mpr ⟨(), converter_eq_ok H.keyed fun name hname => ?_, ?_⟩
  · refine H.named name ?_
    rcases List.mem_append.mp hname with hname | hname
    · exact List.mem_append_left _ hname
    · exact List.mem_append_right _ (List.mem_singleton.mp hname ▸ List.mem_cons_self)
  refine bind_eq_ok.mpr ⟨_, guards_eq_ok_iff.mpr ⟨hreads, rfl⟩, ?_⟩
  refine bind_eq_ok.mpr ⟨_, (sourceValues_eq_ok_iff hflag).mpr ⟨hflags, rfl⟩, ?_⟩
  refine bind_eq_ok.mpr ⟨tombstones, hload, ?_⟩
  refine bind_eq_ok.mpr ⟨_, historyChanges_eq rfl hadmitted, ?_⟩
  refine bind_eq_ok.mpr ⟨_, lifeColumns_eq_ok H, ?_⟩
  have hheld := load_congr (H.guardsOf (H.sourcesOf published incoming))
    (H.keyAt (H.sourcesOf published incoming)) fun place hplace =>
      readAs_flagOf (hflags place hplace)
  unfold mergedBy applied flagged
  dsimp only
  rw [← hheld]
  rfl

theorem ready_of_mergeHistory
    (h : mergeHistory H.schema published buried incoming H.key H.history H.encode = .ok merged) :
    H.Ready published buried incoming := by
  obtain ⟨_, _, h⟩ := bind_eq_ok.mp h
  obtain ⟨guards, hguards, h⟩ := bind_eq_ok.mp h
  obtain ⟨flags, hflags, h⟩ := bind_eq_ok.mp h
  obtain ⟨tombstones, hload, _⟩ := bind_eq_ok.mp h
  have hreads := (guards_eq_ok_iff.mp hguards).1
  rw [readBack, List.flatMap_append] at hreads
  have hflag : H.stored.indexOf? H.history.isCurrent = some H.flagColumn := Schema.indexOf?_column _
  have hflags := ((sourceValues_eq_ok_iff hflag).mp hflags).1
  refine ⟨fun row hrow => ⟨hreads row (List.mem_append_left _ hrow), ?_⟩,
    fun row hrow => hreads row (List.mem_append_right _ hrow),
      exists_load_iff.mp ⟨tombstones, hload⟩⟩
  rw [← map_cell_published published incoming] at hrow
  obtain ⟨place, hplace, rfl⟩ := List.mem_map.mp hrow
  exact hflags place hplace

/-! ## Merges of the table -/

def merge (H : HistoryTable D) (published buried incoming : List (Batch D)) :
    Except MergeError (Merged D) :=
  mergeSparse H.schema published buried incoming H.key H.encode

theorem merge_eq_ok_iff : H.merge published buried incoming = .ok merged ↔
      (∀ raw ∈ incoming, H.Admitted raw) ∧
        mergeHistory H.schema published buried incoming H.key H.history H.encode = .ok merged := by
  rw [merge, mergeSparse]
  simp only [H.kept, bind_eq_ok]
  constructor
  · rintro ⟨⟨⟩, hadmitted, h⟩
    exact ⟨forM_eq_ok.mp hadmitted, h⟩
  · rintro ⟨hadmitted, h⟩
    exact ⟨(), forM_eq_ok.mpr hadmitted, h⟩

theorem exists_merge_iff : (∃ merged, H.merge published buried incoming = .ok merged) ↔
      (∀ raw ∈ incoming, H.Admitted raw) ∧ H.Ready published buried incoming := by
  simp only [merge_eq_ok_iff]
  constructor
  · rintro ⟨merged, hadmitted, h⟩
    exact ⟨hadmitted, ready_of_mergeHistory h⟩
  · rintro ⟨hadmitted, hready⟩
    obtain ⟨tombstones, -, h⟩ := mergeHistory_eq_ok hadmitted hready
    exact ⟨_, hadmitted, h⟩

/-- What a merge that succeeds read, and the state it ended in. -/
theorem merge_eq_ok (h : H.merge published buried incoming = .ok merged) :
    (∀ raw ∈ incoming, H.Admitted raw) ∧ H.Ready published buried incoming ∧
      ∃ tombstones, Tombstones.load H.encode (if H.guarded then buried else []) = .ok tombstones ∧
        merged = H.mergedBy published incoming tombstones := by
  obtain ⟨hadmitted, h⟩ := merge_eq_ok_iff.mp h
  have hready := ready_of_mergeHistory h
  obtain ⟨tombstones, hload, hmerged⟩ := mergeHistory_eq_ok hadmitted hready
  exact ⟨hadmitted, hready, tombstones, hload, Except.ok.inj (h.symm.trans hmerged)⟩

/-! ## What a merge does to each key -/

theorem placed_of_mem {place : At} (h : place ∈ places published.length incoming) :
    Placed (H.sourcesOf published incoming) place := by
  obtain ⟨raw, hraw, -⟩ := mem_places.mp h
  have hget : (H.sourcesOf published incoming).list[place.source]? = some raw :=
    (getElem?_source rfl hraw).1
  exact (List.getElem?_eq_some_iff.mp hget).1

theorem placed_of_mem_published {place : At} (h : place ∈ places 0 published) :
    Placed (H.sourcesOf published incoming) place := by
  obtain ⟨raw, hraw, -⟩ := mem_places.mp h
  have hlt := (List.getElem?_eq_some_iff.mp (List.mk_mem_zipIdx_iff_getElem?.mp hraw)).1
  simp only [Placed, sourcesOf, List.length_append]
  omega

theorem cell_eq_rowAt (place : At) :
    sources.cell place = H.rowAt (sourceOf sources place) place.row :=
  funext (cell_sourceOf sources place)

theorem keyChange_changeOf (place : At) : keyChange sources (H.changeOf sources place)
      = H.changeAt (sourceOf sources place) place.row := by
  have hnames : sources.keyCells H.key place = H.keyCells (sources.cell place) := rfl
  rw [keyChange, changeAt, ← cell_eq_rowAt, ← hnames]
  rfl

theorem appliesBefore_iff (left right : At) :
    appliesBefore (H.changeOf sources left) (H.changeOf sources right) ↔
    (keyChange sources (H.changeOf sources left)).before H.life
    (keyChange sources (H.changeOf sources right)) := by
  rw [appliesBefore, decide_eq_true_iff, Versioned.Change.before, Versioned.Change.rank,
    Versioned.Change.rank, Prod.Lex.toLex_le_toLex]
  refine or_congr Iff.rfl (and_congr_right fun _ => ?_)
  change _ ↔ decide ((H.changeOf sources left).op ≠ .truncate)
    ≤ decide ((H.changeOf sources right).op ≠ .truncate)
  rw [Bool.le_iff_imp]
  by_cases hleft : (H.changeOf sources left).op = .truncate <;> simp [hleft]

theorem map_keyChange_sortedOf (published incoming : List (Batch D)) :
    (H.sortedOf published incoming).map (keyChange (H.sourcesOf published incoming))
      = (H.changesOf incoming).insertionSort (Versioned.Change.before H.life) := by
  refine (List.map_insertionSort (r := fun left right : Change => appliesBefore left right)
    (s := Versioned.Change.before H.life) _ _ ?_).trans ?_
  · intro left hleft right hright
    obtain ⟨place, -, rfl⟩ := List.mem_map.mp hleft
    obtain ⟨place', -, rfl⟩ := List.mem_map.mp hright
    exact appliesBefore_iff _ place place'
  · have hsources : (H.sourcesOf published incoming).list = published ++ incoming := rfl
    rw [List.map_map, changesOf, ← map_places H.changeAt hsources]
    exact congrArg _ (List.map_congr_left fun place _ => keyChange_changeOf _ place)

theorem Admitted.deleted {raw : Batch D} (h : H.Admitted raw) {row : Nat} (hrow : row < raw.numRows)
    (hop : H.opAt raw row = .delete ∨ H.opAt raw row = .truncate) (hhard : H.life.hard = false) :
    H.life.deleted (H.rowAt raw row) := by
  obtain ⟨time, htime⟩ : ∃ time, H.time = some time := by
    simpa [life, Option.isNone_eq_false_iff, Option.isSome_iff_exists] using hhard
  have hname := H.get_of_time htime
  cases hchanges : H.key.changes with
  | none => simp [deletedAt, hchanges] at hname
  | some changes =>
    have hsoft : changes.deletion = .soft (H.stored.get time) := by
      unfold deletedAt at hname
      rw [hchanges, Option.map_some] at hname
      cases hdeletion : changes.deletion with
      | hard => simp [hdeletion] at hname
      | soft name => simpa [hdeletion] using hname
    have hopAt : H.opAt raw row = changes.opAt raw row := by rw [opAt, hchanges, Option.elim_some]
    have hcell := ((admitted_iff.mp h).2 row hrow).timed changes _ hchanges
      (by rw [H.kept]; rfl) hsoft (hopAt ▸ hop)
    simp only [life, HistoryTable.deleted, htime, Option.any_some]
    exact hcell

theorem proper_of_mem (hadmitted : ∀ raw ∈ incoming, H.Admitted raw) {change : Change}
    (h : change ∈ H.sortedOf published incoming) :
    H.Proper (H.sourcesOf published incoming) change := by
  obtain ⟨place, hplace, rfl⟩ := List.mem_map.mp ((List.mem_insertionSort _).mp h)
  refine ⟨placed_of_mem hplace, rfl, fun hop hhard => ?_⟩
  obtain ⟨raw, hraw, hrow⟩ := mem_places.mp hplace
  have hget : (H.sourcesOf published incoming).list[place.source]? = some raw :=
    (getElem?_source rfl hraw).1
  have hmem : raw ∈ incoming := (List.fst_mem_of_mem_zipIdx hraw)
  have hsource : sourceOf (H.sourcesOf published incoming) place = raw := by
    rw [sourceOf, hget, Option.getD_some]
  have hop' : H.opAt raw place.row = .truncate := by
    rw [← hsource]
    exact hop
  have hdeleted := (hadmitted raw hmem).deleted hrow (.inr hop') hhard
  rw [← hsource, ← cell_eq_rowAt] at hdeleted
  exact hdeleted

theorem simulates_applied (hadmitted : ∀ raw ∈ incoming, H.Admitted raw)
    (hsingle : H.Single (readBack H.stored published))
    (hload : Tombstones.load H.encode (if H.guarded then buried else []) = .ok tombstones) :
    H.Simulates (H.sourcesOf published incoming) (H.applied published incoming tombstones)
      (H.runKeys (H.view published buried)
        ((H.changesOf incoming).insertionSort (Versioned.Change.before H.life))) := by
  -- a merge starts from what is stored
  have hread : (places 0 published).map (H.sourcesOf published incoming).cell
      = readBack H.stored published := map_cell_published published incoming
  have hplaced : ∀ place ∈ places 0 published, Placed (H.sourcesOf published incoming) place :=
    fun place hplace => placed_of_mem_published hplace
  obtain ⟨hholds, htruncates⟩ :=
    holds_load (H.storedGuard buried) (places 0 published) hplaced (hread ▸ hsingle)
  rw [hread] at hholds
  obtain ⟨hstone, hbound, -⟩ :=
    Tombstones.load_eq_ok ((H.sourcesOf published incoming).keyCells H.key) hload
  have hguard : ∀ k, tombstones.guard ((H.sourcesOf published incoming).keyCells H.key) k
      = (H.view published buried k).guard := by
    intro k
    rw [Tombstones.guard, hstone, hbound]
    rfl
  have hsorted :
      (H.sortedOf published incoming).Pairwise fun left right => left.seq ≤ right.seq := by
    have hbefore :=
      List.pairwise_insertionSort (Versioned.Change.before H.life) (H.changesOf incoming)
    rw [← map_keyChange_sortedOf published incoming, List.pairwise_map] at hbefore
    refine hbefore.imp_of_mem fun {left right} hleft hright h => ?_
    rw [(proper_of_mem hadmitted hleft).seq, (proper_of_mem hadmitted hright).seq]
    exact Versioned.Change.le_of_before h
  rw [← map_keyChange_sortedOf published incoming]
  refine Simulates.run (H.sortedOf published incoming)
    (fun change hchange => proper_of_mem hadmitted hchange) hsorted ⟨hholds, hguard⟩ ?_
  rw [htruncates]
  simp

/-! ## What a merge stores of each key -/

/-- The rows a list of versions is given back as, of one key: those that ended and the current
    one. -/
theorem rowsOf_assembleVersions {sources : Sources D H.stored} {versions : List Version}
    {keys : Bytes → H.KeyState} (h : ∀ k, H.Lists sources versions k (keys k)) (k : Bytes) :
    let rows := H.rowsOf (assembleVersions sources versions H.columns H.history) k
    ((rows.filter fun row => !H.flagged row : List _) : Multiset (Row D H.stored))
      = (keys k).closed ∧
      rows.filter H.flagged = (keys k).current.toList := by
  intro rows
  have hsound := sound_of_lists h
  have hperm : rows.Perm ((versions.filter fun version =>
      H.keyAt sources version.data == k).map (H.cellsOf sources)) := by
    have hread := (readBack_assemble_perm H.stored_nodup (given sources versions) _).trans
      (.of_eq (map_value_picks [] versions hsound))
    have hfilter := hread.filter fun row => H.rowKey row == k
    rw [List.filter_map] at hfilter
    refine hfilter.trans (.of_eq ?_)
    refine congrArg (List.map _) (List.filter_congr fun version _ => ?_)
    rw [Function.comp_apply, rowKey_cellsOf]
  have hflagged : ∀ version ∈ versions, H.flagged (H.cellsOf sources version) = version.current :=
    fun version hversion => flagged_cellsOf (hsound version hversion)
  obtain ⟨hclosed, hcurrent⟩ := (h k).rows
  constructor
  · rw [← hclosed]
    refine Multiset.coe_eq_coe.mpr ((hperm.filter _).trans (.of_eq ?_))
    rw [List.filter_map, List.filter_filter]
    refine congrArg (List.map _) (List.filter_congr fun version hversion => ?_)
    rw [Function.comp_apply, hflagged version hversion, Bool.and_comm]
  · have hone : (rows.filter H.flagged).Perm (keys k).current.toList := by
      rw [← hcurrent]
      refine (hperm.filter _).trans (.of_eq ?_)
      rw [List.filter_map, List.filter_filter]
      refine congrArg (List.map _) (List.filter_congr fun version hversion => ?_)
      rw [Function.comp_apply, hflagged version hversion, Bool.and_comm]
    cases hnone : (keys k).current with
    | none =>
      rw [hnone] at hone
      exact List.perm_nil.mp hone
    | some version =>
      rw [hnone] at hone
      exact List.perm_singleton.mp hone

theorem rows_merge (hsingle : H.Single (readBack H.stored published))
    (h : H.merge published buried incoming = .ok merged) (k : Bytes) :
    let rows := H.rowsOf merged.rows k
    let state := (H.view published buried k).merge H.life H.guarded (H.changesFor incoming k)
    ((rows.filter fun row => !H.flagged row : List _) : Multiset (Row D H.stored)) = state.closed ∧
      rows.filter H.flagged = state.current.toList := by
  obtain ⟨hadmitted, -, tombstones, hload, rfl⟩ := merge_eq_ok h
  have hsimulates := simulates_applied hadmitted hsingle hload
  have hrows := rowsOf_assembleVersions (fun k => hsimulates.holds.finish k) k
  rw [runKeys, filter_insertionSort] at hrows
  dsimp only at hrows ⊢
  exact hrows

theorem single_merge (hsingle : H.Single (readBack H.stored published))
    (h : H.merge published buried incoming = .ok merged) :
    H.Single (readBack H.stored merged.rows) := by
  intro k
  have hrows := (rows_merge hsingle h k).2
  rw [rowsOf] at hrows
  rw [hrows]
  cases ((H.view published buried k).merge H.life H.guarded (H.changesFor incoming k)).current <;>
    simp

theorem keys_nodup (H : HistoryTable D) : (H.key.columns ++ [H.key.seq]).Nodup := by
  refine H.distinct.sublist (List.Sublist.append_left ?_ _)
  simp

theorem stones_applied (hnamed : H.Named incoming)
    (hload : Tombstones.load H.encode (if H.guarded then buried else []) = .ok tombstones) :
    (H.applied published incoming tombstones).2.WF
        ((H.sourcesOf published incoming).keyCells H.key) H.encode ∧
      (H.applied published incoming tombstones).2.stored = tombstones.stored := by
  refine stones_run (fun _ => rfl) (H.sortedOf published incoming) (fun change hchange hop => ?_)
    (Tombstones.wf_of_load hload)
  have hmem : keyChange (H.sourcesOf published incoming) change ∈ H.changesOf incoming := by
    rw [← List.mem_insertionSort (Versioned.Change.before H.life),
      ← map_keyChange_sortedOf published incoming]
    exact List.mem_map_of_mem hchange
  exact hnamed _ hmem hop

/-- What a merge of a change stream stores of each key: what the key's changes leave of what was
    stored of it. -/
theorem view_merge (hguarded : H.guarded = true) (hsingle : H.Single (readBack H.stored published))
    (hnamed : H.Named incoming) (h : H.merge published buried incoming = .ok merged) (k : Bytes) :
    H.view merged.rows merged.tombstones k
      = (H.view published buried k).merge H.life true (H.changesFor incoming k) := by
  obtain ⟨hclosed, hcurrent⟩ := rows_merge hsingle h k
  have hguard : H.storedGuard merged.tombstones k
      = ((H.view published buried k).merge H.life true (H.changesFor incoming k)).guard := by
    obtain ⟨hadmitted, -, tombstones, hload, rfl⟩ := merge_eq_ok h
    have hsimulates := simulates_applied hadmitted hsingle hload
    have hrun := hsimulates.guard k
    rw [runKeys, filter_insertionSort, hguarded] at hrun
    rw [storedGuard, hguarded, if_pos rfl, mergedBy,
      Tombstones.storedGuard_assemble (stones_applied hnamed hload).1 H.keys_nodup]
    exact hrun
  rw [hguarded] at hclosed hcurrent
  unfold Versioned.State.merge at hclosed hcurrent hguard ⊢
  rw [view, stateOf, hclosed, hcurrent, hguard]
  have hlast : ∀ current : Option (Row D H.stored), current.toList.getLast? = current := by
    intro current
    cases current <;> rfl
  rw [hlast]
  rfl

end

/-! ## What a merge stores reads -/

variable {row : Row D H.stored}

theorem ReadsRow.range (h : H.ReadsRow row) :
    (History.minInstant ≤ H.life.begins row ∧ H.life.begins row < 2 ^ 63) ∧
      ∀ ended ∈ H.life.ends row, History.minInstant ≤ ended ∧ ended < 2 ^ 63 := by
  constructor
  · simp only [life, HistoryTable.begins]
    cases hcell : row H.fromColumn with
    | none =>
      have hnone : instant (none : Cell D) = none := rfl
      rw [hnone, Option.getD_none]
      decide
    | some value =>
      obtain ⟨n, rfl, hrange⟩ := reads_countedAs_iff.mp h.begins value hcell
      rwa [instant, Option.getD_some]
  · intro ended hended
    simp only [life] at hended
    cases hcell : row H.toColumn with
    | none =>
      rw [hcell] at hended
      cases hended
    | some value =>
      obtain ⟨n, rfl, hrange⟩ := reads_countedAs_iff.mp h.ends value hcell
      rw [hcell] at hended
      cases hended
      exact hrange

theorem ReadsRow.dated (hseq : Compares (row H.seqColumn)) (hhash : Compares (row H.hashColumn))
    {began : Int} (hbegan : History.minInstant ≤ began ∧ began < 2 ^ 63) {ended : Option Int}
    (hended : ∀ instant ∈ ended, History.minInstant ≤ instant ∧ instant < 2 ^ 63) (current : Bool) :
    H.ReadsVersion (H.dated row began ended current) where
  seq := by rwa [H.dated_of_not_life _ _ _ _ H.not_lifeColumn_seq]
  hash := by rwa [H.dated_of_not_life _ _ _ _ H.not_lifeColumn_hash]
  begins := by
    rw [dated_from, reads_countedAs_iff]
    rintro value hvalue
    exact ⟨began, (Option.some.inj hvalue).symm, hbegan⟩
  ends := by
    rw [dated_to, reads_countedAs_iff]
    intro value hvalue
    obtain ⟨instant, hinstant, rfl⟩ := Option.map_eq_some_iff.mp hvalue
    exact ⟨instant, rfl, hended instant hinstant⟩
  flag := by
    rw [dated_flag, reads_flagOf_iff]
    rintro value hvalue
    exact ⟨current, (Option.some.inj hvalue).symm⟩

theorem reads_moved {state state' : H.KeyState} (hrow : H.ReadsRow row)
    (h : ∀ version ∈ state.versions, H.ReadsVersion version)
    (hmoved : Versioned.State.Moved H.life row state state') :
    ∀ version ∈ state'.versions, H.ReadsVersion version := by
  have hbegun : History.minInstant ≤ state.begun H.life row ∧ state.begun H.life row < 2 ^ 63 := by
    refine ⟨hrow.range.1.1.trans (Versioned.State.floor_le_begun H.life state row).2, ?_⟩
    refine Int.lt_of_le_sub_one (Versioned.State.begun_le (Int.le_sub_one_of_lt hrow.range.1.2)
      fun held hheld => ?_)
    have hrange := (h held hheld).toReadsRow.range
    exact ⟨Int.le_sub_one_of_lt hrange.1.2,
      fun ended hended => Int.le_sub_one_of_lt (hrange.2 ended hended).2⟩
  intro version hversion
  cases hmoved with
  | stay hclosed hcurrent _ =>
    refine h version ?_
    rwa [Versioned.State.mem_versions, hclosed, hcurrent,
      ← Versioned.State.mem_versions] at hversion
  | replaced data hdata hclosed hcurrent _ =>
    rw [Versioned.State.mem_versions, hclosed, hcurrent] at hversion
    rcases hversion with hversion | hversion
    · rcases Multiset.mem_add.mp hversion with hversion | hversion
      · obtain ⟨held, hheld, rfl⟩ : ∃ held, state.current = some held ∧
            H.life.closeAt (state.begun H.life row) held = version := by simpa using hversion
        have hreads := h held (Versioned.State.mem_versions.mpr (.inr hheld))
        refine ReadsRow.dated hreads.seq hreads.hash hreads.toReadsRow.range.1 ?_ false
        rintro instant hinstant
        cases hinstant
        exact hbegun
      · exact h version (Versioned.State.mem_versions.mpr (.inl hversion))
    · obtain ⟨held, hheld, rfl⟩ := Option.map_eq_some_iff.mp hversion
      have hhash : Compares (held H.hashColumn) := by
        rcases hdata with rfl | rfl | rfl
        · cases hheld
        · cases hheld
          exact hrow.hash
        · exact (h held (Versioned.State.mem_versions.mpr (.inr hheld))).hash
      refine ReadsRow.dated ?_ ?_ hbegun (by simp) true
      · rw [published, if_pos (.inl rfl)]
        exact hrow.seq
      · rw [published, if_neg H.not_openedColumn_hash]
        exact hhash

section

variable {published buried incoming : List (Batch D)}

theorem mem_versions_view {k : Bytes} (h : row ∈ (H.view published buried k).versions) :
    row ∈ readBack H.stored published := by
  rcases Versioned.State.mem_versions.mp h with hclosed | hcurrent
  · exact List.mem_of_mem_filter (List.mem_of_mem_filter (Multiset.mem_coe.mp hclosed))
  · exact List.mem_of_mem_filter (List.mem_of_mem_filter (List.mem_of_getLast? hcurrent))

theorem mem_readBack_of_mem_changesOf {change : H.KeyChange} (h : change ∈ H.changesOf incoming) :
    change.row ∈ readBack H.stored incoming := by
  obtain ⟨raw, hraw, hchange⟩ := List.mem_flatMap.mp h
  obtain ⟨row, hrow, rfl⟩ := List.mem_map.mp hchange
  exact List.mem_flatMap.mpr ⟨raw, hraw, List.mem_map.mpr ⟨row, hrow, rfl⟩⟩

theorem reads_merge {merged : Merged D} (hsingle : H.Single (readBack H.stored published))
    (h : H.merge published buried incoming = .ok merged) :
    ∀ row ∈ readBack H.stored merged.rows, H.ReadsVersion row := by
  obtain ⟨-, hready, -⟩ := merge_eq_ok h
  intro row hrow
  obtain ⟨hclosed, hcurrent⟩ := rows_merge hsingle h (H.rowKey row)
  have hmem : row ∈ H.rowsOf merged.rows (H.rowKey row) :=
    List.mem_filter.mpr ⟨hrow, beq_self_eq_true _⟩
  have hreads : ∀ version ∈ ((H.view published buried (H.rowKey row)).run H.life H.guarded
      ((H.changesFor incoming (H.rowKey row)).insertionSort
        (Versioned.Change.before H.life))).versions, H.ReadsVersion version := by
    refine List.foldlRecOn (motive := fun state : H.KeyState =>
      ∀ version ∈ state.versions, H.ReadsVersion version) _ _
      (fun version hversion => hready.rows version (mem_versions_view hversion))
      fun state hstate change hchange => ?_
    have hchange := List.mem_of_mem_filter ((List.mem_insertionSort _).mp hchange)
    exact reads_moved (hready.changes _ (mem_readBack_of_mem_changesOf hchange)) hstate
      (Versioned.State.moved_step H.life H.guarded state change)
  refine hreads row (Versioned.State.mem_versions.mpr ?_)
  cases hflagged : H.flagged row with
  | false =>
    refine .inl ?_
    have hfilter : row ∈ (H.rowsOf merged.rows (H.rowKey row)).filter fun row => !H.flagged row :=
      List.mem_filter.mpr ⟨hmem, by rw [hflagged]; rfl⟩
    rw [← Multiset.mem_coe, hclosed] at hfilter
    exact hfilter
  | true =>
    refine .inr ?_
    have hfilter := List.mem_filter.mpr ⟨hmem, hflagged⟩
    rw [hcurrent] at hfilter
    exact Option.mem_toList.mp hfilter

theorem compares_stones {merged : Merged D} (hnamed : H.Named incoming)
    (h : H.merge published buried incoming = .ok merged) :
    ∀ stone ∈ storedUnder H.key merged.tombstones, Compares stone.seq := by
  obtain ⟨-, hready, tombstones, hload, rfl⟩ := merge_eq_ok h
  intro stone hstone
  rw [mergedBy, Tombstones.storedUnder_assemble _ H.keys_nodup] at hstone
  split at hstone
  · obtain ⟨bytes, hbytes⟩ := Tombstones.seq_of_mem_rows hstone
    exact ⟨bytes, by rw [hbytes]; rfl⟩
  · rw [(stones_applied hnamed hload).2, (Tombstones.load_eq_ok
      ((H.sourcesOf published incoming).keyCells H.key) hload).2.2.1] at hstone
    exact hready.stones stone hstone

end

end HistoryTable

end Rdlt.Merge
