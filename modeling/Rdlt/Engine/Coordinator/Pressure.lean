/-
  Rdlt.Engine.Coordinator.Pressure

  Making room in stored state for a commit that would pass its limit: the done
  markers of partitions the attempt's plans no longer name go, the earliest
  recorded first, and no more of them than it takes.
-/

import Rdlt.Engine.Coordinator.Markers
import Rdlt.Engine.Stored

namespace Rdlt.Engine

open Lib

open Records (Codec)

/-! ## Markers that may go -/

/-- A partition held done, after the epoch of the session whose commit recorded it so. -/
abbrev DoneMarker := Epoch ×ₗ PartitionKey

variable {refused : StateRefusal} {markers : List DoneMarker} {marker : DoneMarker}

/-- The partitions held done, the earliest recorded first. -/
def DoneMarkers.listed (markers : DoneMarkers) : List DoneMarker :=
  (markers.toList.map fun entry => toLex (entry.2, entry.1)).insertionSort (· ≤ ·)

namespace DoneMarker

def epoch (marker : DoneMarker) : Epoch := (ofLex marker).1

def partition (marker : DoneMarker) : PartitionKey := (ofLex marker).2

def stream (marker : DoneMarker) : StreamName := (ofLex marker.partition).1

def id (marker : DoneMarker) : PartitionId := (ofLex marker.partition).2

def key {K V : Type} (codec : Codec K V) (marker : DoneMarker) : K :=
  Records.StateKey.encode codec (.partition marker.stream marker.id)

end DoneMarker

section

variable {K V : Type}

def changedKey : Records.StateChange K V → K
  | .put record => record.key
  | .delete key => key

/-- A commit with the records that hold `markers` deleted after its changes. -/
def StateCommit.deleting (codec : Codec K V) (commit : StateCommit K V)
    (markers : List DoneMarker) :
    StateCommit K V :=
  { commit with
    stateDelta := commit.stateDelta ++ markers.map fun marker => .delete (marker.key codec) }

theorem StateCommit.deleting_nil (codec : Codec K V) (commit : StateCommit K V) :
    commit.deleting codec [] = commit := by
  rw [StateCommit.deleting, List.map_nil, List.append_nil]

/-- A commit admitted: as it is sent, what was measured of it, and the markers it deletes, by
    stream. -/
structure Relieved (K V : Type) [LinearOrder K] where
  commit : StateCommit K V
  measured : Measured K
  forgotten : OrdMap StreamName (List PartitionId)

def byStream (markers : List DoneMarker) : OrdMap StreamName (List PartitionId) :=
  markers.foldl (fun forgotten marker =>
    forgotten.insert marker.stream (forgotten.getD marker.stream [] ++ [marker.id])) ∅

end

namespace Coordinator

/-- Every partition each stream's latest plan names. -/
def namedBy (c : Coordinator) : OrdMap StreamName (Finset PartitionId) :=
  c.streams.foldl (fun named run => named.insert run.name run.named) ∅

variable {K V : Type} [LinearOrder K] (codec : Codec K V) (carried : Carried K V)

/-- The done markers of partitions the streams' latest plans leave out, which `delta` does not
    change, the earliest recorded first. -/
def unplannedMarkers (c : Coordinator) (delta : List (Records.StateChange K V)) : List DoneMarker :=
  c.done.listed.filter fun marker =>
    (c.namedBy[marker.stream]?.any fun named => marker.id ∉ named) &&
      decide (marker.key codec ∉ delta.map changedKey)

/-- Admits `commit`, deleting with it as few done markers of partitions the streams' latest plans
    leave out as make the state it leaves fit, the earliest recorded first. Nothing goes where it is
    admitted as it is, or refused for anything but its stored state. -/
def relieved (c : Coordinator) (stored : Stored K) (commit : StateCommit K V)
    (born : List (StreamName × K)) : Except StateRefusal (Relieved K V) :=
  let measured := Measured.of carried commit
  match stored.admits measured born with
  | .ok () => .ok { commit, measured, forgotten := ∅ }
  | .error (.childTablesExceeded stream left limit) =>
    .error (.childTablesExceeded stream left limit)
  | .error (.stateBytesExceeded left limit request sent) =>
    let unplanned := c.unplannedMarkers codec commit.stateDelta
    match stored.relief measured (unplanned.map (DoneMarker.key codec)) with
    -- None fit, or the state fits and only the request is past its limit.
    | none | some 0 => .error (.stateBytesExceeded left limit request sent)
    | some (count + 1) =>
      let deleted := unplanned.take (count + 1)
      let commit := commit.deleting codec deleted
      let measured := measured.deleting carried commit (deleted.map (DoneMarker.key codec))
      match stored.admits measured born with
      | .ok () => .ok { commit, measured, forgotten := byStream deleted }
      | .error refused => .error refused

end Coordinator

/-! ## What goes -/

namespace DoneMarkers

theorem mem_listed {markers : DoneMarkers} :
    marker ∈ markers.listed ↔ markers[marker.partition]? = some marker.epoch := by
  rw [listed, (List.perm_insertionSort _ _).mem_iff, List.mem_map]
  constructor
  · rintro ⟨⟨key, epoch⟩, hmem, rfl⟩
    exact (OrdMap.mem_toList markers).mp hmem
  · intro hheld
    exact ⟨(marker.partition, marker.epoch), (OrdMap.mem_toList markers).mpr hheld, rfl⟩

theorem listed_pairwise (markers : DoneMarkers) : markers.listed.Pairwise (· ≤ ·) :=
  List.pairwise_insertionSort _ _

theorem nodup_listed (markers : DoneMarkers) : (markers.listed.map DoneMarker.partition).Nodup := by
  have hperm := ((List.perm_insertionSort (· ≤ ·)
    (markers.toList.map fun entry => (toLex (entry.2, entry.1) : DoneMarker))).map
      DoneMarker.partition)
  rw [listed, hperm.nodup_iff, List.map_map]
  exact markers.nodup_keys

end DoneMarkers

namespace Coordinator

variable {K V : Type} [LinearOrder K] (codec : Codec K V)

theorem key_injective {left right : DoneMarker} (h : left.key codec = right.key codec) :
    left.partition = right.partition := by
  have hparsed := congrArg (Records.StateKey.parse codec) h
  simp only [DoneMarker.key, Records.parse_encode, Except.ok.injEq,
    Records.StateKey.partition.injEq] at hparsed
  exact congrArg toLex (Prod.ext hparsed.1 hparsed.2)

theorem nodup_unplannedMarkers (c : Coordinator) (delta : List (Records.StateChange K V)) :
    ((c.unplannedMarkers codec delta).map (DoneMarker.key codec)).Nodup := by
  have hdistinct : ((c.unplannedMarkers codec delta).map DoneMarker.partition).Nodup :=
    c.done.nodup_listed.sublist (List.filter_sublist.map _)
  rw [List.nodup_iff_pairwise_ne, List.pairwise_map] at hdistinct ⊢
  exact hdistinct.imp fun hne heq => hne (key_injective codec heq)

theorem mem_unplannedMarkers {c : Coordinator} {delta : List (Records.StateChange K V)} :
    marker ∈ c.unplannedMarkers codec delta ↔
      c.done[marker.partition]? = some marker.epoch ∧
        (∃ named, c.namedBy[marker.stream]? = some named ∧ marker.id ∉ named) ∧
        marker.key codec ∉ delta.map changedKey := by
  rw [unplannedMarkers, List.mem_filter, DoneMarkers.mem_listed, Bool.and_eq_true,
    decide_eq_true_eq, Option.any_eq_true]
  simp only [decide_eq_true_eq]

end Coordinator

/-! ## What a commit leaves -/

namespace StateRecords

variable {K V : Type} [LinearOrder K] (carried : Carried K V) (records : StateRecords K V)

/-- What an open's answer holds once `commit` lands. -/
def leaves (commit : StateCommit K V) : Nat := (records.land commit.stateDelta).bytes carried

/-- The state `commit` leaves is within its limit, or no larger than what is stored. -/
def Fits (limits : StateLimits) (commit : StateCommit K V) : Prop :=
  records.leaves carried commit ≤ limits.stored ∨
    records.leaves carried commit ≤ records.bytes carried

end StateRecords

namespace Stored

variable {K V : Type} [LinearOrder K] {codec : Codec K V} {carried : Carried K V}
  {stored : Stored K} {records : StateRecords K V} {commit : StateCommit K V}

section

variable (h : stored.Mirrors carried records) (hfits : records.Unsaturated carried commit)
include h hfits

theorem Mirrors.after_of :
    stored.after (Measured.of carried commit).changed = records.leaves carried commit :=
  (h.apply hfits).total

theorem Mirrors.fits_iff : stored.fits (Measured.of carried commit).changed = true ↔
      records.Fits carried stored.limits commit := by
  have hafter := h.after_of hfits
  have htotal := h.total
  rw [StateRecords.Unsaturated, ← h.total] at hfits
  rw [fits, beq_iff_eq, h.excess_eq hfits, StateRecords.Fits]
  omega

end

variable {born : List (StreamName × K)} {measured : Measured K}

theorem admit_eq_ok : stored.admits measured born = .ok () ↔
      measured.request ≤ stored.limits.request ∧ stored.fits measured.changed = true := by
  simp only [admits]
  by_cases h : (decide (measured.request ≤ stored.limits.request) &&
      stored.fits measured.changed) = true
  · rw [if_pos h]
    exact iff_of_true rfl (by simpa using h)
  · refine iff_of_false ?_ (by simpa using h)
    rw [if_neg h]
    split
    · split <;> exact nofun
    · exact nofun

theorem admit_of_fits (hfits : stored.fits measured.changed = true)
    (h : stored.admits measured born = .error refused) :
    refused.code = "state_bytes_exceeded" ∧ stored.limits.request < measured.request := by
  have hrequest : stored.limits.request < measured.request := by
    by_contra hle
    rw [admit_eq_ok.mpr ⟨Nat.not_lt.mp hle, hfits⟩] at h
    cases h
  have hpast : decide (measured.request ≤ stored.limits.request) = false :=
    decide_eq_false (Nat.not_le.mpr hrequest)
  refine ⟨?_, hrequest⟩
  simp only [admits, hpast, Bool.false_and, Bool.false_eq_true, if_false] at h
  split at h <;> exact (congrArg StateRefusal.code (Except.error.inj h)).symm

theorem fits_unborn_of_admit (h : stored.admits measured born = .error refused)
    (hcode : refused.code = "child_tables_exceeded") :
    born ≠ [] ∧ stored.fits (measured.unborn born) = true := by
  simp only [admits] at h
  split at h
  · cases h
  · split at h
    · next hborn =>
        split at h
        · rename_i hfits
          refine ⟨fun hnil => ?_, (Bool.and_eq_true_iff.mp hfits).2⟩
          rw [hnil] at hborn
          cases hborn
        · exact (StateRefusal.ne_stateBytesExceeded hcode (Except.error.inj h).symm).elim
    · exact (StateRefusal.ne_stateBytesExceeded hcode (Except.error.inj h).symm).elim

end Stored

namespace Measured

variable {K V : Type} [LinearOrder K] (codec : Codec K V) (carried : Carried K V)

theorem deleting_eq (commit : StateCommit K V) (markers : List DoneMarker) :
    (of carried commit).deleting carried (commit.deleting codec markers)
        (markers.map (DoneMarker.key codec)) = of carried (commit.deleting codec markers) := by
  simp only [deleting, of, StateCommit.deleting, List.foldl_append, List.foldl_map, note]

theorem getElem?_changed_of_not_mem {delta : List (Records.StateChange K V)} {key : K}
    (h : key ∉ delta.map changedKey) (changed : Changed K) :
    (delta.foldl (note carried) changed)[key]? = changed[key]? := by
  induction delta generalizing changed with
  | nil => rfl
  | cons edit delta ih =>
    rw [List.map_cons, List.mem_cons, not_or] at h
    rw [List.foldl_cons, ih h.2]
    cases edit <;> exact (OrdMap.getElem?_insert ..).trans (if_neg (Ne.symm h.1))

theorem heldAfter_deleting (changed : Changed K) (keys : List K) :
    heldAfter (keys.foldl (fun changed key => changed.insert key none) changed).toList
      ≤ heldAfter changed.toList := by
  induction keys generalizing changed with
  | nil => exact le_rfl
  | cons key keys ih =>
    refine (ih _).trans ?_
    have hinsert := OrdMap.total_insert changed (fun bytes => bytes.getD 0) key none
    exact Nat.le_of_add_right_le hinsert.le

end Measured

namespace Stored

variable {K V : Type} [LinearOrder K] {codec : Codec K V} {carried : Carried K V}
  {stored : Stored K} {records : StateRecords K V} {commit : StateCommit K V}

theorem unsaturated_deleting (hfits : records.Unsaturated carried commit)
    (markers : List DoneMarker) : records.Unsaturated carried (commit.deleting codec markers) := by
  have hless := Measured.heldAfter_deleting (Measured.of carried commit).changed
    (markers.map (DoneMarker.key codec))
  rw [StateRecords.Unsaturated] at hfits ⊢
  rw [← Measured.deleting_eq]
  exact (Nat.add_le_add_left hless _).trans hfits

/-- Deleting markers takes what their records take off what a commit leaves. -/
theorem Mirrors.after_deleting (h : stored.Mirrors carried records)
    (hfits : records.Unsaturated carried commit)
    (hdistinct : (markers.map (DoneMarker.key codec)).Nodup)
    (huntouched : ∀ marker ∈ markers, marker.key codec ∉ commit.stateDelta.map changedKey) :
    stored.after (Measured.of carried (commit.deleting codec markers)).changed
        + (markers.map fun marker => stored.bytes (marker.key codec)).sum
      = stored.after (Measured.of carried commit).changed := by
  have hdeleted : records.Unsaturated carried (commit.deleting codec markers) :=
    unsaturated_deleting hfits markers
  rw [StateRecords.Unsaturated, ← h.total] at hfits hdeleted
  rw [h.after_eq hfits, h.after_eq hdeleted, ← Measured.deleting_eq]
  simp only [Measured.deleting]
  rw [OrdMap.patch_foldl_insert_none, Nat.add_assoc]
  congr 1
  have herased := OrdMap.total_foldl_erase
    (stored.records.patch (Measured.of carried commit).changed) hdistinct
  rw [← herased, List.map_map]
  congr 2
  refine List.map_congr_left fun marker hmarker => ?_
  rw [Function.comp_apply, OrdMap.getElem?_patch, Measured.of,
    Measured.getElem?_changed_of_not_mem carried (huntouched marker hmarker)]
  simp [bytes]

end Stored

/-! ## Relief -/

/-- `markers` is the shortest prefix of `unplanned` that, deleted with `commit`, makes the state it
    leaves fit. -/
structure Shortest {K V : Type} [LinearOrder K] (codec : Codec K V) (carried : Carried K V)
    (limits : StateLimits) (records : StateRecords K V) (commit : StateCommit K V)
    (unplanned markers : List DoneMarker) : Prop where
  isPrefix : markers <+: unplanned
  fits : records.Fits carried limits (commit.deleting codec markers)
  least : ∀ fewer, fewer <+: unplanned → fewer.length < markers.length →
    ¬ records.Fits carried limits (commit.deleting codec fewer)

namespace Coordinator

variable {K V : Type} [LinearOrder K] {codec : Codec K V} {carried : Carried K V}
  {stored : Stored K} {records : StateRecords K V} {commit : StateCommit K V}
  {born : List (StreamName × K)} {c : Coordinator}

section

variable (h : stored.Mirrors carried records) (hfits : records.Unsaturated carried commit)
include h hfits

theorem fits_deleting_shorter (hstarts : markers <+: c.unplannedMarkers codec commit.stateDelta) :
    records.Fits carried stored.limits (commit.deleting codec markers) ↔
      stored.excess (Measured.of carried commit).changed
        ≤ (markers.map fun marker => stored.bytes (marker.key codec)).sum := by
  have hafter := h.after_deleting hfits
    ((nodup_unplannedMarkers codec c commit.stateDelta).sublist (hstarts.sublist.map _))
    fun marker hmarker => ((mem_unplannedMarkers codec).mp (hstarts.subset hmarker)).2.2
  have hdeleted : records.Unsaturated carried (commit.deleting codec markers) :=
    Stored.unsaturated_deleting hfits markers
  have hleaves := h.after_of hdeleted
  have htotal := h.total
  rw [StateRecords.Unsaturated, ← h.total] at hfits
  rw [h.excess_eq hfits, StateRecords.Fits]
  omega

theorem shortest_of_relief {count : Nat} (hrelief : stored.relief (Measured.of carried commit)
      ((c.unplannedMarkers codec commit.stateDelta).map (DoneMarker.key codec)) = some count) :
    Shortest codec carried stored.limits records commit (c.unplannedMarkers codec commit.stateDelta)
      ((c.unplannedMarkers codec commit.stateDelta).take count) := by
  obtain ⟨hcount, hreached, hshort⟩ := reach_eq_some _ hrelief
  rw [List.length_map] at hcount
  refine ⟨List.take_prefix _ _, ?_, fun fewer hfewer hless => ?_⟩
  · rw [fits_deleting_shorter h hfits (List.take_prefix _ _)]
    rwa [← List.map_take, List.map_map] at hreached
  · rw [List.length_take, min_eq_left hcount] at hless
    have hpast := hshort fewer.length hless
    rw [← List.map_take, ← List.prefix_iff_eq_take.mp hfewer, List.map_map] at hpast
    rw [fits_deleting_shorter h hfits hfewer]
    exact Nat.not_le.mpr hpast

/-- A commit relieved is sent with the shortest prefix of the markers that may go deleted that makes
    the state it leaves fit, and its request is within its limit. -/
theorem relieved_eq_ok {relief : Relieved K V}
    (hok : c.relieved codec carried stored commit born = .ok relief) :
    ∃ markers, Shortest codec carried stored.limits records commit
        (c.unplannedMarkers codec commit.stateDelta) markers ∧
      relief.commit = commit.deleting codec markers ∧
      relief.measured = Measured.of carried (commit.deleting codec markers) ∧
      relief.forgotten = byStream markers ∧
      carried.commitBytes (commit.deleting codec markers) ≤ stored.limits.request := by
  unfold relieved at hok
  dsimp only at hok
  split at hok
  · rename_i hadmit
    cases hok
    obtain ⟨hrequest, hfit⟩ := Stored.admit_eq_ok.mp hadmit
    have hnil := commit.deleting_nil codec
    refine ⟨[], ⟨List.nil_prefix, by rwa [hnil, ← h.fits_iff hfits], fun _ _ hless =>
      absurd hless (Nat.not_lt_zero _)⟩, ?_⟩
    rw [hnil]
    exact ⟨rfl, rfl, rfl, hrequest⟩
  · cases hok
  · split at hok
    · cases hok
    · cases hok
    · next hrelief =>
        split at hok
        · rename_i hadmit
          cases hok
          rw [Measured.deleting_eq] at hadmit
          exact ⟨_, shortest_of_relief h hfits hrelief, rfl, Measured.deleting_eq .., rfl,
            (Stored.admit_eq_ok.mp hadmit).1⟩
        · cases hok

/-- A commit refused is refused for the child tables it makes, without which it would fit; for its
    state, which does not fit with every marker that may go deleted; or for its request, with those
    that had to go. -/
theorem relieved_eq_error (herror : c.relieved codec carried stored commit born = .error refused)
    (hcode : refused.code = "state_bytes_exceeded") : (¬ records.Fits carried stored.limits
        (commit.deleting codec (c.unplannedMarkers codec commit.stateDelta))) ∨
      ∃ markers, Shortest codec carried stored.limits records commit
          (c.unplannedMarkers codec commit.stateDelta) markers ∧
        stored.limits.request < carried.commitBytes (commit.deleting codec markers) := by
  unfold relieved at herror
  dsimp only at herror
  split at herror
  · cases herror
  · obtain rfl := Except.error.inj herror
    exact absurd hcode (show "child_tables_exceeded" ≠ "state_bytes_exceeded" by decide)
  · next hadmit =>
    split at herror
    · rename_i hrelief
      have hpast := reach_eq_none _ hrelief
      rw [List.map_map] at hpast
      rw [fits_deleting_shorter h hfits (List.prefix_refl _)]
      exact Or.inl (Nat.not_le.mpr hpast)
    · rename_i hrelief
      -- The state fits, so it is the request that does not.
      have hshortest := shortest_of_relief h hfits hrelief
      refine Or.inr ⟨_, hshortest, ?_⟩
      have hfit := hshortest.fits
      rw [List.take_zero, StateCommit.deleting_nil] at hfit ⊢
      exact (Stored.admit_of_fits ((h.fits_iff hfits).mpr hfit) hadmit).2
    · next hrelief =>
        have hshortest := shortest_of_relief h hfits hrelief
        refine Or.inr ⟨_, hshortest, ?_⟩
        split at herror
        · cases herror
        · rename_i hagain
          rw [Measured.deleting_eq] at hagain
          have hfit := (h.fits_iff (Stored.unsaturated_deleting hfits _)).mpr hshortest.fits
          exact (Stored.admit_of_fits hfit hagain).2

/-- A commit refused for its child tables makes some, and its state fits without their records. -/
theorem fits_unborn_of_relieved
    (herror : c.relieved codec carried stored commit born = .error refused)
    (hcode : refused.code = "child_tables_exceeded") :
    born ≠ [] ∧ stored.fits ((Measured.of carried commit).unborn born) = true := by
  unfold relieved at herror
  dsimp only at herror
  split at herror
  · cases herror
  · next hadmit => exact Stored.fits_unborn_of_admit (Except.error.inj herror ▸ hadmit) hcode
  · split at herror
    · exact (StateRefusal.ne_stateBytesExceeded hcode (Except.error.inj herror).symm).elim
    · exact (StateRefusal.ne_stateBytesExceeded hcode (Except.error.inj herror).symm).elim
    · next hrelief =>
        split at herror
        · cases herror
        · rename_i hagain
          rw [Measured.deleting_eq] at hagain
          have hfit := (h.fits_iff (Stored.unsaturated_deleting hfits _)).mpr
            (shortest_of_relief h hfits hrelief).fits
          have hbytes := (Stored.admit_of_fits hfit hagain).1
          rw [Except.error.inj herror, hcode] at hbytes
          exact absurd hbytes (by decide)

end

/-- Stored state is measured exactly and relieved by the least. Over commits that land on the state
    an open answered with, no sum of sizes saturating, the total kept is what an open's answer with
    every stored record holds. A commit admitted then leaves a state within its limit or no larger
    than before, and sends a request within its limit. A commit relieved is measured as it is sent,
    with nothing added but the deletes of the shortest prefix that makes the state it leaves fit of
    the done markers that may go: those of the attempt's streams no latest plan names and the commit
    does not change, in order of the epoch that recorded them. A commit refused for its bytes would
    not fit with every such marker deleted, or its request, with those that had to go, is past its
    limit; any other is refused for the child tables it makes, without whose records its state
    fits. -/
theorem relieved_by_least (codec : Codec K V) (carried : Carried K V) (limits : StateLimits)
    (opened : List (Records.StateRecord K V)) (landed : List (StateCommit K V))
    (hopened : (StateRecords.of opened).bytes carried ≤ u64Max)
    (hlanded : ∀ before commit later, landed = before ++ commit :: later →
      StateRecords.Unsaturated carried
        (before.foldl (fun records commit => records.land commit.stateDelta)
          (StateRecords.of opened)) commit) :
    let stored := (Stored.of carried opened limits).landed carried landed
    let records := landed.foldl (fun records commit => records.land commit.stateDelta)
      (StateRecords.of opened)
    stored.total = records.bytes carried ∧
    ∀ commit born, records.Unsaturated carried commit →
      (stored.admits (Measured.of carried commit) born = .ok () →
        records.Fits carried limits commit ∧ carried.commitBytes commit ≤ limits.request) ∧
      ∀ c : Coordinator,
        let unplanned := c.unplannedMarkers codec commit.stateDelta
        unplanned.Pairwise (fun earlier later => earlier.epoch ≤ later.epoch) ∧
        (∀ marker, marker ∈ unplanned ↔ c.done[marker.partition]? = some marker.epoch ∧
            (∃ named, c.namedBy[marker.stream]? = some named ∧ marker.id ∉ named) ∧
            marker.key codec ∉ commit.stateDelta.map changedKey) ∧
        (∀ relief, c.relieved codec carried stored commit born = .ok relief →
          ∃ markers, Shortest codec carried limits records commit unplanned markers ∧
            relief.commit = commit.deleting codec markers ∧
            relief.measured = Measured.of carried relief.commit ∧
            relief.forgotten = byStream markers ∧
            carried.commitBytes relief.commit ≤ limits.request) ∧
        ∀ refused, c.relieved codec carried stored commit born = .error refused →
          (refused.code = "state_bytes_exceeded" →
            (¬ records.Fits carried limits (commit.deleting codec unplanned)) ∨
              ∃ markers, Shortest codec carried limits records commit unplanned markers ∧
                limits.request < carried.commitBytes (commit.deleting codec markers)) ∧
          (refused.code = "child_tables_exceeded" →
            born ≠ [] ∧ stored.fits ((Measured.of carried commit).unborn born) = true) := by
  have hmirrors := (Stored.mirrors_of limits hopened).landed landed hlanded
  have hlimits : ((Stored.of carried opened limits).landed carried landed).limits = limits :=
    Stored.limits_landed carried _ landed
  intro stored records
  refine ⟨hmirrors.total, fun commit born hfits => ⟨fun hadmit => ?_, fun c => ⟨?_, ?_, ?_, ?_⟩⟩⟩
  · obtain ⟨hrequest, hfit⟩ := Stored.admit_eq_ok.mp hadmit
    have hfit := (hmirrors.fits_iff hfits).mp hfit
    rw [hlimits] at hrequest hfit
    exact ⟨hfit, hrequest⟩
  · refine ((c.done.listed_pairwise).sublist List.filter_sublist).imp fun {left right} hle => ?_
    exact Prod.Lex.monotone_fst left right hle
  · exact fun marker => mem_unplannedMarkers codec
  · intro relief hok
    obtain ⟨markers, hshortest, hcommit, hmeasured, hforgotten, hrequest⟩ :=
      relieved_eq_ok hmirrors hfits hok
    rw [hlimits] at hshortest hrequest
    rw [← hcommit] at hmeasured hrequest
    exact ⟨markers, hshortest, hcommit, hmeasured, hforgotten, hrequest⟩
  · intro refused herror
    refine ⟨fun hcode => ?_, fits_unborn_of_relieved hmirrors hfits herror⟩
    have hrefused := relieved_eq_error hmirrors hfits herror hcode
    rw [hlimits] at hrefused
    exact hrefused

def fewBytes : Carried Records.StateKey Records.StateEntry where
  answer := 10
  entry := 4
  put := 5
  delete := 3
  fieldBytes length := length + 1
  keyLength _ := 2
  valueLength _ := 3

def twoDone : List (Records.StateRecord Records.StateKey Records.StateEntry) :=
  [Records.StateEntry.toRecord Codec.plain (.partition "orders" "a" .done 2),
    Records.StateEntry.toRecord Codec.plain (.partition "orders" "b" .done 1)]

def putting (entry : Records.StateEntry) : StateCommit Records.StateKey Records.StateEntry where
  others := 20
  stateDelta := [.put (Records.StateEntry.toRecord Codec.plain entry)]

/-- An attempt whose latest plan names neither of the two, the first of which was recorded last. -/
def replanned : Coordinator where
  streams := [{ name := "orders", named := {"c"} }]
  partitions := []
  epoch := 3
  unended := 0
  done := ((∅ : DoneMarkers).insert (toLex ("orders", "a")) 2).insert (toLex ("orders", "b")) 1

theorem relieved_by_least_replanned : ∃ relief markers, replanned.relieved Codec.plain fewBytes
          ((Stored.of fewBytes twoDone ⟨45, 100⟩).landed fewBytes [putting (.epoch 3)])
          (putting (.partition "orders" "c" (.cursor []) 3)) [] = .ok relief ∧
        relief.forgotten["orders"]? = some ["b"] ∧ Shortest Codec.plain fewBytes ⟨45, 100⟩
          ((StateRecords.of twoDone).land (putting (.epoch 3)).stateDelta)
          (putting (.partition "orders" "c" (.cursor []) 3)) (replanned.unplannedMarkers Codec.plain
            (putting (.partition "orders" "c" (.cursor []) 3)).stateDelta) markers := by
  obtain ⟨-, hcommits⟩ := relieved_by_least Codec.plain fewBytes ⟨45, 100⟩ twoDone
    [putting (.epoch 3)] (by decide +kernel) (by
      intro before commit later heq
      obtain ⟨rfl, hrest⟩ | ⟨_, rfl, hrest⟩ := List.cons_eq_append_iff.mp heq
      · obtain ⟨rfl, rfl⟩ := List.cons.inj hrest
        exact show _ ≤ _ by decide +kernel
      · simp at hrest)
  obtain ⟨-, hattempts⟩ := hcommits (putting (.partition "orders" "c" (.cursor []) 3)) []
    (show _ ≤ _ by decide +kernel)
  obtain ⟨-, -, hrelieved, -⟩ := hattempts replanned
  set result := replanned.relieved Codec.plain fewBytes
    ((Stored.of fewBytes twoDone ⟨45, 100⟩).landed fewBytes [putting (.epoch 3)])
    (putting (.partition "orders" "c" (.cursor []) 3)) []
  have hok : (result.toOption.bind fun relief => relief.forgotten["orders"]?) = some ["b"] := by
    decide +kernel
  cases hrelief : result with
  | error refused =>
    rw [hrelief] at hok
    cases hok
  | ok relief =>
    rw [hrelief] at hok
    obtain ⟨markers, hshortest, -⟩ := hrelieved relief hrelief
    exact ⟨relief, markers, rfl, hok, hshortest⟩

end Coordinator

end Rdlt.Engine
