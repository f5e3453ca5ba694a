/-
  Rdlt.Engine.Stored

  The state a destination stores for a pipeline, as the messages that carry it
  hold it decoded: each record's bytes, and the limit a commit keeps them, and
  its own request, within.
-/

import Rdlt.Connector.Records
import Rdlt.Lib.Patch

namespace Rdlt.Engine

open Lib

open Records (StateRecord)

variable {K V : Type}

/-! ## What messages hold -/

/-- What the messages that carry state hold decoded, as the host's scan counts them: an open's
    answer with no records, one record's entry in it, a put's and a delete's in a commit's request,
    and a text of a length. -/
structure Carried (K V : Type) where
  answer : Nat
  entry : Nat
  put : Nat
  delete : Nat
  fieldBytes : Nat → Nat
  keyLength : K → Nat
  valueLength : V → Nat

/-- A commit as its state is admitted: what its request holds but for its state changes, and
    those. -/
structure StateCommit (K V : Type) where
  others : Nat
  stateDelta : List (Records.StateChange K V)
  deriving DecidableEq, Repr

namespace Carried

variable (carried : Carried K V)

/-- What a field of `length` bytes holds, where the encoding leaves out an empty one. -/
def present (length : Nat) : Nat := if length = 0 then 0 else carried.fieldBytes length

/-- What `record` adds to an open's answer, as one of the records it carries. -/
def recordBytes (record : StateRecord K V) : Nat :=
  saturatingAdd
    (saturatingAdd carried.entry (carried.present (carried.keyLength record.key)))
    (carried.present (carried.valueLength record.value))

def changeBytes : Records.StateChange K V → Nat
  | .put record =>
    saturatingAdd
      (saturatingAdd carried.put (carried.present (carried.keyLength record.key)))
      (carried.present (carried.valueLength record.value))
  -- A delete is one of a choice of members, written however short its key.
  | .delete key => saturatingAdd carried.delete (carried.fieldBytes (carried.keyLength key))

def commitBytes (commit : StateCommit K V) : Nat :=
  (commit.stateDelta.map carried.changeBytes).foldl saturatingAdd commit.others

end Carried

/-! ## Stored state -/

/-- What the stored state may hold in an open's answer, and what a commit's request may hold. -/
structure StateLimits where
  stored : Nat
  request : Nat
  deriving DecidableEq, Repr

variable [LinearOrder K]

/-- What each record a commit changes takes once it lands, by key, its last change counting; none
    where it is deleted. -/
abbrev Changed (K : Type) [LinearOrder K] := OrdMap K (Option Nat)

/-- A commit's state changes and its request as its admission measures them. -/
structure Measured (K : Type) [LinearOrder K] where
  changed : Changed K
  request : Nat

namespace Measured

variable (carried : Carried K V)

def note (changed : Changed K) : Records.StateChange K V → Changed K
  | .put record => changed.insert record.key (some (carried.recordBytes record))
  | .delete key => changed.insert key none

def of (commit : StateCommit K V) : Measured K where
  changed := commit.stateDelta.foldl (note carried) ∅
  request := carried.commitBytes commit

/-- These changes with `deleted` deleted after them, and the request of `commit`, which carries
    those deletes. -/
def deleting (measured : Measured K) (commit : StateCommit K V) (deleted : List K) :
    Measured K where
  changed := deleted.foldl (fun changed key => changed.insert key none) measured.changed
  request := carried.commitBytes commit

/-- These changes without the records of the child tables `born` names by their keys, which have
    nothing stored and so are unchanged without them. -/
def unborn (measured : Measured K) (born : List (StreamName × K)) : Changed K :=
  measured.changed.filter fun key bytes => bytes.isNone || !born.any fun child => child.2 = key

end Measured

/-- The bytes each stored record adds to an open's answer, and what the answer holds. -/
structure Stored (K : Type) [LinearOrder K] where
  records : OrdMap K Nat
  total : Nat
  limits : StateLimits

/-- Why a commit is refused for the state it leaves or its request. -/
inductive StateRefusal where
  | childTablesExceeded (stream : StreamName) (left stored : Nat)
  | stateBytesExceeded (left stored request sent : Nat)
  deriving DecidableEq, Repr

namespace StateRefusal

def code : StateRefusal → String
  | .childTablesExceeded .. => "child_tables_exceeded"
  | .stateBytesExceeded .. => "state_bytes_exceeded"

def message : StateRefusal → String
  | .childTablesExceeded stream left stored =>
    s!"stream {stream}: its new child tables would leave {left} bytes of state, where " ++
    s!"{stored} may be stored"
  | .stateBytesExceeded left stored request sent =>
    s!"a commit would leave {left} bytes of state, where {stored} may be stored, and send " ++
    s!"{request} in its request, where {sent} may be: raise the memory or the state limit, " ++
    "or reset the streams whose positions or tables grew it"

theorem ne_stateBytesExceeded {refused : StateRefusal}
    (hcode : refused.code = "child_tables_exceeded") {left stored request sent : Nat} :
    refused ≠ .stateBytesExceeded left stored request sent := by
  rintro rfl
  exact absurd hcode (show "state_bytes_exceeded" ≠ "child_tables_exceeded" by decide)

end StateRefusal

namespace Stored

def of (carried : Carried K V) (records : List (StateRecord K V)) (limits : StateLimits) :
    Stored K :=
  let records : OrdMap K Nat := records.foldl (fun sizes record =>
    sizes.insert record.key (carried.recordBytes record)) ∅
  { records
    total := (records.toList.map Prod.snd).foldl saturatingAdd carried.answer
    limits }

variable (stored : Stored K)

section

variable (changed : Changed K) (measured : Measured K)

def bytes (key : K) : Nat := stored.records[key]?.getD 0

/-- What the stored records take once `changed` lands. -/
def after : Nat :=
  changed.toList.foldl (moveTotal stored.bytes) stored.total

/-- By how much `changed` leaves the records taking more than they take. -/
def growth : Nat :=
  let grown := changed.toList.foldl (moveGrowth stored.bytes) (0, 0)
  grown.1 - grown.2

/-- By how much the state `changed` leaves passes what may stand: its limit or, where state is past
    it already, what is stored. -/
def excess : Nat :=
  min (stored.after changed - stored.limits.stored) (stored.growth changed)

/-- Whether the state `changed` leaves fits its limit, or is no larger than what is stored. -/
def fits : Bool := stored.excess changed == 0

/-- Admits the commit `measured` measures: the state it leaves within its limit or no more than is
    stored, and its own request within its limit. The records of child tables not recorded yet,
    `born` by key and stream, are blamed first. -/
def admits (born : List (StreamName × K)) : Except StateRefusal Unit :=
  let left := stored.after measured.changed
  let fits := decide (measured.request ≤ stored.limits.request)
  if fits && stored.fits measured.changed then .ok ()
  else
    let refused := StateRefusal.stateBytesExceeded left stored.limits.stored measured.request
      stored.limits.request
    match born.head? with
    | some (stream, _) =>
      if fits && stored.fits (measured.unborn born) then
        .error (.childTablesExceeded stream left stored.limits.stored)
      else .error refused
    | none => .error refused

/-- The state once the commit `measured` measures landed. -/
def apply : Stored K :=
  { stored with
    total := stored.after measured.changed
    records := stored.records.patch measured.changed }

/-- How many of the stored records at `keys`, deleted in order with the commit `measured` measures,
    it needs deleted for the state it leaves to fit. -/
def relief (keys : List K) : Option Nat :=
  Lib.reach stored.bytes (stored.excess measured.changed) keys

end

end Stored

/-! ## What is stored -/

abbrev StateRecords (K V : Type) [LinearOrder K] := OrdMap K V

variable {changed : Changed K}

namespace StateRecords

section

variable (carried : Carried K V) (records : StateRecords K V)

def of (records : List (StateRecord K V)) : StateRecords K V :=
  records.foldl (fun held record => held.insert record.key record.value) ∅

def change : Records.StateChange K V → StateRecords K V
  | .put record => records.insert record.key record.value
  | .delete key => records.erase key

def land (delta : List (Records.StateChange K V)) : StateRecords K V :=
  delta.foldl change records

/-- What an open's answer that carries the records holds. -/
def bytes : Nat :=
  carried.answer + (records.toList.map fun entry => carried.recordBytes ⟨entry.1, entry.2⟩).sum

def sizes : OrdMap K Nat :=
  records.map fun key value => carried.recordBytes ⟨key, value⟩

end

variable (carried : Carried K V) (records : StateRecords K V)

theorem getElem?_sizes (key : K) :
    (records.sizes carried)[key]? = records[key]?.map fun value =>
      carried.recordBytes ⟨key, value⟩ :=
  Std.ExtTreeMap.getElem?_map

theorem bytes_eq : records.bytes carried = carried.answer + (records.sizes carried).total id := by
  rw [bytes, sizes, OrdMap.total, Std.ExtTreeMap.toList_map, List.map_map]
  rfl

theorem sizes_change {sizes : OrdMap K Nat} (h : records.sizes carried = sizes.patch changed)
    (edit : Records.StateChange K V) :
    (records.change edit).sizes carried = sizes.patch (Measured.note carried changed edit) := by
  refine OrdMap.ext fun key => ?_
  have hkey : (records.sizes carried)[key]? = (sizes.patch changed)[key]? := by rw [h]
  rw [getElem?_sizes, OrdMap.getElem?_patch] at hkey ⊢
  cases edit with
  | put record =>
    rw [change, Measured.note, OrdMap.getElem?_insert, OrdMap.getElem?_insert]
    split
    · next heq => simp [← heq]
    · exact hkey
  | delete other =>
    rw [change, Measured.note, OrdMap.getElem?_erase, OrdMap.getElem?_insert]
    split
    · rfl
    · exact hkey

theorem sizes_land (commit : StateCommit K V) : (records.land commit.stateDelta).sizes carried
      = (records.sizes carried).patch (Measured.of carried commit).changed := by
  have hland : ∀ (delta : List (Records.StateChange K V)) (held : StateRecords K V)
      (changed : Changed K), held.sizes carried = (records.sizes carried).patch changed →
      (held.land delta).sizes carried
        = (records.sizes carried).patch (delta.foldl (Measured.note carried) changed) := by
    intro delta
    induction delta with
    | nil => exact fun _ _ h => h
    | cons edit delta ih => exact fun held changed h => ih _ _ (sizes_change carried held h edit)
  exact hland commit.stateDelta records ∅ rfl

theorem sizes_of (opened : List (StateRecord K V)) : (of opened).sizes carried
      = opened.foldl (fun sizes record =>
          sizes.insert record.key (carried.recordBytes record)) ∅ := by
  have hopened : ∀ (opened : List (StateRecord K V)) (held : StateRecords K V),
      (opened.foldl (fun held record => held.insert record.key record.value) held).sizes carried
        = opened.foldl (fun sizes record =>
            sizes.insert record.key (carried.recordBytes record)) (held.sizes carried) := by
    intro opened
    induction opened with
    | nil => exact fun _ => rfl
    | cons record opened ih =>
      intro held
      rw [List.foldl_cons, List.foldl_cons, ih]
      congr 1
      refine OrdMap.ext fun key => ?_
      rw [getElem?_sizes, OrdMap.getElem?_insert, OrdMap.getElem?_insert, getElem?_sizes]
      split
      · next heq => simp [← heq]
      · rfl
  exact hopened opened ∅

/-- No sum that measures the commit saturates. -/
def Unsaturated (commit : StateCommit K V) : Prop :=
  records.bytes carried + heldAfter (Measured.of carried commit).changed.toList ≤ u64Max

end StateRecords

/-! ## What is measured is what is stored -/

namespace Stored

variable {carried : Carried K V} {stored : Stored K} {records : StateRecords K V}

/-- What is kept of the stored state is what its records take. -/
structure Mirrors (carried : Carried K V) (stored : Stored K) (records : StateRecords K V) :
    Prop where
  sizes : stored.records = records.sizes carried
  total : stored.total = records.bytes carried
  bounded : stored.total ≤ u64Max

section

variable (h : stored.Mirrors carried records)
include h

theorem Mirrors.total_eq : stored.total = carried.answer + stored.records.total id := by
  rw [h.total, StateRecords.bytes_eq, h.sizes]

theorem Mirrors.after_eq (hfits : stored.total + heldAfter changed.toList ≤ u64Max) :
    stored.after changed = carried.answer + (stored.records.patch changed).total id := by
  have hheld := stored.records.heldBefore_le changed
  have hpatch := stored.records.total_patch changed
  have htotal := h.total_eq
  have hmoved := foldl_moveTotal stored.bytes changed.toList stored.total
    (hheld.trans (by omega)) hfits
  change stored.after changed + heldBefore (fun key => stored.records[key]?.getD 0) _ = _
    at hmoved
  omega

theorem Mirrors.growth_eq (hfits : stored.total + heldAfter changed.toList ≤ u64Max) :
    stored.growth changed = stored.after changed - stored.total := by
  have hheld := stored.records.heldBefore_le changed
  have htotal := h.total_eq
  have hbound := h.bounded
  have hmoved := foldl_moveTotal stored.bytes changed.toList stored.total
    (hheld.trans (by omega)) hfits
  have hgrown := foldl_moveGrowth stored.bytes changed.toList (0, 0) (by
      change 0 + heldBefore (fun key => stored.records[key]?.getD 0) _ ≤ _
      omega)
    (by omega)
  change stored.after changed + _ = _ at hmoved
  dsimp only [growth]
  omega

theorem Mirrors.excess_eq (hfits : stored.total + heldAfter changed.toList ≤ u64Max) :
    stored.excess changed = stored.after changed - max stored.limits.stored stored.total := by
  rw [excess, h.growth_eq hfits]
  omega

theorem Mirrors.apply {commit : StateCommit K V} (hfits : records.Unsaturated carried commit) :
    (stored.apply (Measured.of carried commit)).Mirrors carried
      (records.land commit.stateDelta) := by
  rw [StateRecords.Unsaturated, ← h.total] at hfits
  have hafter := h.after_eq hfits
  have hsizes : stored.records.patch (Measured.of carried commit).changed
      = (records.land commit.stateDelta).sizes carried := by
    rw [h.sizes, StateRecords.sizes_land]
  refine ⟨hsizes, ?_, ?_⟩
  · rw [StateRecords.bytes_eq, ← hsizes]
    exact hafter
  · have hpatch := stored.records.total_patch (Measured.of carried commit).changed
    have htotal := h.total_eq
    change stored.after _ ≤ _
    omega

end

theorem mirrors_of {opened : List (StateRecord K V)} (limits : StateLimits)
    (hfits : (StateRecords.of opened).bytes carried ≤ u64Max) :
    (Stored.of carried opened limits).Mirrors carried (StateRecords.of opened) := by
  have hsum : ∀ (l : List Nat) (start : Nat), start + l.sum ≤ u64Max →
      l.foldl saturatingAdd start = start + l.sum := by
    intro l
    induction l with
    | nil => exact fun _ _ => rfl
    | cons n l ih =>
      intro start hfits
      rw [List.sum_cons] at hfits ⊢
      rw [List.foldl_cons, saturatingAdd_of_le (by omega), ih _ (by omega), Nat.add_assoc]
  have hsizes : (Stored.of carried opened limits).records
      = (StateRecords.of opened).sizes carried :=
    (StateRecords.sizes_of carried opened).symm
  have htotal :
      (Stored.of carried opened limits).total = (StateRecords.of opened).bytes carried := by
    rw [StateRecords.bytes_eq, ← hsizes] at hfits ⊢
    exact hsum _ _ hfits
  exact ⟨hsizes, htotal, htotal ▸ hfits⟩

def landed (carried : Carried K V) (stored : Stored K) (commits : List (StateCommit K V)) :
    Stored K :=
  commits.foldl (fun stored commit => stored.apply (Measured.of carried commit)) stored

theorem Mirrors.landed (h : stored.Mirrors carried records) (commits : List (StateCommit K V))
    (hfits : ∀ before commit later, commits = before ++ commit :: later →
      StateRecords.Unsaturated carried
        (before.foldl (fun records commit => records.land commit.stateDelta) records) commit) :
    (stored.landed carried commits).Mirrors carried
      (commits.foldl (fun records commit => records.land commit.stateDelta) records) := by
  induction commits generalizing stored records with
  | nil => exact h
  | cons commit commits ih =>
    refine ih (h.apply (hfits [] commit commits rfl)) fun before other later heq => ?_
    exact hfits (commit :: before) other later (by rw [heq, List.cons_append])

@[simp] theorem limits_landed (carried : Carried K V) (stored : Stored K)
    (commits : List (StateCommit K V)) :
    (stored.landed carried commits).limits = stored.limits := by
  induction commits generalizing stored with
  | nil => rfl
  | cons commit commits ih => exact ih (stored.apply (Measured.of carried commit))

end Stored

end Rdlt.Engine
