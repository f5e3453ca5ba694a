/-
  Rdlt.Wire.Flow

  Flow control of a data-plane call. A receiver grants credit: its floor as the
  call opens, then for each frame it takes the frame's bytes and whatever its
  window grows by, to two of the largest frames it took.
-/

import Rdlt.Lib.Saturating

namespace Rdlt.Wire

open Lib (u64Max saturatingAdd)

/-! ## Granting and spending -/

/-- Bytes: what a message takes around its frame. -/
def messageOverhead : Nat := 64 * 1024

def dataWireBound (frameBytes : Nat) : Nat := saturatingAdd (min frameBytes u64Max) messageOverhead

/-- A number between two others, or the nearer of them. -/
def clamp (least greatest n : Nat) : Nat := min (max n least) greatest

/-- A receiver's credit: its floor, its own data wire bound and its window. -/
structure Granting where
  floor : Nat
  limit : Nat
  window : Nat
  deriving DecidableEq, Repr

namespace Granting

/-- A receiver whose window starts at `floor`, at least a byte and at most a frame of its bound. -/
def new (floor frameBytes : Nat) : Granting :=
  let limit := dataWireBound frameBytes
  let floor := clamp 1 (max limit 1) floor
  { floor, limit, window := floor }

def opening (granting : Granting) : Nat := granting.floor

/-- Bytes the window grows by once a frame of `bytes` is taken, to hold two such frames. -/
def growth (granting : Granting) (bytes : Nat) : Nat :=
  let two := min (2 * min bytes granting.limit) u64Max
  clamp granting.floor (max granting.limit granting.floor) two - granting.window

/-- The credit a frame of `bytes` returns once taken, and the receiver then. -/
def taken (granting : Granting) (bytes : Nat) : Nat × Granting :=
  (saturatingAdd bytes (granting.growth bytes),
   { granting with window := granting.window + granting.growth bytes })

end Granting

def i64Max : Int := 2 ^ 63 - 1

def i64Min : Int := -2 ^ 63

/-- A number of 64 signed bits, stopping at the least and the greatest. -/
def saturating (n : Int) : Int := max i64Min (min n i64Max)

/-- An unsigned number as a signed one, stopping at the greatest. -/
def signed (n : Nat) : Int := min (n : Int) i64Max

/-- A sender's credit: what its receiver granted less what its frames spent. -/
structure Spending where
  credit : Int := 0
  deriving DecidableEq, Repr

inductive ZeroGrant where
  | zeroGrant
  deriving DecidableEq, Repr

namespace Spending

/-- Whether a frame may go: while any credit is left. -/
def maySend (spending : Spending) : Bool := spending.credit > 0

def spend (spending : Spending) (bytes : Nat) : Spending where
  credit := saturating (spending.credit - signed bytes)

def grant (spending : Spending) (bytes : Nat) : Except ZeroGrant Spending :=
  if bytes = 0 then .error .zeroGrant
  else .ok { credit := saturating (spending.credit + signed bytes) }

end Spending

/-! ## A call -/

/-- A data-plane call: both ends, the frames sent and not taken, the grants not yet arrived, oldest
    first, and the largest frame sent. -/
structure Call where
  granting : Granting
  spending : Spending := {}
  frames : List Nat := []
  grants : List Nat
  largest : Nat := 0
  deriving DecidableEq, Repr

inductive CallEvent where
  /-- The sender sends a frame. -/
  | send (bytes : Nat)
  /-- The receiver takes the oldest frame and grants its credit. -/
  | take
  /-- The oldest grant arrives. -/
  | arrive
  deriving DecidableEq, Repr

namespace Call

def opened (floor frameBytes : Nat) : Call :=
  let granting := Granting.new floor frameBytes
  { granting, grants := [granting.opening] }

/-- A call once `event` happens; none where it cannot, as a frame that is empty, is past the bound
    or has no credit to go. -/
def step (call : Call) : CallEvent → Option Call
  | .send bytes =>
    if call.spending.maySend ∧ 1 ≤ bytes ∧ bytes ≤ call.granting.limit then
      some { call with
        spending := call.spending.spend bytes
        frames := call.frames ++ [bytes]
        largest := max call.largest bytes }
    else none
  | .take =>
    match call.frames with
    | [] => none
    | bytes :: frames =>
      let (granted, granting) := call.granting.taken bytes
      some { call with granting, frames, grants := call.grants ++ [granted] }
  | .arrive =>
    match call.grants with
    | [] => none
    | bytes :: grants =>
      match call.spending.grant bytes with
      | .error _ => none
      | .ok spending => some { call with spending, grants }

def run (call : Call) (events : List CallEvent) : Option Call := events.foldlM step call

/-- What the two ends and what is between them hold together. -/
structure Sound (call : Call) : Prop where
  /-- Where twice the bound fits in 64 signed bits, credit, frames sent and not taken, and grants
      not yet arrived, are the window. -/
  conserved : 2 * (call.granting.limit : Int) ≤ i64Max →
    call.spending.credit + call.frames.sum + call.grants.sum = call.granting.window
  /-- Counted as signed numbers of 64 bits they leave the sender some credit, whatever the bound. -/
  left : 0 < call.spending.credit + (call.frames.map signed).sum + (call.grants.map signed).sum
  positive : 1 ≤ call.granting.floor
  above : call.granting.floor ≤ call.granting.window
  within : call.granting.window ≤ call.granting.limit
  frames : ∀ bytes ∈ call.frames, 1 ≤ bytes ∧ bytes ≤ call.granting.limit
  grants : ∀ bytes ∈ call.grants, bytes ≠ 0
  owed : -(call.largest : Int) ≤ call.spending.credit
  held : call.spending.credit ≤ i64Max
  largest : call.largest ≤ call.granting.limit

theorem saturating_of_le {n : Int} (hleast : i64Min ≤ n) (hgreatest : n ≤ i64Max) :
    saturating n = n := by
  rw [saturating, min_eq_left hgreatest, max_eq_right hleast]

theorem saturating_le (n : Int) : saturating n ≤ i64Max :=
  max_le (by decide) (min_le_right ..)

theorem signed_of_le {n : Nat} (h : (n : Int) ≤ i64Max) : signed n = n := min_eq_left h

theorem signed_le (n : Nat) : 0 ≤ signed n ∧ signed n ≤ n ∧ signed n ≤ i64Max := by
  unfold signed i64Max
  omega

theorem sum_signed_nonneg (l : List Nat) : 0 ≤ (l.map signed).sum := by
  refine List.sum_nonneg fun n hn => ?_
  obtain ⟨bytes, -, rfl⟩ := List.mem_map.mp hn
  exact (signed_le bytes).1

/-- What a frame returns counts for no less than the frame. -/
theorem signed_le_saturatingAdd (bytes more : Nat) :
    signed bytes ≤ signed (saturatingAdd bytes more) := by
  unfold signed saturatingAdd u64Max i64Max
  omega

variable {call after : Call}

/-- The window after a frame is taken is no larger than the bound. -/
theorem growth_add_window (h : call.Sound) (bytes : Nat) :
    call.granting.window + call.granting.growth bytes ≤ call.granting.limit := by
  have habove := h.above
  have hwithin := h.within
  unfold Granting.growth clamp
  dsimp only
  omega

section

variable (h : call.Sound)
include h

theorem Sound.send {bytes : Nat} (hstep : call.step (.send bytes) = some after) :
    after.Sound ∧ after.granting = call.granting := by
  rw [step] at hstep
  split at hstep
  · rename_i hguard
    cases hstep
    obtain ⟨hmay, hleast, hbound⟩ := hguard
    have hcredit : 0 < call.spending.credit := by simpa [Spending.maySend] using hmay
    obtain ⟨hnonneg, hle, hmax⟩ := signed_le bytes
    have hheld := h.held
    have hlargest := h.largest
    -- a frame goes only on some credit, so what it leaves is a signed number
    have hspent : saturating (call.spending.credit - signed bytes)
        = call.spending.credit - signed bytes :=
      saturating_of_le (by unfold i64Min; unfold i64Max at hmax; omega) (by omega)
    refine ⟨⟨fun hfits => ?_, ?_, h.positive, h.above, h.within, ?_, h.grants, ?_,
      saturating_le _, ?_⟩, rfl⟩
    · have hfits : 2 * (call.granting.limit : Int) ≤ i64Max := hfits
      have hconserved := h.conserved hfits
      have hsigned : signed bytes = bytes := signed_of_le (by omega)
      simp only [Spending.spend, hspent, List.sum_append, List.sum_singleton]
      omega
    · have hleft := h.left
      simp only [Spending.spend, hspent, List.map_append, List.map_singleton, List.sum_append,
        List.sum_singleton]
      omega
    · refine List.forall_mem_append.mpr ⟨h.frames, ?_⟩
      simpa using ⟨hleast, hbound⟩
    · simp only [Spending.spend, hspent]
      omega
    · exact max_le hlargest hbound
  · cases hstep

theorem Sound.take (hstep : call.step .take = some after) :
    after.Sound ∧ after.granting.limit = call.granting.limit ∧
      call.granting.window ≤ after.granting.window := by
  rw [step] at hstep
  split at hstep
  · cases hstep
  · rename_i bytes frames hframes
    cases hstep
    obtain ⟨⟨hleast, hbound⟩, hrest⟩ := List.forall_mem_cons.mp (hframes ▸ h.frames)
    have hgrown := growth_add_window h bytes
    refine ⟨⟨fun hfits => ?_, ?_, h.positive, h.above.trans (Nat.le_add_right _ _), hgrown, hrest,
      ?_, h.owed, h.held, h.largest⟩, rfl, Nat.le_add_right _ _⟩
    · have hfits : 2 * (call.granting.limit : Int) ≤ i64Max := hfits
      have hconserved := h.conserved hfits
      have hgranted : saturatingAdd bytes (call.granting.growth bytes)
          = bytes + call.granting.growth bytes := by
        refine Lib.saturatingAdd_of_le ?_
        unfold i64Max at hfits
        unfold u64Max
        omega
      rw [hframes, List.sum_cons] at hconserved
      simp only [hgranted, List.sum_append, List.sum_singleton]
      omega
    · have hleft := h.left
      have hreturned := signed_le_saturatingAdd bytes (call.granting.growth bytes)
      rw [hframes, List.map_cons, List.sum_cons] at hleft
      simp only [List.map_append, List.map_singleton, List.sum_append, List.sum_singleton]
      omega
    · refine List.forall_mem_append.mpr ⟨h.grants, ?_⟩
      simp only [List.forall_mem_singleton, saturatingAdd, u64Max]
      omega

theorem Sound.arrive (hstep : call.step .arrive = some after) :
    after.Sound ∧ after.granting = call.granting := by
  rw [step] at hstep
  split at hstep
  · cases hstep
  · rename_i bytes grants hgrants
    obtain ⟨hbytes, hrest⟩ := List.forall_mem_cons.mp (hgrants ▸ h.grants)
    obtain ⟨hnonneg, -, hmax⟩ := signed_le bytes
    have hheld := h.held
    have howed := h.owed
    rw [Spending.grant, if_neg hbytes] at hstep
    cases hstep
    refine ⟨⟨fun hfits => ?_, ?_, h.positive, h.above, h.within, h.frames, hrest, ?_,
      saturating_le _, h.largest⟩, rfl⟩
    · have hfits : 2 * (call.granting.limit : Int) ≤ i64Max := hfits
      have hconserved := h.conserved hfits
      rw [hgrants, List.sum_cons] at hconserved
      have hlargest := h.largest
      have hwithin := h.within
      have hcredit : saturating (call.spending.credit + signed bytes)
          = call.spending.credit + bytes := by
        unfold i64Max at hfits
        rw [signed_of_le (by unfold i64Max; omega)]
        exact saturating_of_le (by unfold i64Min; omega) (by unfold i64Max; omega)
      simp only [hcredit]
      omega
    · have hleft := h.left
      have hframes := sum_signed_nonneg call.frames
      have hothers := sum_signed_nonneg grants
      rw [hgrants, List.map_cons, List.sum_cons] at hleft
      unfold saturating i64Min i64Max
      dsimp only
      omega
    · unfold saturating i64Min
      unfold i64Max at hheld ⊢
      dsimp only
      omega

theorem Sound.step {event : CallEvent} (hstep : call.step event = some after) :
    after.Sound ∧ after.granting.limit = call.granting.limit ∧
      call.granting.window ≤ after.granting.window := by
  cases event with
  | send bytes =>
    obtain ⟨hsound, hgranting⟩ := h.send hstep
    exact ⟨hsound, by rw [hgranting], by rw [hgranting]⟩
  | take => exact h.take hstep
  | arrive =>
    obtain ⟨hsound, hgranting⟩ := h.arrive hstep
    exact ⟨hsound, by rw [hgranting], by rw [hgranting]⟩

theorem Sound.run {events : List CallEvent} (hrun : call.run events = some after) :
    after.Sound ∧ after.granting.limit = call.granting.limit ∧
      call.granting.window ≤ after.granting.window := by
  induction events generalizing call with
  | nil =>
    cases hrun
    exact ⟨h, rfl, le_rfl⟩
  | cons event events ih =>
    rw [Call.run, List.foldlM_cons] at hrun
    obtain ⟨next, hstep, hrun⟩ := Option.bind_eq_some_iff.mp hrun
    obtain ⟨hsound, hlimit, hwindow⟩ := h.step hstep
    obtain ⟨hafter, hlimit', hwindow'⟩ := ih hsound hrun
    exact ⟨hafter, hlimit'.trans hlimit, hwindow.trans hwindow'⟩

end

theorem sound_opened (floor frameBytes : Nat) : (opened floor frameBytes).Sound := by
  have hlimit : 1 ≤ dataWireBound frameBytes := by
    unfold dataWireBound saturatingAdd messageOverhead u64Max
    omega
  have hfloor : 1 ≤ clamp 1 (max (dataWireBound frameBytes) 1) floor ∧
      clamp 1 (max (dataWireBound frameBytes) 1) floor ≤ dataWireBound frameBytes := by
    unfold clamp
    omega
  refine ⟨fun _ => ?_, ?_, hfloor.1, le_rfl, hfloor.2, nofun, ?_, le_rfl,
    show (0 : Int) ≤ i64Max by decide, Nat.zero_le _⟩
  · simp [opened, Granting.new, Granting.opening]
  · simp only [opened, Granting.new, Granting.opening, List.map_nil, List.map_singleton,
      List.sum_nil, List.sum_singleton, signed, i64Max]
    omega
  · simp only [opened, List.forall_mem_singleton]
    exact Nat.one_le_iff_ne_zero.mp hfloor.1

/-- On every run of a call the window never shrinks and is between the floor and the bound, credit
    is never below minus the largest frame sent, no grant is of no bytes, and the sender may send
    where nothing is in flight; and where the bound, twice, fits in 64 signed bits, the sender's
    credit, the frames sent and not taken and the grants not yet arrived are the window. -/
theorem credit_conserved (floor frameBytes : Nat) (events later : List CallEvent)
    (call after : Call) (hrun : (opened floor frameBytes).run events = some call)
    (hlater : call.run later = some after) :
    (2 * (dataWireBound frameBytes : Int) ≤ i64Max →
      call.spending.credit + call.frames.sum + call.grants.sum = call.granting.window) ∧
    call.granting.window ≤ after.granting.window ∧
    call.granting.floor ≤ call.granting.window ∧
    call.granting.window ≤ call.granting.limit ∧
    -(call.largest : Int) ≤ call.spending.credit ∧
    (∀ bytes ∈ call.grants, bytes ≠ 0) ∧
    (call.frames = [] → call.grants = [] → call.spending.maySend) := by
  obtain ⟨hsound, hlimit, -⟩ := (sound_opened floor frameBytes).run hrun
  obtain ⟨-, -, hwindow⟩ := hsound.run hlater
  refine ⟨fun hfits => hsound.conserved (by rwa [hlimit]), hwindow, hsound.above, hsound.within,
    hsound.owed, hsound.grants, fun hframes hgrants => ?_⟩
  have hleft := hsound.left
  rw [hframes, hgrants] at hleft
  simpa [Spending.maySend] using hleft

/-- Two frames of five million bytes sent from a floor of four, the first of them taken. -/
theorem credit_conserved_five_million : ∃ call after : Call,
      (opened 4194304 67108864).run [.arrive, .send 5000000, .take] = some call ∧
        call.run [.arrive, .send 5000000] = some after ∧
        call.spending.credit + call.frames.sum + call.grants.sum = call.granting.window ∧
        call.granting.window ≤ after.granting.window := by
  have hrun : ∃ call after : Call,
      (opened 4194304 67108864).run [.arrive, .send 5000000, .take] = some call ∧
        call.run [.arrive, .send 5000000] = some after := by
    refine ⟨_, _, rfl, rfl⟩
  obtain ⟨call, after, hcall, hafter⟩ := hrun
  have h := credit_conserved 4194304 67108864 _ _ call after hcall hafter
  exact ⟨call, after, hcall, hafter, h.1 (by decide), h.2.1⟩

/-- Where frames may be of any size of 64 bits, a grant for one of 2^62 bytes stops at the greatest
    signed number, and the sender is left with less credit than the window. -/
theorem credit_stops_short :
    ∃ call : Call, (opened 4194304 (2 ^ 64 - 1)).run [.arrive, .send (2 ^ 62), .take, .arrive]
        = some call ∧
      call.spending.credit + call.frames.sum + call.grants.sum ≠ call.granting.window :=
  ⟨_, rfl, by decide⟩

end Call

end Rdlt.Wire
