/-
  Rdlt.Engine.Lane.Flushed

  A lane loses no write before a commit: a commit's flush is answered, and a
  write's reservation released, once the writer that took the write flushed it; a
  writer is closed once it flushed all it was written; and the writers open are
  at most the lane's share, none of a table's of a version older than the one
  written.
-/

import Rdlt.Engine.Lane
import Rdlt.Lib.Each
import Rdlt.Lib.Last

namespace Rdlt.Engine.Lanes

open Lib

variable {B : Type} {trace : List Act} {writer : Nat}

/-! ## What a lane may do -/

def FlushedBy (trace : List Act) (message writer : Nat) : Prop :=
  ∃ before after, trace = before ++ .wrote message writer :: after ∧ .flushed writer ∈ after

def openCount (trace : List Act) : Nat :=
  trace.countP (fun act => act matches .opened ..) - trace.countP (fun act => act matches .closed _)

/-- Whether a lane of a share, which takes `queued`, may do an act after `before`. -/
def Allowed (share : Nat) (queued : List (Message B)) (before : List Act) : Act → Prop
  -- A new writer, and room for it.
  | .opened writer _ => (∀ key, .opened writer key ∉ before) ∧ openCount before < share
  -- The table's writers of older versions are closed.
  | .wrote message writer => ∃ write, queued[message]? = some (.write write) ∧
      .opened writer write.key ∈ before ∧ .closed writer ∉ before ∧
      ∀ other version, .opened other (toLex (write.table, version)) ∈ before →
        version < write.version → .closed other ∈ before
  | .flushed writer => ∃ key, .opened writer key ∈ before ∧ .closed writer ∉ before
  -- An open writer, nothing written since its last flush.
  | .closed writer => (∃ key, .opened writer key ∈ before ∧ .closed writer ∉ before) ∧
      ∀ message, .wrote message writer ∈ before → FlushedBy before message writer
  | .released message => ∃ writer, FlushedBy before message writer
  -- Every write queued before was written, and flushed by the writer that took it.
  | .answered message => queued[message]? = some .flush ∧ ∀ earlier write, earlier < message →
      queued[earlier]? = some (.write write) → ∃ writer, FlushedBy before earlier writer

theorem FlushedBy.append {message : Nat} (h : FlushedBy trace message writer) (more : List Act) :
    FlushedBy (trace ++ more) message writer := by
  obtain ⟨before, after, rfl, hflushed⟩ := h
  exact ⟨before, after ++ more, by simp, List.mem_append_left _ hflushed⟩

theorem flushedBy_flush {message : Nat} (h : .wrote message writer ∈ trace) :
    FlushedBy (trace ++ [.flushed writer]) message writer := by
  obtain ⟨before, after, rfl⟩ := List.append_of_mem h
  exact ⟨before, after ++ [.flushed writer], by simp, by simp⟩

/-! ## What holds of a lane -/

/-- What a lane did so far is allowed, and it keeps what it needs to go on so: of the writers of
    `unflushed`, which are open, some writes may not be flushed. -/
structure Lane.Sound (queued : List (Message B)) (unflushed : WriterKey → Prop) (lane : Lane) :
    Prop where
  allowed : Each (Allowed lane.share queued) lane.trace
  isOpen : ∀ (key : WriterKey) (opened : Open), lane.writers[key]? = some opened →
    .opened opened.writer key ∈ lane.trace ∧ .closed opened.writer ∉ lane.trace
  known : ∀ writer key, .opened writer key ∈ lane.trace →
    (∃ opened, lane.writers[key]? = some opened ∧ opened.writer = writer) ∨
      .closed writer ∈ lane.trace
  numbered : (∀ writer key, .opened writer key ∈ lane.trace → writer < lane.opens) ∧
    ∀ writer, .closed writer ∈ lane.trace → writer < lane.opens
  distinct : ∀ (key key' : WriterKey) (opened opened' : Open),
    lane.writers[key]? = some opened → lane.writers[key']? = some opened' →
    opened.writer = opened'.writer → key = key'
  count : lane.trace.countP (fun act => act matches .opened ..)
    = lane.writers.size + lane.trace.countP (fun act => act matches .closed _)
  bounded : lane.writers.size ≤ lane.share
  flushed : ∀ message writer, .wrote message writer ∈ lane.trace →
    FlushedBy lane.trace message writer ∨
      ∃ key opened, lane.writers[key]? = some opened ∧ opened.writer = writer ∧ unflushed key
  isHeld : ∀ message ∈ lane.held, ∃ writer, .wrote message writer ∈ lane.trace
  staged : ∀ message write, message < lane.taken → queued[message]? = some (.write write) →
    ∃ writer, .wrote message writer ∈ lane.trace

/-- What holds of a lane of a share between its acts. -/
structure Lane.Kept (share : Nat) (queued : List (Message B)) (lane : Lane) : Prop where
  sound : lane.Sound queued fun key => key ∈ lane.written
  share : lane.share = share

def Lane.Ended (share : Nat) (queued : List (Message B)) (lane : Lane) : Prop :=
  Each (Allowed share queued) lane.trace

namespace Lane.Sound

variable {key : WriterKey} {opened : Open}

variable {queued : List (Message B)} {unflushed : WriterKey → Prop} {lane : Lane}

section

variable (h : lane.Sound queued unflushed)
include h

/-- Acts that open, close and write nothing. -/
theorem extend {more : List Act}
    (hallowed : Each (Allowed lane.share queued) (lane.trace ++ more))
    (hopened : ∀ writer key, .opened writer key ∉ more) (hclosed : ∀ writer, .closed writer ∉ more)
    (hwrote : ∀ message writer, .wrote message writer ∉ more) :
    Lane.Sound queued unflushed { lane with trace := lane.trace ++ more } where
  allowed := hallowed
  isOpen key opened hkey := by
    obtain ⟨ho, hc⟩ := h.isOpen key opened hkey
    exact ⟨List.mem_append_left _ ho, by simp [hc, hclosed]⟩
  known writer key hmem := by
    have hmem : .opened writer key ∈ lane.trace := by simpa [hopened] using hmem
    exact (h.known writer key hmem).imp_right (List.mem_append_left _)
  numbered := by
    refine ⟨fun writer key hmem => h.numbered.1 writer key ?_, fun writer hmem =>
      h.numbered.2 writer ?_⟩
    · simpa [hopened] using hmem
    · simpa [hclosed] using hmem
  distinct := h.distinct
  count := by
    have hnone : more.countP (fun act => act matches .opened ..) = 0 := by
      rw [List.countP_eq_zero]
      intro act hact
      cases act with
      | opened writer key => exact absurd hact (hopened writer key)
      | _ => simp
    have hnone' : more.countP (fun act => act matches .closed _) = 0 := by
      rw [List.countP_eq_zero]
      intro act hact
      cases act with
      | closed writer => exact absurd hact (hclosed writer)
      | _ => simp
    simpa only [List.countP_append, hnone, hnone', Nat.add_zero] using h.count
  bounded := h.bounded
  flushed message writer hmem := by
    have hmem : .wrote message writer ∈ lane.trace := by simpa [hwrote] using hmem
    exact (h.flushed message writer hmem).imp_left (·.append _)
  isHeld message hmem := (h.isHeld message hmem).imp fun _ => List.mem_append_left _
  staged message write htaken hwrite :=
    (h.staged message write htaken hwrite).imp fun _ => List.mem_append_left _

theorem flush (hopen : lane.writers[key]? = some opened) :
    Lane.Sound queued (fun other => unflushed other ∧ other ≠ key)
      { lane with trace := lane.trace ++ [.flushed opened.writer] } := by
  have hallowed : Allowed lane.share queued lane.trace (.flushed opened.writer) :=
    ⟨key, h.isOpen key opened hopen⟩
  have hextended := h.extend (h.allowed.concat hallowed) (by simp) (by simp) (by simp)
  refine { hextended with flushed := fun message writer hmem => ?_ }
  have hmem : .wrote message writer ∈ lane.trace := by simpa using hmem
  -- What the writer took is flushed; what others took is as it was.
  by_cases hwriter : writer = opened.writer
  · exact Or.inl (hwriter ▸ flushedBy_flush (hwriter ▸ hmem))
  · refine (h.flushed message writer hmem).imp (·.append _) ?_
    rintro ⟨other, o, hother, rfl, hunflushed⟩
    refine ⟨other, o, hother, rfl, hunflushed, ?_⟩
    rintro rfl
    rw [hopen] at hother
    exact hwriter (congrArg Open.writer (Option.some.inj hother)).symm

theorem close (hopen : lane.writers[key]? = some opened) (hflushed : ¬ unflushed key) :
    Lane.Sound queued unflushed { lane with
        writers := lane.writers.erase key
        trace := lane.trace ++ [.closed opened.writer] } := by
  obtain ⟨hopened, hclosed⟩ := h.isOpen key opened hopen
  have hother : ∀ (other : WriterKey) (o : Open), (lane.writers.erase key)[other]? = some o →
      other ≠ key ∧ lane.writers[other]? = some o := by
    intro other o hget
    rw [OrdMap.getElem?_erase] at hget
    split at hget
    · cases hget
    · next hne => exact ⟨Ne.symm hne, hget⟩
  have hgone : ∀ (other : WriterKey) (o : Open), lane.writers[other]? = some o → other ≠ key →
      (lane.writers.erase key)[other]? = some o := by
    intro other o hget hne
    rw [OrdMap.getElem?_erase, if_neg (Ne.symm hne), hget]
  have hsize : (lane.writers.erase key).size + 1 = lane.writers.size :=
    OrdMap.size_erase_of_getElem? hopen
  refine ⟨h.allowed.concat ⟨⟨key, hopened, hclosed⟩, ?_⟩, ?_, ?_, ?_, ?_, ?_, ?_, ?_, ?_, ?_⟩
  · intro message hwrote
    refine (h.flushed message _ hwrote).resolve_right ?_
    rintro ⟨other, o, hget, hwriter, hunflushed⟩
    exact hflushed (h.distinct other key o opened hget hopen hwriter ▸ hunflushed)
  · intro other o hget
    obtain ⟨hne, hget⟩ := hother other o hget
    obtain ⟨ho, hc⟩ := h.isOpen other o hget
    refine ⟨List.mem_append_left _ ho, ?_⟩
    have hdiffers : o.writer ≠ opened.writer := fun heq =>
      hne (h.distinct other key o opened hget hopen heq)
    simp [hc, hdiffers]
  · intro writer other hwriter
    have hwriter : .opened writer other ∈ lane.trace := by simpa using hwriter
    rcases h.known writer other hwriter with ⟨o, hget, rfl⟩ | hclosed
    · by_cases hkey : other = key
      · subst hkey
        rw [hopen] at hget
        cases hget
        exact Or.inr (by simp)
      · exact Or.inl ⟨o, hgone other o hget hkey, rfl⟩
    · exact Or.inr (List.mem_append_left _ hclosed)
  · refine ⟨fun writer other hwriter => h.numbered.1 writer other (by simpa using hwriter), ?_⟩
    intro writer hwriter
    rcases List.mem_append.mp hwriter with hwriter | hwriter
    · exact h.numbered.2 writer hwriter
    · obtain rfl : writer = opened.writer := by simpa using hwriter
      exact h.numbered.1 _ key hopened
  · intro left right o o' hleft hright
    exact h.distinct left right o o' (hother left o hleft).2 (hother right o' hright).2
  · have hcount := h.count
    simp only [List.countP_append, List.countP_singleton] at hcount ⊢
    simp
    omega
  · have hbounded := h.bounded
    change (lane.writers.erase key).size ≤ lane.share
    omega
  · intro message writer hwrote
    have hwrote : .wrote message writer ∈ lane.trace := by simpa using hwrote
    refine (h.flushed message writer hwrote).imp (·.append _) ?_
    rintro ⟨other, o, hget, hwriter, hunflushed⟩
    exact ⟨other, o, hgone other o hget fun heq => hflushed (heq ▸ hunflushed), hwriter, hunflushed⟩
  · exact fun message hheld => (h.isHeld message hheld).imp fun _ => List.mem_append_left _
  · exact fun message write htaken hwrite =>
      (h.staged message write htaken hwrite).imp fun _ => List.mem_append_left _

theorem opens (used : Nat)
    (hnone : lane.writers[key]? = none) (hroom : lane.writers.size < lane.share) :
    Lane.Sound queued unflushed { lane with
        writers := lane.writers.insert key { writer := lane.opens, used }
        opens := lane.opens + 1
        trace := lane.trace ++ [.opened lane.opens key] } := by
  have hget : ∀ (other : WriterKey) (o : Open),
      (lane.writers.insert key { writer := lane.opens, used })[other]? = some o →
      other = key ∧ o.writer = lane.opens ∨ other ≠ key ∧ lane.writers[other]? = some o := by
    intro other o hother
    rw [OrdMap.getElem?_insert] at hother
    split at hother
    · rename_i heq
      cases hother
      exact Or.inl ⟨heq.symm, rfl⟩
    · next hne => exact Or.inr ⟨Ne.symm hne, hother⟩
  have hkept : ∀ (other : WriterKey) (o : Open), lane.writers[other]? = some o →
      (lane.writers.insert key { writer := lane.opens, used })[other]? = some o := by
    intro other o hother
    rw [OrdMap.getElem?_insert, if_neg, hother]
    rintro rfl
    rw [hnone] at hother
    cases hother
  have hnew : ∀ (other : WriterKey) (o : Open), lane.writers[other]? = some o →
      o.writer < lane.opens := fun other o hother =>
    h.numbered.1 _ other (h.isOpen other o hother).1
  have hsize := OrdMap.size_insert_of_getElem? hnone { writer := lane.opens, used }
  have hcount := h.count
  refine ⟨h.allowed.concat ?_, ?_, ?_, ?_, ?_, ?_, ?_, ?_, ?_, ?_⟩
  · refine ⟨fun other hopened => Nat.lt_irrefl _ (h.numbered.1 _ other hopened), ?_⟩
    unfold openCount
    omega
  · intro other o hother
    rcases hget other o hother with ⟨rfl, hwriter⟩ | ⟨-, hother⟩
    · rw [hwriter]
      refine ⟨by simp, fun hclosed => ?_⟩
      exact Nat.lt_irrefl _ (h.numbered.2 lane.opens (by simpa using hclosed))
    · obtain ⟨ho, hc⟩ := h.isOpen other o hother
      exact ⟨List.mem_append_left _ ho, by simpa using hc⟩
  · intro writer other hwriter
    rcases List.mem_append.mp hwriter with hwriter | hwriter
    · refine (h.known writer other hwriter).imp ?_ (List.mem_append_left _)
      rintro ⟨o, hother, hwriter⟩
      exact ⟨o, hkept other o hother, hwriter⟩
    · obtain ⟨rfl, rfl⟩ := Act.opened.inj (List.mem_singleton.mp hwriter)
      refine Or.inl ⟨{ writer := lane.opens, used }, ?_, rfl⟩
      rw [OrdMap.getElem?_insert, if_pos rfl]
  · refine ⟨fun writer other hwriter => ?_, fun writer hwriter => ?_⟩
    · rcases List.mem_append.mp hwriter with hwriter | hwriter
      · exact Nat.lt_succ_of_lt (h.numbered.1 writer other hwriter)
      · obtain ⟨rfl, -⟩ := Act.opened.inj (List.mem_singleton.mp hwriter)
        exact Nat.lt_succ_self _
    · exact Nat.lt_succ_of_lt (h.numbered.2 writer (by simpa using hwriter))
  · intro left right o o' hleft hright heq
    rcases hget left o hleft with ⟨rfl, hl⟩ | ⟨-, hl⟩ <;>
      rcases hget right o' hright with ⟨rfl, hr⟩ | ⟨-, hr⟩
    · rfl
    · exact absurd (heq ▸ hl) (Nat.ne_of_lt (hnew right o' hr))
    · exact absurd (heq ▸ hr) (Nat.ne_of_lt (hnew left o hl))
    · exact h.distinct left right o o' hl hr heq
  · simp only [List.countP_append, List.countP_singleton]
    simp
    omega
  · change (lane.writers.insert key _).size ≤ lane.share
    omega
  · intro message writer hwrote
    have hwrote : .wrote message writer ∈ lane.trace := by simpa using hwrote
    refine (h.flushed message writer hwrote).imp (·.append _) ?_
    rintro ⟨other, o, hother, hwriter, hunflushed⟩
    exact ⟨other, o, hkept other o hother, hwriter, hunflushed⟩
  · exact fun message hheld => (h.isHeld message hheld).imp fun _ => List.mem_append_left _
  · exact fun message write htaken hwrite =>
      (h.staged message write htaken hwrite).imp fun _ => List.mem_append_left _

theorem uses (used : Nat) (hopen : lane.writers[key]? = some opened) : Lane.Sound queued unflushed
      { lane with writers := lane.writers.insert key { opened with used } } := by
  have hget : ∀ (other : WriterKey) (o : Open),
      (lane.writers.insert key { opened with used })[other]? = some o →
      ∃ o', lane.writers[other]? = some o' ∧ o'.writer = o.writer := by
    intro other o hother
    rw [OrdMap.getElem?_insert] at hother
    split at hother
    · rename_i heq
      cases hother
      exact ⟨opened, heq ▸ hopen, rfl⟩
    · exact ⟨o, hother, rfl⟩
  have hkept : ∀ (other : WriterKey) (o : Open), lane.writers[other]? = some o →
      ∃ o', (lane.writers.insert key { opened with used })[other]? = some o' ∧
        o'.writer = o.writer := by
    intro other o hother
    rw [OrdMap.getElem?_insert]
    by_cases heq : key = other
    · subst heq
      rw [hopen] at hother
      cases hother
      exact ⟨{ opened with used }, if_pos rfl, rfl⟩
    · exact ⟨o, by rw [if_neg heq, hother], rfl⟩
  have hsize := OrdMap.size_insert_of_mem hopen { opened with used }
  refine { h with
    isOpen := ?_, known := ?_, distinct := ?_, count := ?_, bounded := ?_, flushed := ?_ }
  · intro other o hother
    obtain ⟨o', hother, hwriter⟩ := hget other o hother
    exact hwriter ▸ h.isOpen other o' hother
  · intro writer other hwriter
    refine (h.known writer other hwriter).imp_left ?_
    rintro ⟨o, hother, rfl⟩
    exact hkept other o hother
  · intro left right o o' hleft hright heq
    obtain ⟨l, hleft, hl⟩ := hget left o hleft
    obtain ⟨r, hright, hr⟩ := hget right o' hright
    exact h.distinct left right l r hleft hright (by rw [hl, hr, heq])
  · exact h.count.trans (by rw [← hsize])
  · exact hsize.le.trans h.bounded
  · intro message writer hwrote
    refine (h.flushed message writer hwrote).imp_right ?_
    rintro ⟨other, o, hother, rfl, hunflushed⟩
    obtain ⟨o', hother, hwriter⟩ := hkept other o hother
    exact ⟨other, o', hother, hwriter, hunflushed⟩

/-- A write is written by its table's writer, none of an older version of which is open. -/
theorem wrote {write : Write B} (hopen : lane.writers[write.key]? = some opened)
    (hwrite : queued[lane.taken]? = some (.write write))
    (holder : ∀ version, version < write.version →
      lane.writers[(toLex (write.table, version) : WriterKey)]? = none) :
    Lane.Sound queued (fun key => unflushed key ∨ key = write.key)
      { lane with
        trace := lane.trace ++ [.wrote lane.taken opened.writer]
        held := lane.held ++ [lane.taken] } := by
  have hkept : ∀ {act : Act}, act ∈ lane.trace →
      act ∈ lane.trace ++ [.wrote lane.taken opened.writer] := List.mem_append_left _
  obtain ⟨hopened, hclosed⟩ := h.isOpen _ opened hopen
  refine ⟨h.allowed.concat ⟨write, hwrite, hopened, hclosed, ?_⟩, ?_, ?_, ?_, h.distinct, ?_,
    h.bounded, ?_, ?_, ?_⟩
  · intro other version hother hless
    refine (h.known other _ hother).resolve_left ?_
    rintro ⟨o, hget, -⟩
    rw [holder version hless] at hget
    cases hget
  · intro key o hget
    obtain ⟨ho, hc⟩ := h.isOpen key o hget
    exact ⟨hkept ho, by simpa using hc⟩
  · intro writer key hwriter
    exact (h.known writer key (by simpa using hwriter)).imp_right hkept
  · exact ⟨fun writer key hwriter => h.numbered.1 writer key (by simpa using hwriter),
      fun writer hwriter => h.numbered.2 writer (by simpa using hwriter)⟩
  · simpa [List.countP_append, List.countP_cons] using h.count
  · intro message writer hwrote
    rcases List.mem_append.mp hwrote with hwrote | hwrote
    · refine (h.flushed message writer hwrote).imp (·.append _) ?_
      rintro ⟨key, o, hget, hwriter, hunflushed⟩
      exact ⟨key, o, hget, hwriter, Or.inl hunflushed⟩
    · obtain ⟨rfl, rfl⟩ := Act.wrote.inj (List.mem_singleton.mp hwrote)
      exact Or.inr ⟨write.key, opened, hopen, rfl, Or.inr rfl⟩
  · intro message hheld
    rcases List.mem_append.mp hheld with hheld | hheld
    · exact (h.isHeld message hheld).imp fun _ => hkept
    · obtain rfl := List.mem_singleton.mp hheld
      exact ⟨opened.writer, by simp⟩
  · exact fun message write htaken hwrite =>
      (h.staged message write htaken hwrite).imp fun _ => hkept

end

theorem release (h : lane.Sound queued fun _ => False) : Lane.Sound queued (fun _ => False)
      { lane with trace := lane.trace ++ lane.held.map .released, held := [] } := by
  have hflushed : ∀ message ∈ lane.held, ∃ writer, FlushedBy lane.trace message writer := by
    intro message hheld
    obtain ⟨writer, hwrote⟩ := h.isHeld message hheld
    exact ⟨writer, (h.flushed message writer hwrote).resolve_right fun ⟨_, _, _, _, hnone⟩ => hnone⟩
  have hallowed : Each (Allowed lane.share queued) (lane.trace ++ lane.held.map .released) := by
    refine h.allowed.append fun before act after hsplit => ?_
    have hact : act ∈ lane.held.map Act.released := by
      rw [hsplit]
      exact List.mem_append_right _ List.mem_cons_self
    obtain ⟨message, hheld, rfl⟩ := List.mem_map.mp hact
    exact (hflushed message hheld).imp fun _ hflushed => hflushed.append before
  exact { h.extend hallowed (by simp) (by simp) (by simp) with isHeld := nofun }

theorem answer (h : lane.Sound queued fun _ => False) (hflush : queued[lane.taken]? = some .flush) :
    Lane.Sound queued (fun _ => False)
      { lane with taken := lane.taken + 1, trace := lane.trace ++ [.answered lane.taken] } := by
  have hallowed : Allowed lane.share queued lane.trace (.answered lane.taken) := by
    refine ⟨hflush, fun earlier write hearlier hwrite => ?_⟩
    obtain ⟨writer, hwrote⟩ := h.staged earlier write hearlier hwrite
    exact ⟨writer, (h.flushed earlier writer hwrote).resolve_right fun ⟨_, _, _, _, hnone⟩ => hnone⟩
  have hextended := h.extend (h.allowed.concat hallowed) (by simp) (by simp) (by simp)
  refine { hextended with staged := fun message write htaken hwrite => ?_ }
  rcases Nat.lt_succ_iff_lt_or_eq.mp htaken with hless | rfl
  · exact hextended.staged message write hless hwrite
  · rw [hflush] at hwrite
    cases hwrite

theorem goes_on (h : lane.Sound queued unflushed) (hwrote : .wrote lane.taken writer ∈ lane.trace) :
    Lane.Sound queued unflushed { lane with taken := lane.taken + 1 } := by
  refine { h with staged := fun message write htaken hwrite => ?_ }
  rcases Nat.lt_succ_iff_lt_or_eq.mp htaken with hless | rfl
  · exact h.staged message write hless hwrite
  · exact ⟨writer, hwrote⟩

theorem imp (h : lane.Sound queued unflushed) {unflushed' : WriterKey → Prop}
    (himp : ∀ key, unflushed key → unflushed' key) : lane.Sound queued unflushed' :=
  { h with
    flushed := fun message writer hwrote => (h.flushed message writer hwrote).imp_right
      fun ⟨key, o, hget, hwriter, hunflushed⟩ => ⟨key, o, hget, hwriter, himp key hunflushed⟩ }

end Lane.Sound

/-! ## Steps -/

namespace Lane

variable {fails : Nat → Bool} {share : Nat} {queued : List (Message B)} {lane : Lane}

theorem Kept.ended (h : lane.Kept share queued) : lane.Ended share queued :=
  h.share ▸ h.sound.allowed

theorem call_outcome (h : lane.Ended share queued) :
    Lib.Outcome (fun called => called = { lane with calls := lane.calls + 1 })
      (Ended share queued) (lane.call fails) := by
  unfold call
  split
  · exact h
  · exact rfl

theorem flush_outcome (h : lane.Ended share queued) (writer : Nat) : Lib.Outcome
      (fun flushed => flushed = { lane with
        calls := lane.calls + 1, trace := lane.trace ++ [.flushed writer] })
      (Ended share queued) (lane.flush fails writer) := by
  refine (call_outcome h).bind fun called hcalled => ?_
  subst hcalled
  exact rfl

section

variable (h : lane.Kept share queued)
include h

theorem retire_outcome (key : WriterKey) : Lib.Outcome
      (fun retired => retired.Kept share queued ∧ retired.taken = lane.taken ∧
        retired.writers = lane.writers.erase key)
      (Ended share queued) (lane.retire fails key) := by
  unfold retire
  cases hopen : lane.writers[key]? with
  | none =>
    refine Lib.Outcome.ok ⟨h, rfl, OrdMap.ext fun other => ?_⟩
    rw [OrdMap.getElem?_erase]
    split
    · next heq => exact heq ▸ hopen
    · rfl
  | some opened =>
    by_cases hwritten : key ∈ lane.written
    · simp only [hwritten, if_true]
      have hended : Ended share queued { lane with written := lane.written.erase key } := h.ended
      refine (flush_outcome hended opened.writer).bind fun flushed hflushed => ?_
      subst hflushed
      have hsound := (h.sound.flush hopen).close hopen fun hkey => hkey.2 rfl
      refine Lib.Outcome.ok ⟨⟨{ hsound.imp ?_ with }, h.share⟩, rfl, rfl⟩
      rintro other ⟨hmem, hne⟩
      exact Std.ExtTreeMap.mem_erase.mpr ⟨fun heq => hne (compare_eq_iff_eq.mp heq).symm, hmem⟩
    · simp only [hwritten, if_false]
      exact Lib.Outcome.ok ⟨⟨h.sound.close hopen hwritten, h.share⟩, rfl, rfl⟩

/-- Retiring the table's older writers leaves none of them open. -/
theorem older_outcome (key : WriterKey) : Lib.Outcome
      (fun retired => retired.Kept share queued ∧ retired.taken = lane.taken ∧
        ∀ version, version < (ofLex key).2 →
          retired.writers[(toLex ((ofLex key).1, version) : WriterKey)]? = none)
      (Ended share queued) ((lane.older key).foldlM (retire fails) lane) := by
  -- Those still to retire are all that may be open.
  have hstart : lane.Kept share queued ∧ lane.taken = lane.taken ∧
      ∀ version, version < (ofLex key).2 →
        lane.writers[(toLex ((ofLex key).1, version) : WriterKey)]? ≠ none →
        (toLex ((ofLex key).1, version) : WriterKey) ∈ lane.older key := by
    refine ⟨h, rfl, fun version hless hopen => ?_⟩
    obtain ⟨opened, hopened⟩ := Option.ne_none_iff_exists'.mp hopen
    refine List.mem_filter.mpr ⟨List.mem_map.mpr ⟨(_, opened), ?_, rfl⟩, by simpa using hless⟩
    exact (OrdMap.mem_toList lane.writers).mpr hopened
  refine (Lib.Outcome.foldlM (Q := fun rest retired => retired.Kept share queued ∧
    retired.taken = lane.taken ∧ ∀ version, version < (ofLex key).2 →
      retired.writers[(toLex ((ofLex key).1, version) : WriterKey)]? ≠ none →
        (toLex ((ofLex key).1, version) : WriterKey) ∈ rest) hstart ?_).imp ?_
  · rintro other rest retired ⟨hkept, htaken, hrest⟩
    refine (retire_outcome hkept other).imp ?_
    rintro after ⟨hafter, htaken', hwriters⟩
    refine ⟨hafter, htaken'.trans htaken, fun version hless hopen => ?_⟩
    rw [hwriters, OrdMap.getElem?_erase] at hopen
    split at hopen
    · exact absurd rfl hopen
    · next hne => exact (List.mem_cons.mp (hrest version hless hopen)).resolve_left (Ne.symm hne)
  · rintro retired ⟨hkept, htaken, hrest⟩
    refine ⟨hkept, htaken, fun version hless => ?_⟩
    by_contra hopen
    exact List.not_mem_nil (hrest version hless hopen)

/-- Making room leaves room, or the writer open, and opens nothing. -/
theorem makeRoom_outcome (hshare : 0 < share) (key : WriterKey) :
    Lib.Outcome (fun left => left.Kept share queued ∧ left.taken = lane.taken ∧
        (∀ other : WriterKey, lane.writers[other]? = none → left.writers[other]? = none) ∧
        (left.writers[key]? = none → left.writers.size < left.share))
      (Ended share queued) (lane.makeRoom fails key) := by
  have hnone : key ∉ lane.writers ↔ lane.writers[key]? = none := by
    rw [Std.ExtTreeMap.mem_iff_isSome_getElem?, Option.not_isSome_iff_eq_none]
  unfold makeRoom
  split
  · rename_i hfull
    -- A lane with no room has a writer open, its share being one or more.
    have hsome : lane.writers.toList ≠ [] := by
      intro hnil
      have hsize : lane.writers.toList.length = lane.writers.size := by simp
      rw [hnil, List.length_nil] at hsize
      rw [h.share] at hfull
      omega
    obtain ⟨entry, hentry⟩ := Option.ne_none_iff_exists'.mp fun hnone =>
      hsome ((List.argmin_eq_none (f := fun entry : WriterKey × Open => entry.2.used)).mp hnone)
    have hopen : lane.writers[entry.1]? = some entry.2 :=
      (OrdMap.mem_toList lane.writers).mp (List.argmin_mem hentry)
    have holdest : lane.oldest = some entry.1 := by rw [oldest, hentry]; rfl
    rw [holdest, Option.elim_some]
    refine (retire_outcome h entry.1).imp ?_
    rintro left ⟨hkept, htaken, hwriters⟩
    refine ⟨hkept, htaken, fun other hother => ?_, fun _ => ?_⟩
    · rw [hwriters, OrdMap.getElem?_erase, hother, ite_self]
    · have hsize := OrdMap.size_erase_of_getElem? hopen
      have hbounded := h.sound.bounded
      rw [hwriters, hkept.share, ← h.share]
      omega
  · rename_i hroom
    refine Lib.Outcome.ok ⟨h, rfl, fun _ hother => hother, fun hkey => ?_⟩
    by_contra hsize
    exact hroom ⟨hnone.mpr hkey, Nat.not_lt.mp hsize⟩

/-- The writer of a key is open once it is asked for, and no other is opened. -/
theorem writer_outcome (hshare : 0 < share) (key : WriterKey) :
    Lib.Outcome (fun found => found.1.Kept share queued ∧ found.1.taken = lane.taken ∧
        (∃ opened, found.1.writers[key]? = some opened ∧ opened.writer = found.2) ∧
        ∀ other : WriterKey, other ≠ key → lane.writers[other]? = none →
          found.1.writers[other]? = none)
      (Ended share queued) (lane.writer fails key) := by
  have hcounted : Kept share queued { lane with writes := saturatingAdd lane.writes 1 } :=
    ⟨{ h.sound with }, h.share⟩
  refine (makeRoom_outcome hcounted hshare key).bind ?_
  rintro left ⟨hleft, htaken, hnone, hroom⟩
  have hother : ∀ (writers : OrdMap WriterKey Open) (opened : Open),
      writers = left.writers.insert key opened → ∀ other : WriterKey, other ≠ key →
      lane.writers[other]? = none → writers[other]? = none := by
    rintro _ opened rfl other hne hother
    rw [OrdMap.getElem?_insert, if_neg (Ne.symm hne), hnone other hother]
  cases hopen : left.writers[key]? with
  | some opened =>
    refine Lib.Outcome.ok ⟨⟨hleft.sound.uses left.writes hopen, hleft.share⟩, htaken,
      ⟨{ opened with used := left.writes }, ?_, rfl⟩, hother _ _ rfl⟩
    rw [OrdMap.getElem?_insert, if_pos rfl]
  | none =>
    refine (call_outcome hleft.ended).bind fun called hcalled => ?_
    subst hcalled
    have hsound := hleft.sound.opens left.writes hopen (hroom hopen)
    refine Lib.Outcome.ok ⟨⟨{ hsound with }, hleft.share⟩, htaken,
      ⟨{ writer := left.opens, used := left.writes }, ?_, rfl⟩, hother _ _ rfl⟩
    rw [OrdMap.getElem?_insert, if_pos rfl]

/-- A write staged was written by a writer that is open, with none of an older version open. -/
theorem stage_outcome (hshare : 0 < share) {write : Write B}
    (hwrite : queued[lane.taken]? = some (.write write)) : Lib.Outcome
      (fun staged => staged.Kept share queued ∧ staged.taken = lane.taken ∧
        ∃ writer, .wrote lane.taken writer ∈ staged.trace)
      (Ended share queued) (lane.stage fails lane.taken write) := by
  refine (older_outcome h write.key).bind ?_
  rintro retired ⟨hretired, htaken, holder⟩
  refine (writer_outcome hretired hshare write.key).bind ?_
  rintro ⟨found, writer⟩ ⟨hfound, htaken', ⟨opened, hopen, rfl⟩, hother⟩
  refine (call_outcome hfound.ended).bind fun called hcalled => ?_
  subst hcalled
  have htaken : found.taken = lane.taken := htaken'.trans htaken
  have hsound := hfound.sound.wrote hopen (htaken ▸ hwrite) fun version hless =>
    hother _ (fun heq => Nat.ne_of_lt hless (congrArg (fun key => (ofLex key).2) heq))
      (holder version hless)
  rw [← htaken]
  refine Lib.Outcome.ok ⟨⟨{ hsound.imp ?_ with }, hfound.share⟩, rfl, opened.writer, by simp⟩
  rintro key (hmem | rfl)
  · exact Std.ExtTreeMap.mem_insert.mpr (Or.inr hmem)
  · exact Std.ExtTreeMap.mem_insert_self

/-- A flush leaves every write flushed, and releases what they held. -/
theorem flushWritten_outcome : Lib.Outcome
      (fun flushed => flushed.Sound queued (fun _ => False) ∧ flushed.share = share ∧
        flushed.taken = lane.taken)
      (Ended share queued) (lane.flushWritten fails) := by
  have hstart : Lane.Sound queued (fun key => key ∈ lane.written.toList.map Prod.fst)
      { lane with written := ∅ } := by
    refine { h.sound.imp fun key hkey => ?_ with }
    obtain ⟨seen, hget⟩ := Option.isSome_iff_exists.mp
      (Std.ExtTreeMap.mem_iff_isSome_getElem?.mp hkey)
    exact List.mem_map.mpr ⟨(key, seen), (OrdMap.mem_toList lane.written).mpr hget, rfl⟩
  refine Lib.Outcome.bind (Lib.Outcome.foldlM (Q := fun rest flushed =>
    flushed.Sound queued (fun key => key ∈ rest) ∧ flushed.share = share ∧
      flushed.taken = lane.taken) ⟨hstart, h.share, rfl⟩ ?_) ?_
  · rintro key rest flushed ⟨hsound, hflushed, htaken⟩
    cases hopen : flushed.writers[key]? with
    | none =>
      refine Lib.Outcome.ok
        ⟨{ hsound with flushed := fun message writer hwrote => ?_ }, hflushed, htaken⟩
      refine (hsound.flushed message writer hwrote).imp_right ?_
      rintro ⟨other, o, hget, hwriter, hmem⟩
      refine ⟨other, o, hget, hwriter, (List.mem_cons.mp hmem).resolve_left ?_⟩
      rintro rfl
      cases hopen.symm.trans hget
    | some opened =>
      refine (flush_outcome (hflushed ▸ hsound.allowed) opened.writer).imp fun after hafter => ?_
      subst hafter
      refine ⟨{ (hsound.flush hopen).imp ?_ with }, hflushed, htaken⟩
      rintro other ⟨hmem, hne⟩
      exact (List.mem_cons.mp hmem).resolve_left hne
  · rintro flushed ⟨hsound, hflushed, htaken⟩
    exact Lib.Outcome.ok ⟨(hsound.imp fun _ => List.not_mem_nil).release, hflushed, htaken⟩

theorem step_outcome (hshare : 0 < share) (turn : Turn) :
    Lib.Outcome (Kept share queued) (Ended share queued) (lane.step fails queued turn) := by
  cases turn with
  | pressure =>
    rw [step]
    split
    · exact Lib.Outcome.ok h
    · refine (flushWritten_outcome h).imp ?_
      rintro flushed ⟨hsound, hflushed, -⟩
      exact ⟨hsound.imp fun _ => False.elim, hflushed⟩
  | next =>
    rw [step]
    cases hnext : queued[lane.taken]? with
    | none => exact Lib.Outcome.ok h
    | some message =>
      cases message with
      | write write =>
        refine (stage_outcome h hshare hnext).bind ?_
        rintro staged ⟨hstaged, htaken, writer, hwrote⟩
        exact Lib.Outcome.ok ⟨hstaged.sound.goes_on (htaken ▸ hwrote), hstaged.share⟩
      | flush =>
        refine (flushWritten_outcome h).bind ?_
        rintro flushed ⟨hsound, hflushed, htaken⟩
        exact Lib.Outcome.ok ⟨(hsound.answer (htaken ▸ hnext)).imp fun _ => False.elim, hflushed⟩

theorem run_outcome (hshare : 0 < share) (turns : List Turn) :
    Lib.Outcome (Kept share queued) (Ended share queued) (lane.run fails queued turns) :=
  Lib.Outcome.foldlM (Q := fun _ (lane : Lane) => lane.Kept share queued) h
    fun turn _ _ hlane => step_outcome hlane hshare turn

end

theorem kept_start (share : Nat) (queued : List (Message B)) : Kept share queued { share } where
  sound :=
    { allowed := each_nil
      isOpen := by simp
      known := by simp
      numbered := by simp
      distinct := by simp
      count := rfl
      bounded := Nat.zero_le _
      flushed := by simp
      isHeld := by simp
      staged := by simp }
  share := rfl

/-- The lane a run ends with, whether or not it failed. -/
def ending : Except Lane Lane → Lane
  | .ok lane | .error lane => lane

theorem openCount_le {share : Nat} {queued : List (Message B)}
    (h : Each (Allowed share queued) trace) : openCount trace ≤ share := by
  induction trace using List.reverseRecOn with
  | nil => exact Nat.zero_le _
  | append_singleton before act ih =>
    have hbefore := ih h.left
    have hact := h before act [] rfl
    unfold openCount at hbefore ⊢
    rw [List.countP_append, List.countP_append, List.countP_singleton, List.countP_singleton]
    cases act with
    | opened writer key =>
      have hroom := hact.2
      unfold openCount at hroom
      simp
      omega
    | _ =>
      simp
      omega

/-- A lane loses no write before a commit. However its calls fail, and so whenever it is cancelled,
    what it did up to any point is so: a commit's flush is answered after every write queued before
    it was written and then flushed by the writer that took it; a write's reservation is released
    after that; a writer is closed after it flushed all it was written; at most the share of writers
    is open; and a write is written after the table's writers of older versions are closed. -/
theorem run_allowed (fails : Nat → Bool) {share : Nat} (hshare : 0 < share)
    (queued : List (Message B)) (turns : List Turn) :
    Each (Allowed share queued) (ending (run fails queued { share } turns)).trace ∧
      ∀ before after, (ending (run fails queued { share } turns)).trace = before ++ after →
        openCount before ≤ share := by
  have houtcome : Lib.Outcome (Kept share queued) (Ended share queued)
      (run fails queued { share } turns) := run_outcome (kept_start share queued) hshare turns
  have hallowed : Each (Allowed share queued)
      (ending (run fails queued { share } turns)).trace := by
    cases hrun : run fails queued { share } turns with
    | error lane =>
      rw [hrun] at houtcome
      exact houtcome
    | ok lane =>
      rw [hrun] at houtcome
      exact houtcome.ended
  exact ⟨hallowed, fun before after hsplit => openCount_le (hsplit ▸ hallowed).left⟩

def queuedWrites : List (Message Unit) :=
  [.write { table := 0, version := 1, segment := 7, batch := () },
    .write { table := 0, version := 2, segment := 7, batch := () },
    .write { table := 1, version := 1, segment := 8, batch := () }, .flush]

theorem run_allowed_one_writer : (ending (run (fun _ => false) queuedWrites { share := 1 }
        [.next, .next, .pressure, .next, .next])).trace
      = [.opened 0 (toLex (0, 1)), .wrote 0 0, .flushed 0, .closed 0, .opened 1 (toLex (0, 2)),
          .wrote 1 1, .flushed 1, .released 0, .released 1, .closed 1, .opened 2 (toLex (1, 1)),
          .wrote 2 2, .flushed 2, .released 2, .answered 3] ∧
      Each (Allowed 1 queuedWrites)
        (ending (run (fun _ => false) queuedWrites { share := 1 }
          [.next, .next, .pressure, .next, .next])).trace :=
  ⟨by decide +kernel, (run_allowed (fun _ => false) Nat.one_pos queuedWrites _).1⟩

end Lane

end Rdlt.Engine.Lanes
