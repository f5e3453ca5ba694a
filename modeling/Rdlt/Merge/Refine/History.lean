/-
  Rdlt.Merge.Refine.History

  A history table while its changes apply, key by key. A truncate is recorded,
  and met by a key when it is next touched or at the end: the table is of each
  key what its versions are once they met every truncate so far.
-/

import Rdlt.Merge.Refine.Versions

namespace Rdlt.Merge

open Lib

open History (Version Versions Guards)

namespace HistoryTable

variable {D : Type} {H : HistoryTable D} {sources : Sources D H.stored}

theorem pastNewest_eq {σ : Type} [LinearOrder σ] (newest seq : σ) (truncated : Bool) :
    History.pastNewest newest seq truncated
      = ((newest : WithBot σ) < seq || ((newest : WithBot σ) = seq && truncated)) := by
  unfold History.pastNewest
  rcases lt_trichotomy newest seq with hlt | rfl | hgt
  · simp [(cmp_eq_lt_iff _ _).mpr hlt, hlt]
  · simp
  · simp [(cmp_eq_gt_iff _ _).mpr hgt, not_lt.mpr hgt.le, ne_of_gt hgt]

/-- What a table holds of a key it has no version of. -/
structure Empty (H : HistoryTable D) (state : H.KeyState) : Prop where
  closed : state.closed = 0
  current : state.current = none
  newest : state.newest = ⊥
  truncated : state.truncated = false

def pending (sources : Sources D H.stored) (table : History) (key : History.Key) :
    List (Row D H.stored) :=
  (table.truncates.drop key.met).map sources.cell

/-- The table is of each key what `keys` says, once the key met every truncate. -/
structure Holds (H : HistoryTable D) (sources : Sources D H.stored) (table : History)
    (keys : Bytes → H.KeyState) : Prop where
  ordered : H.Ordered sources table.truncates
  met : ∀ (k : Bytes) (key : History.Key), table.keys[k]? = some key →
    key.met ≤ table.truncates.length
  key : ∀ (k : Bytes) (key : History.Key), table.keys[k]? = some key → ∃ state,
    H.Represents sources k { list := table.list, key } state ∧
      state.clearedAll H.life (pending sources table key) = keys k
  missing : ∀ k, table.keys[k]? = none →
    (∀ version ∈ table.list, H.keyAt sources version.data ≠ k) ∧ H.Empty (keys k)

section

variable {k : Bytes} {state : H.KeyState} {place : At} {row : Row D H.stored} {list : List Version}

variable {table : History} {keys : Bytes → H.KeyState}

section

variable (h : H.Holds sources table keys)
include h

theorem Holds.congr {keys' : Bytes → H.KeyState}
    (hkeys : ∀ k, keys' k = { keys k with guard := (keys' k).guard }) :
    H.Holds sources table keys' where
  ordered := h.ordered
  met := h.met
  key k key hkey := by
    obtain ⟨state, hrep, hstate⟩ := h.key k key hkey
    refine ⟨{ state with guard := (keys' k).guard },
      ⟨hrep.sound, hrep.closed, hrep.index, hrep.current, hrep.newest, hrep.floor, hrep.truncated⟩,
      ?_⟩
    rw [Versioned.State.clearedAll_guard, hstate, ← hkeys k]
  missing k hnone := by
    obtain ⟨hlist, hempty⟩ := h.missing k hnone
    refine ⟨hlist, ?_⟩
    rw [hkeys k]
    exact ⟨hempty.closed, hempty.current, hempty.newest, hempty.truncated⟩

/-- Keeping what a key became, having met every truncate, changes that key. -/
theorem Holds.keep {versions : Versions} (hrep : H.Represents sources k versions state)
    (hframe : H.Frame sources k table.list versions.list)
    (hmet : versions.key.met = table.truncates.length) :
    H.Holds sources (table.keep k versions) (Function.update keys k state) where
  ordered := h.ordered
  met k' key hkey := by
    rw [History.keep, OrdMap.getElem?_insert] at hkey
    split at hkey
    · cases hkey
      exact hmet.le
    · exact h.met k' key hkey
  key k' key hkey := by
    rw [History.keep, OrdMap.getElem?_insert] at hkey
    split at hkey
    · rename_i hk
      subst hk
      cases hkey
      refine ⟨state, hrep, ?_⟩
      rw [Function.update_self, pending, hmet]
      simp [History.keep, Versioned.State.clearedAll]
    · rename_i hk
      obtain ⟨held, hheld, hstate⟩ := h.key k' key hkey
      rw [Function.update_of_ne (Ne.symm hk)]
      exact ⟨held, hheld.frame hframe (Ne.symm hk), hstate⟩
  missing k' hnone := by
    rw [History.keep, OrdMap.getElem?_insert] at hnone
    split at hnone
    · cases hnone
    · rename_i hk
      obtain ⟨hlist, hempty⟩ := h.missing k' hnone
      rw [Function.update_of_ne (Ne.symm hk)]
      refine ⟨fun version hversion hkey => ?_, hempty⟩
      obtain ⟨index, hindex⟩ := List.mem_iff_getElem?.mp hversion
      have hget := (hframe.get index version (hkey ▸ Ne.symm hk)).mp hindex
      exact hlist version (List.mem_of_getElem? hget) hkey

/-- A truncate the table records clears every key. -/
theorem Holds.truncate (hplaced : Placed sources place) (hle : ∀ truncate ∈ table.truncates,
      (H.guardsOf sources).seq truncate ≤ (H.guardsOf sources).seq place)
    (htimed : H.life.hard = false → H.life.deleted (sources.cell place)) :
    H.Holds sources (table.truncate place) fun k =>
      (keys k).cleared H.life (sources.cell place) where
  ordered := by
    refine ⟨?_, List.pairwise_append.mpr ⟨h.ordered.sorted, List.pairwise_singleton _ _, ?_⟩, ?_⟩
    · intro truncate htruncate
      rcases List.mem_append.mp htruncate with htruncate | htruncate
      · exact h.ordered.placed truncate htruncate
      · rw [List.mem_singleton.mp htruncate]
        exact hplaced
    · intro truncate htruncate held hheld
      rw [List.mem_singleton.mp hheld]
      exact hle truncate htruncate
    · intro truncate htruncate hsoft
      rcases List.mem_append.mp htruncate with htruncate | htruncate
      · exact h.ordered.timed truncate htruncate hsoft
      · rw [List.mem_singleton.mp htruncate]
        exact htimed hsoft
  met k key hkey := by
    have := h.met k key hkey
    simp only [History.truncate, List.length_append, List.length_singleton]
    omega
  key k key hkey := by
    obtain ⟨state, hrep, hstate⟩ := h.key k key hkey
    refine ⟨state, hrep, ?_⟩
    have hpending : pending sources (table.truncate place) key
        = pending sources table key ++ [sources.cell place] := by
      simp [pending, History.truncate, List.drop_append_of_le_length (h.met k key hkey)]
    rw [hpending, Versioned.State.clearedAll, List.foldl_append]
    exact congrArg (fun state => Versioned.State.cleared H.life state (sources.cell place)) hstate
  missing k hnone := by
    obtain ⟨hlist, hempty⟩ := h.missing k hnone
    refine ⟨hlist, ?_⟩
    rw [Versioned.State.cleared_of_current_eq_none hempty.current]
    exact hempty

theorem Holds.meet {key : History.Key} (hkey : table.keys[k]? = some key) : H.Represents sources k
        (History.meet (H.guardsOf sources) table.truncates { list := table.list, key }) (keys k) ∧
      H.Frame sources k table.list
        (History.meet (H.guardsOf sources) table.truncates { list := table.list, key }).list ∧
      (History.meet (H.guardsOf sources) table.truncates { list := table.list, key }).key.met
        = table.truncates.length := by
  obtain ⟨state, hrep, hstate⟩ := h.key k key hkey
  have hmeet := hrep.meet h.ordered
  rw [show (state.clearedAll H.life ((table.truncates.drop key.met).map sources.cell)) = keys k
    from hstate] at hmeet
  exact hmeet

end

/-- What is kept of a key the table has no version of. -/
def freshKey (table : History) (place : At) : History.Key :=
  { newest := place, current := none, floor := none, met := table.truncates.length
    truncated := false }

section

variable (h : H.Holds sources table keys)
include h

theorem Holds.fresh (hkey : table.keys[k]? = none) (place : At) :
    H.Represents sources k { list := table.list, key := freshKey table place }
      { keys k with newest := (H.guardsOf sources).seq place } := by
  obtain ⟨hlist, hempty⟩ := h.missing k hkey
  refine ⟨fun version hversion hkey' => absurd hkey' (hlist version hversion), ?_, fun index => ?_,
    hempty.current, rfl, ?_, hempty.truncated⟩
  · have hfilter : table.list.filter (H.endedOf sources k) = [] := by
      rw [List.filter_eq_nil_iff]
      intro version hversion
      simp [endedOf, hlist version hversion]
    dsimp only
    rw [hempty.closed, hfilter]
    rfl
  · refine ⟨fun hnone => (by cases hnone), ?_⟩
    rintro ⟨version, hget, hkey', -⟩
    exact absurd hkey' (hlist version (List.mem_of_getElem? hget))
  · simp [Versioned.State.floor, Versioned.State.versions, hempty.closed, hempty.current, freshKey]

theorem Holds.past (k : Bytes) (place : At) :
    H.Holds sources (table.past (H.guardsOf sources) k place).1 keys ∧
      (table.past (H.guardsOf sources) k place).2 = (keys k).past ((H.guardsOf sources).seq place) ∧
      (table.past (H.guardsOf sources) k place).1.truncates = table.truncates := by
  unfold History.past
  cases hkey : table.keys[k]? with
  | none =>
    refine ⟨h, ?_, rfl⟩
    simp [Versioned.State.past, (h.missing k hkey).2.newest]
  | some key =>
    obtain ⟨hrep, hframe, hmet⟩ := h.meet hkey
    refine ⟨?_, ?_, rfl⟩
    · have hkeep := h.keep hrep hframe hmet
      rwa [Function.update_eq_self] at hkeep
    · rw [Versioned.State.past, hrep.newest, hrep.truncated]
      exact pastNewest_eq _ _ _

theorem Holds.upsert (hplaced : Placed sources place) (hk : H.keyAt sources place = k) :
    H.Holds sources (table.upsert (H.guardsOf sources) k place) (Function.update keys k
        { (keys k).upserted H.life (sources.cell place) with truncated := false }) := by
  unfold History.upsert
  cases hkey : table.keys[k]? with
  | none =>
    obtain ⟨hlist, hempty⟩ := h.missing k hkey
    dsimp only
    have hrep := h.fresh hkey place
    obtain ⟨hupsert, hframe⟩ := hrep.upsert hplaced hk
    have hmet : (Versions.upsert (H.guardsOf sources)
        { list := table.list, key := freshKey table place } place).key.met
          = table.truncates.length := met_upsert ..
    have hkeep := h.keep hupsert hframe hmet
    have hsame : ({ keys k with newest := (H.guardsOf sources).seq place } :
          H.KeyState).upserted H.life (sources.cell place)
        = { (keys k).upserted H.life (sources.cell place) with truncated := false } := by
      have halike : (keys k).alike H.life (sources.cell place) = false := by
        simp [Versioned.State.alike, hempty.current]
      have halike' : ({ keys k with newest := (H.guardsOf sources).seq place } :
          H.KeyState).alike H.life (sources.cell place) = false := halike
      rw [Versioned.State.upserted, Versioned.State.upserted, halike, halike']
      exact Versioned.State.ext rfl rfl rfl hempty.truncated rfl
    rw [← hsame]
    exact hkeep
  | some key =>
    obtain ⟨hrep, hframe, hmet⟩ := h.meet hkey
    obtain ⟨hupsert, hframe'⟩ := hrep.upsert hplaced hk
    exact h.keep (hupsert.marked false) (hframe.trans hframe') ((met_upsert ..).trans hmet)

theorem Holds.delete (k : Bytes) (hplaced : Placed sources place) :
    H.Holds sources (table.delete (H.guardsOf sources) k place) (Function.update keys k
        { (keys k).removed H.life (sources.cell place) with truncated := false }) := by
  unfold History.delete
  cases hkey : table.keys[k]? with
  | none =>
    obtain ⟨-, hempty⟩ := h.missing k hkey
    have hsame : { (keys k).removed H.life (sources.cell place) with truncated := false }
        = keys k := by
      rw [Versioned.State.removed_of_current_eq_none hempty.current]
      exact Versioned.State.ext rfl rfl rfl hempty.truncated.symm rfl
    rw [hsame, Function.update_eq_self]
    exact h
  | some key =>
    obtain ⟨hrep, hframe, hmet⟩ := h.meet hkey
    obtain ⟨hremove, hframe'⟩ := hrep.remove hplaced
    exact h.keep (hremove.marked false) (hframe.trans hframe') ((met_remove ..).trans hmet)

end

/-! ## Loading -/

/-- A key with the row of one more of its versions, flagged its current one or not. -/
def withRow (H : HistoryTable D) (state : H.KeyState) (row : Row D H.stored) : H.KeyState :=
  { state with
    closed := if H.flagged row then state.closed else row ::ₘ state.closed
    current := if H.flagged row then some row else state.current
    newest := max state.newest (H.life.seq row) }

theorem floor_withRow (hflagged : H.flagged row → state.current = none) :
    (H.withRow state row).floor H.life
      = max (state.floor H.life) (Versioned.State.latest H.life row) := by
  by_cases h : H.flagged row
  · simp [withRow, Versioned.State.floor, Versioned.State.versions, h, hflagged h, Multiset.sup_add]
  · simp [withRow, Versioned.State.floor, Versioned.State.versions, h, Multiset.sup_add, sup_comm]

theorem greatest_withRow (hflagged : H.flagged row → state.current = none) :
    (H.withRow state row).greatest H.life = max (state.greatest H.life) (H.life.seq row) := by
  by_cases h : H.flagged row
  · simp [withRow, Versioned.State.greatest, Versioned.State.versions, h, hflagged h,
      Multiset.sup_add]
  · simp [withRow, Versioned.State.greatest, Versioned.State.versions, h,
      Multiset.sup_add, sup_comm]

/-- What is kept of a key with the published version at `place`, at `index` of the list. -/
def heldKey (guards : Guards) (key : History.Key) (place : At) (index : Nat) (current : Bool) :
    History.Key :=
  let latest := (guards.ends place).elim (guards.begins place) fun ended =>
    max ended (guards.begins place)
  { key with
    newest := if guards.seq key.newest < guards.seq place then place else key.newest
    current := if current then some index else key.current
    floor := some (key.floor.elim latest fun floor => max floor latest) }

def heldVersion (H : HistoryTable D) (sources : Sources D H.stored) (place : At) : Version where
  data := place
  opened := place
  began := (H.guardsOf sources).begins place
  ended := (H.guardsOf sources).ends place
  current := H.flagged (sources.cell place)
  touched := false

/-- Adding a published version to the list gives its key its row. -/
theorem Represents.hold {key : History.Key} (h : H.Represents sources k { list, key } state)
    (hplaced : Placed sources place) (hk : H.keyAt sources place = k)
    (hflagged : H.flagged (sources.cell place) → state.current = none) : H.Represents sources k
      { list := list ++ [H.heldVersion sources place]
        key := heldKey (H.guardsOf sources) key place list.length (H.flagged (sources.cell place)) }
      (H.withRow state (sources.cell place)) := by
  have hcells : H.cellsOf sources (H.heldVersion sources place) = sources.cell place := rfl
  have hnone : H.flagged (sources.cell place) → key.current = none := by
    intro hset
    by_contra hsome
    obtain ⟨index, hindex⟩ := Option.ne_none_iff_exists'.mp hsome
    obtain ⟨version, -, -, -, -, hcurrent⟩ := h.exists_current hindex
    rw [hflagged hset] at hcurrent
    cases hcurrent
  refine ⟨?_, ?_, ?_, ?_, ?_, ?_, h.truncated⟩
  · intro version hversion hkey
    rcases List.mem_append.mp hversion with hversion | hversion
    · exact h.sound version hversion hkey
    · rw [List.mem_singleton.mp hversion]
      exact ⟨hplaced, hplaced, fun _ => ⟨rfl, rfl, rfl, rfl⟩⟩
  · rw [List.filter_append, List.map_append, withRow]
    by_cases hset : H.flagged (sources.cell place)
    · simp [endedOf, heldVersion, hset, h.closed]
    · have hended : [H.heldVersion sources place].filter (H.endedOf sources k)
          = [H.heldVersion sources place] := by simp [endedOf, heldVersion, hset, hk]
      rw [if_neg hset, hended, List.map_singleton, hcells, h.closed]
      exact (Multiset.coe_eq_coe.mpr (List.perm_append_singleton _ _)).symm
  · intro index
    by_cases hset : H.flagged (sources.cell place)
    · simp only [heldKey, hset, if_true, Option.some.injEq]
      constructor
      · rintro rfl
        exact ⟨_, List.getElem?_concat_length, hk, hset⟩
      · rintro ⟨version, hget, hkey, hcurrent⟩
        rw [List.getElem?_append] at hget
        split at hget
        · have := (h.index index).mpr ⟨version, hget, hkey, hcurrent⟩
          rw [hnone hset] at this
          cases this
        · have hone := (List.getElem?_eq_some_iff.mp hget).1
          simp only [List.length_singleton] at hone
          omega
    · simp only [heldKey, hset]
      refine (h.index index).trans (exists_congr fun version => and_congr_left fun hversion => ?_)
      dsimp only
      rw [List.getElem?_append]
      split
      · rfl
      · rename_i hge
        rw [List.getElem?_eq_none (Nat.le_of_not_lt hge)]
        simp only [reduceCtorEq, false_iff]
        intro hget
        have hmem := List.mem_singleton.mp (List.mem_of_getElem? hget)
        rw [hmem] at hversion
        exact hset hversion.2
  · by_cases hset : H.flagged (sources.cell place)
    · simp only [withRow, heldKey, hset, if_true, Option.bind_some, List.getElem?_concat_length,
        Option.map_some]
      rw [← hcells]
    · simp only [withRow, heldKey, hset]
      rw [h.current]
      cases hindex : key.current with
      | none => simp
      | some index =>
        obtain ⟨version, hget, -⟩ := h.exists_current hindex
        have hlt := (List.getElem?_eq_some_iff.mp hget).1
        simp only [Bool.false_eq_true, if_false, Option.bind_some, List.getElem?_append_left hlt]
  · simp only [withRow, heldKey, h.newest]
    split
    · rename_i hlt
      exact max_eq_right (WithBot.coe_le_coe.mpr hlt.le)
    · rename_i hge
      exact max_eq_left (WithBot.coe_le_coe.mpr (not_lt.mp hge))
  · rw [floor_withRow hflagged, h.floor]
    simp only [heldKey, Versioned.State.latest]
    change _ = ((key.floor.elim _ _ : Int) : WithBot Int)
    have hends : (H.guardsOf sources).ends place = H.life.ends (sources.cell place) := rfl
    have hbegins : (H.guardsOf sources).begins place = H.life.begins (sources.cell place) := rfl
    rw [hends, hbegins]
    cases key.floor <;> cases H.life.ends (sources.cell place) <;>
      simp [max_comm]

theorem Holds.hold (h : H.Holds sources table keys) (htruncates : table.truncates = [])
    (hplaced : Placed sources place) (hk : H.keyAt sources place = k)
    (hflagged : H.flagged (sources.cell place) → (keys k).current = none) : H.Holds sources
      (table.hold (H.guardsOf sources) k place (H.flagged (sources.cell place)))
      (Function.update keys k (H.withRow (keys k) (sources.cell place))) := by
  have hframe : H.Frame sources k table.list (table.list ++ [H.heldVersion sources place]) :=
    Frame.concat table.list hk
  cases hkey : table.keys[k]? with
  | none =>
    have hrep := (h.fresh hkey place).hold hplaced hk hflagged
    have hnewest : (heldKey (H.guardsOf sources) (freshKey table place) place table.list.length
        (H.flagged (sources.cell place))).newest = place := ite_self _
    have hkeep := h.keep hrep hframe rfl
    have hempty := (h.missing k hkey).2
    have hstate : H.withRow { keys k with newest := (H.guardsOf sources).seq place }
        (sources.cell place) = H.withRow (keys k) (sources.cell place) := by
      refine Versioned.State.ext rfl rfl ?_ rfl rfl
      simp only [withRow, hempty.newest]
      exact (max_self _).trans (max_eq_right bot_le).symm
    rw [hstate] at hkeep
    have htable : table.hold (H.guardsOf sources) k place (H.flagged (sources.cell place))
        = table.keep k
          { list := table.list ++ [H.heldVersion sources place]
            key := heldKey (H.guardsOf sources) (freshKey table place) place table.list.length
              (H.flagged (sources.cell place)) } := by
      rw [History.hold, hkey, History.keep]
      simp only [heldKey, freshKey, htruncates]
      simp [heldVersion]
    rw [htable]
    exact hkeep
  | some key =>
    obtain ⟨state, hrep, hstate⟩ := h.key k key hkey
    have hsame : state = keys k := by
      rw [← hstate, pending, htruncates, List.drop_nil]
      rfl
    subst hsame
    have hkeep := h.keep (hrep.hold hplaced hk hflagged) hframe
      (by simpa [htruncates, heldKey] using h.met k key hkey)
    have htable : table.hold (H.guardsOf sources) k place (H.flagged (sources.cell place))
        = table.keep k
          { list := table.list ++ [H.heldVersion sources place]
            key := heldKey (H.guardsOf sources) key place table.list.length
              (H.flagged (sources.cell place)) } := by
      rw [History.hold, hkey]
      rfl
    rw [htable]
    exact hkeep

theorem stateOf_concat {rows : List (Row D H.stored)}
    (h : H.flagged row → rows.filter H.flagged = []) (guard : Guard Bytes (KeyCells D H.key)) :
    H.stateOf (rows ++ [row]) guard = H.withRow (H.stateOf rows guard) row := by
  have hclosed : (H.stateOf (rows ++ [row]) guard).closed
      = (H.withRow (H.stateOf rows guard) row).closed := by
    simp only [stateOf, Versioned.State.stored, withRow, List.filter_append]
    by_cases hset : H.flagged row
    · simp [hset]
    · simp [hset]
  have hcurrent : (H.stateOf (rows ++ [row]) guard).current
      = (H.withRow (H.stateOf rows guard) row).current := by
    by_cases hset : H.flagged row <;> simp [stateOf, Versioned.State.stored, withRow, hset]
  refine Versioned.State.ext hclosed hcurrent ?_ rfl rfl
  refine (Versioned.State.greatest_congr hclosed hcurrent).trans (greatest_withRow fun hset => ?_)
  simp [stateOf, Versioned.State.stored, h hset]

/-- Rows of which each key has at most one flagged its current version. -/
def Single (H : HistoryTable D) (rows : List (Row D H.stored)) : Prop :=
  ∀ k, ((rows.filter fun row => H.rowKey row == k).filter H.flagged).length ≤ 1

/-- Loading published rows holds of each key what its rows are. -/
theorem holds_load (guard : Bytes → Guard Bytes (KeyCells D H.key)) (placed : List At)
    (hplaced : ∀ place ∈ placed, Placed sources place)
    (hsingle : H.Single (placed.map sources.cell)) : H.Holds sources
      (History.load (H.guardsOf sources) placed (H.keyAt sources)
        fun place => H.flagged (sources.cell place))
      (fun k => H.stateOf ((placed.map sources.cell).filter fun row => H.rowKey row == k)
        (guard k)) ∧
    (History.load (H.guardsOf sources) placed (H.keyAt sources)
      fun place => H.flagged (sources.cell place)).truncates = [] := by
  induction placed using List.reverseRecOn with
  | nil =>
    refine ⟨⟨⟨by simp [History.load], List.Pairwise.nil, by simp [History.load]⟩, ?_, ?_, ?_⟩, rfl⟩
    · intro k key hkey
      simp [History.load] at hkey
    · intro k key hkey
      simp [History.load] at hkey
    · intro k _
      refine ⟨by simp [History.load], rfl, rfl, rfl, rfl⟩
  | append_singleton placed place ih =>
    have hstarts : H.Single (placed.map sources.cell) := by
      intro k
      have hle := hsingle k
      rw [List.map_append, List.filter_append, List.filter_append, List.length_append] at hle
      omega
    obtain ⟨hholds, htruncates⟩ := ih
      (fun place hplace => hplaced place (List.mem_append_left _ hplace)) hstarts
    -- a row flagged current is the first of its key that is
    have hflagged : H.flagged (sources.cell place) → ((placed.map sources.cell).filter fun row =>
          H.rowKey row == H.keyAt sources place).filter H.flagged = [] := by
      intro hset
      have hle := hsingle (H.keyAt sources place)
      rw [List.map_append, List.filter_append, List.filter_append, List.length_append] at hle
      rw [← List.length_eq_zero_iff]
      have hone : ((([place].map sources.cell).filter fun row =>
          H.rowKey row == H.keyAt sources place).filter H.flagged).length = 1 := by
        simp [keyAt, hset]
      omega
    have hload : History.load (H.guardsOf sources) (placed ++ [place]) (H.keyAt sources)
          (fun place => H.flagged (sources.cell place))
        = (History.load (H.guardsOf sources) placed (H.keyAt sources)
            fun place => H.flagged (sources.cell place)).hold (H.guardsOf sources)
              (H.keyAt sources place) place (H.flagged (sources.cell place)) := by
      simp [History.load]
    rw [hload]
    refine ⟨?_, ?_⟩
    · have hhold := hholds.hold htruncates
        (hplaced place (List.mem_append_right _ List.mem_cons_self)) rfl fun hset => by
        simp [stateOf, Versioned.State.stored, hflagged hset]
      refine hhold.congr fun k => ?_
      by_cases hk : k = H.keyAt sources place
      · subst hk
        rw [Function.update_self, List.map_append, List.filter_append]
        have hone : ([place].map sources.cell).filter (fun row =>
            H.rowKey row == H.keyAt sources place) = [sources.cell place] := by
          simp [keyAt]
        rw [hone, stateOf_concat hflagged]
      · have hnone : ([place].map sources.cell).filter (fun row => H.rowKey row == k) = [] := by
          have hne : ¬ H.rowKey (sources.cell place) = k := fun heq => hk heq.symm
          simp [hne]
        rw [Function.update_of_ne hk, List.map_append, List.filter_append, hnone, List.append_nil]
    · unfold History.hold
      split <;> exact htruncates

/-! ## Finishing -/

def Lists (H : HistoryTable D) (sources : Sources D H.stored) (list : List Version) (k : Bytes)
    (state : H.KeyState) : Prop :=
  (∃ key, H.Represents sources k { list, key } state) ∨
    ((∀ version ∈ list, H.keyAt sources version.data ≠ k) ∧ H.Empty state)

theorem Lists.frame {list' : List Version} {k' : Bytes}
    (h : H.Lists sources list k' state) (hframe : H.Frame sources k list list') (hne : k' ≠ k) :
    H.Lists sources list' k' state := by
  rcases h with ⟨key, hrep⟩ | ⟨hlist, hempty⟩
  · exact .inl ⟨key, hrep.frame hframe hne⟩
  · refine .inr ⟨fun version hversion hkey => ?_, hempty⟩
    obtain ⟨index, hindex⟩ := List.mem_iff_getElem?.mp hversion
    have hget := (hframe.get index version (hkey ▸ hne)).mp hindex
    exact hlist version (List.mem_of_getElem? hget) hkey

/-- Keys that meet the truncates they have not, one after another, are what they are once they met
    them, and leave those that are. -/
theorem lists_meet {truncates : List At} (htruncates : H.Ordered sources truncates)
    (rest : List (Bytes × History.Key))
    (hdistinct : rest.Pairwise fun left right => left.1 ≠ right.1) (list : List Version)
    (hrest : ∀ entry ∈ rest, ∃ state, H.Represents sources entry.1 { list, key := entry.2 } state ∧
        state.clearedAll H.life ((truncates.drop entry.2.met).map sources.cell) = keys entry.1)
    (hdone : ∀ k, (∀ entry ∈ rest, entry.1 ≠ k) → H.Lists sources list k (keys k)) :
    ∀ k, H.Lists sources
      (rest.foldl (fun list entry =>
        (History.meet (H.guardsOf sources) truncates { list, key := entry.2 }).list) list)
      k (keys k) := by
  induction rest generalizing list with
  | nil => exact fun k => hdone k (by simp)
  | cons entry rest ih =>
    obtain ⟨hfirst, hdistinct⟩ := List.pairwise_cons.mp hdistinct
    obtain ⟨state, hrep, hstate⟩ := hrest entry List.mem_cons_self
    obtain ⟨hmet, hframe, -⟩ := hrep.meet htruncates
    rw [hstate] at hmet
    refine ih hdistinct _ (fun other hother => ?_) fun k hk => ?_
    · obtain ⟨held, hheld, heq⟩ := hrest other (List.mem_cons_of_mem _ hother)
      exact ⟨held, hheld.frame hframe (hfirst other hother).symm, heq⟩
    · by_cases heq : k = entry.1
      · subst heq
        exact .inl ⟨_, hmet⟩
      · refine (hdone k fun other hother => ?_).frame hframe heq
        rcases List.mem_cons.mp hother with rfl | hother
        · exact Ne.symm heq
        · exact hk other hother

theorem Holds.finish (h : H.Holds sources table keys) (k : Bytes) :
    H.Lists sources (table.finish (H.guardsOf sources)) k (keys k) := by
  refine lists_meet h.ordered table.keys.toList ?_ table.list (fun entry hentry => ?_) ?_ k
  · refine table.keys.distinct_keys_toList.imp fun {left right} hne heq => ?_
    rw [heq] at hne
    simp at hne
  · exact h.key entry.1 entry.2 ((OrdMap.mem_toList _).mp hentry)
  · intro k hk
    refine .inr (h.missing k ?_)
    by_contra hsome
    obtain ⟨key, hkey⟩ := Option.ne_none_iff_exists'.mp hsome
    exact hk (k, key) ((OrdMap.mem_toList _).mpr hkey) rfl

theorem sound_of_lists (h : ∀ k, H.Lists sources list k (keys k)) :
    ∀ version ∈ list, H.Sound sources version := by
  intro version hversion
  rcases h (H.keyAt sources version.data) with ⟨key, hrep⟩ | ⟨hlist, -⟩
  · exact hrep.sound version hversion rfl
  · exact absurd rfl (hlist version hversion)

theorem Lists.rows (h : H.Lists sources list k state) :
    ((list.filter fun version => H.keyAt sources version.data == k && !version.current).map
        (H.cellsOf sources) : Multiset (Row D H.stored)) = state.closed ∧
      (list.filter fun version => H.keyAt sources version.data == k && version.current).map
        (H.cellsOf sources) = state.current.toList := by
  rcases h with ⟨key, hrep⟩ | ⟨hlist, hempty⟩
  · refine ⟨hrep.closed.symm, ?_⟩
    cases hindex : key.current with
    | none =>
      rw [hrep.current_eq_none hindex]
      simp only [Option.toList_none, List.map_eq_nil_iff, List.filter_eq_nil_iff, Bool.and_eq_true,
        beq_iff_eq, not_and]
      intro version hversion hkey hcurrent
      obtain ⟨index, hget⟩ := List.mem_iff_getElem?.mp hversion
      have := (hrep.index index).mpr ⟨version, hget, hkey, hcurrent⟩
      rw [hindex] at this
      cases this
    | some index =>
      obtain ⟨version, hget, hkey, hcurrent, -, hstate⟩ := hrep.exists_current hindex
      obtain ⟨hlt, hversion⟩ := List.getElem?_eq_some_iff.mp hget
      rw [hstate, Option.toList_some]
      -- the current version is the only one of its key
      have honly : ∀ other held, list[other]? = some held →
          (H.keyAt sources held.data == k && held.current) = true → other = index := by
        intro other held hheld hset
        rw [Bool.and_eq_true, beq_iff_eq] at hset
        have := (hrep.index other).mpr ⟨held, hheld, hset⟩
        rw [hindex] at this
        exact (Option.some.inj this).symm
      have htake : (list.take index).filter (fun version =>
          H.keyAt sources version.data == k && version.current) = [] := by
        rw [List.filter_eq_nil_iff]
        intro held hheld hset
        obtain ⟨other, hother⟩ := List.mem_iff_getElem?.mp hheld
        rw [List.getElem?_take] at hother
        split at hother
        · rename_i hother'
          exact absurd (honly other held hother hset) hother'.ne
        · cases hother
      have hdrop : (list.drop (index + 1)).filter (fun version =>
          H.keyAt sources version.data == k && version.current) = [] := by
        rw [List.filter_eq_nil_iff]
        intro held hheld hset
        obtain ⟨other, hother⟩ := List.mem_iff_getElem?.mp hheld
        rw [List.getElem?_drop] at hother
        have := honly _ held hother hset
        omega
      conv_lhs => rw [← List.take_append_drop index list, List.drop_eq_getElem_cons hlt, hversion]
      rw [List.filter_append, htake, List.nil_append,
        List.filter_cons_of_pos (by simp [hkey, hcurrent]),
        hdrop, List.map_singleton]
  · have hnone : ∀ p : Version → Bool,
        list.filter (fun version => H.keyAt sources version.data == k && p version) = [] := by
      intro p
      rw [List.filter_eq_nil_iff]
      intro version hversion
      simp [hlist version hversion]
    rw [hnone, hnone, hempty.closed, hempty.current]
    exact ⟨rfl, rfl⟩

end

end HistoryTable

end Rdlt.Merge
