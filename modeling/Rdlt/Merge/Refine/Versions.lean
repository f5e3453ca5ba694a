/-
  Rdlt.Merge.Refine.Versions

  A history table's list of versions as each key's versions: what closing and
  opening a version does to the versions of its key, and that it leaves those of
  every other key.
-/

import Rdlt.Merge.HistoryTable
import Rdlt.Merge.Versioned.Laws
import Rdlt.Merge.Refine.Sources

namespace Rdlt.Merge

open History (Version Versions Guards)

variable {index : Nat} {row : At}

namespace HistoryTable

variable {k : Bytes} {list list' : List Version}

variable {D : Type} {H : HistoryTable D} {sources : Sources D H.stored}

/-! ## The rows of versions -/

section

variable (H : HistoryTable D) (sources : Sources D H.stored)

/-- What a merge reads of the rows of its sources. -/
def guardsOf : Guards where
  seq place := H.life.seq (sources.cell place)
  hash place := H.life.hash (sources.cell place)
  begins place := H.life.begins (sources.cell place)
  ends place := H.life.ends (sources.cell place)
  times := H.time.map fun column place => (sources.cell place column).isSome

def keyAt (place : At) : Bytes :=
  H.rowKey (sources.cell place)

/-- The row of a version: its published row, where the merge left it, or what it is composed of. -/
def cellsOf (version : Version) : Row D H.stored :=
  if version.touched then
    H.dated (H.published (sources.cell version.data) (sources.cell version.opened)) version.began
      version.ended version.current
  else sources.cell version.data

end

def Placed (sources : Sources D H.stored) (place : At) : Prop :=
  place.source < sources.list.length

/-- A version is of rows of the sources, and one the merge left is what its published row says. -/
structure Sound (H : HistoryTable D) (sources : Sources D H.stored) (version : Version) : Prop where
  data : Placed sources version.data
  opened : Placed sources version.opened
  untouched : version.touched = false → version.opened = version.data ∧
    version.began = H.begins (sources.cell version.data) ∧
    version.ended = H.life.ends (sources.cell version.data) ∧
    version.current = H.flagged (sources.cell version.data)

theorem deleted_guardsOf (place : At) :
    (H.guardsOf sources).deleted place = H.life.deleted (sources.cell place) := by
  simp only [Guards.deleted, guardsOf, life, deleted]
  cases H.time <;> rfl

theorem cellsOf_of_not_life (version : Version) {column : H.stored.Column}
    (hlife : ¬ H.LifeColumn column) (hopened : ¬ H.OpenedColumn column) :
    H.cellsOf sources version column = sources.cell version.data column := by
  unfold cellsOf
  split
  · rw [H.dated_of_not_life _ _ _ _ hlife, published, if_neg hopened]
  · rfl

theorem rowKey_cellsOf (version : Version) :
    H.rowKey (H.cellsOf sources version) = H.keyAt sources version.data := by
  refine congrArg H.encode (H.keyCells_congr fun column hcolumn => ?_)
  obtain ⟨hlife, hopened⟩ := KeyColumn.not_life H hcolumn
  exact cellsOf_of_not_life version hlife hopened

theorem hash_cellsOf (version : Version) :
    H.life.hash (H.cellsOf sources version) = H.life.hash (sources.cell version.data) := by
  simp only [life]
  rw [cellsOf_of_not_life version H.not_lifeColumn_hash H.not_openedColumn_hash]

section

variable {version : Version} (h : H.Sound sources version)
include h

theorem seq_cellsOf :
    H.life.seq (H.cellsOf sources version) = H.life.seq (sources.cell version.opened) := by
  simp only [life, cellsOf]
  split
  · rw [H.dated_of_not_life _ _ _ _ H.not_lifeColumn_seq, published, if_pos (.inl rfl)]
  · rename_i htouched
    rw [(h.untouched (by simpa using htouched)).1]

theorem deleted_cellsOf :
    H.life.deleted (H.cellsOf sources version) = H.life.deleted (sources.cell version.opened) := by
  unfold cellsOf
  split
  · exact H.deleted_dated ..
  · rename_i htouched
    rw [(h.untouched (by simpa using htouched)).1]

theorem begins_cellsOf : H.life.begins (H.cellsOf sources version) = version.began := by
  simp only [life, cellsOf]
  split
  · rw [begins, dated_from]
    rfl
  · rename_i htouched
    exact (h.untouched (by simpa using htouched)).2.1.symm

theorem flagged_cellsOf : H.flagged (H.cellsOf sources version) = version.current := by
  simp only [flagged, cellsOf]
  split
  · rw [dated_flag]
    rfl
  · rename_i htouched
    exact (h.untouched (by simpa using htouched)).2.2.2.symm

theorem cellsOf_close (ended : Int) :
    H.cellsOf sources { version with ended := some ended, current := false, touched := true }
      = H.life.closeAt ended (H.cellsOf sources version) := by
  have hbegan : H.begins (H.cellsOf sources version) = version.began := begins_cellsOf h
  simp only [life]
  rw [hbegan, cellsOf, if_pos rfl]
  refine H.dated_congr _ _ _ fun column hlife => ?_
  unfold cellsOf
  split
  · rw [H.dated_of_not_life _ _ _ _ hlife]
  · rename_i htouched
    rw [(h.untouched (by simpa using htouched)).1, published_self]

end

theorem cellsOf_open (data opened : At) (began : Int) {row : Row D H.stored}
    (hrow : ∀ column, ¬ H.LifeColumn column → ¬ H.OpenedColumn column →
      row column = sources.cell data column) :
    H.cellsOf sources { data, opened, began, ended := none, current := true, touched := true }
      = H.life.openAt began row (sources.cell opened) := by
  refine H.dated_congr _ _ _ fun column hlife => ?_
  by_cases hopened : H.OpenedColumn column
  · simp only [published, if_pos hopened]
  · simp only [published, if_neg hopened, hrow column hlife hopened]

/-! ## The versions of a key in the list -/

def endedOf (H : HistoryTable D) (sources : Sources D H.stored) (k : Bytes) (version : Version) :
    Bool :=
  H.keyAt sources version.data == k && !version.current

/-- The versions of a key in a list of versions, and what is kept of the key, are those `state`
    has. -/
structure Represents (H : HistoryTable D) (sources : Sources D H.stored) (k : Bytes)
    (versions : Versions) (state : H.KeyState) : Prop where
  sound : ∀ version ∈ versions.list, H.keyAt sources version.data = k → H.Sound sources version
  closed : state.closed
    = ((versions.list.filter (H.endedOf sources k)).map (H.cellsOf sources) : Multiset _)
  index : ∀ index, versions.key.current = some index ↔
    ∃ version, versions.list[index]? = some version ∧ H.keyAt sources version.data = k ∧
      version.current
  current : state.current
    = (versions.key.current.bind fun index => versions.list[index]?).map (H.cellsOf sources)
  newest : state.newest = (H.guardsOf sources).seq versions.key.newest
  floor : state.floor H.life = versions.key.floor.elim ⊥ fun floor => (floor : WithBot Int)
  truncated : state.truncated = versions.key.truncated

/-- `list'` has the versions `list` has of every key but that encoded `k`, where it has them. -/
structure Frame (H : HistoryTable D) (sources : Sources D H.stored) (k : Bytes)
    (list list' : List Version) : Prop where
  get : ∀ (index : Nat) (version : Version), H.keyAt sources version.data ≠ k →
    (list'[index]? = some version ↔ list[index]? = some version)
  filter : list'.filter (fun version => H.keyAt sources version.data != k)
    = list.filter fun version => H.keyAt sources version.data != k

theorem Frame.refl (k : Bytes) (list : List Version) : H.Frame sources k list list :=
  ⟨fun _ _ _ => Iff.rfl, rfl⟩

theorem Frame.trans {list'' : List Version}
    (h : H.Frame sources k list list') (h' : H.Frame sources k list' list'') :
    H.Frame sources k list list'' :=
  ⟨fun index version hne => (h'.get index version hne).trans (h.get index version hne),
    h'.filter.trans h.filter⟩

variable {version : Version}

theorem Frame.modify (hget : list[index]? = some version) (hkey : H.keyAt sources version.data = k)
    {f : Version → Version} (hf : H.keyAt sources (f version).data = k) :
    H.Frame sources k list (list.modify index f) := by
  refine ⟨fun other held hne => ?_, ?_⟩
  · rw [List.getElem?_modify]
    by_cases hindex : index = other
    · subst hindex
      simp only [hget, if_true, Option.map_eq_map, Option.map_some, Option.some.injEq]
      refine ⟨?_, ?_⟩
      · rintro rfl
        exact absurd hf hne
      · rintro rfl
        exact absurd hkey hne
    · simp [hindex]
  · obtain ⟨hlt, hheld⟩ := List.getElem?_eq_some_iff.mp hget
    rw [List.modify_eq_take_cons_drop hlt, hheld]
    conv_rhs => rw [← List.take_append_drop index list, List.drop_eq_getElem_cons hlt, hheld]
    simp [hkey, hf]

theorem Frame.concat (list : List Version) (hkey : H.keyAt sources version.data = k) :
    H.Frame sources k list (list ++ [version]) := by
  refine ⟨fun index held hne => ?_, by simp [hkey]⟩
  rw [List.getElem?_append]
  split
  · rfl
  · rename_i hge
    rw [List.getElem?_eq_none (Nat.le_of_not_lt hge)]
    simp only [reduceCtorEq, iff_false]
    intro hget
    have hmem := List.mem_of_getElem? hget
    rw [List.mem_singleton.mp hmem] at hne
    exact hne hkey

theorem Frame.filter_of_ne {k' : Bytes} (h : H.Frame sources k list list') (hne : k' ≠ k) :
    list'.filter (H.endedOf sources k') = list.filter (H.endedOf sources k') := by
  have hsub : ∀ list : List Version, list.filter (H.endedOf sources k')
      = (list.filter fun version => H.keyAt sources version.data != k).filter
          (H.endedOf sources k') := by
    intro list
    rw [List.filter_filter]
    refine List.filter_congr fun version _ => ?_
    by_cases hkey : H.keyAt sources version.data = k'
    · simp [endedOf, hkey, hne]
    · simp [endedOf, hkey]
  rw [hsub list', h.filter, ← hsub list]

theorem Represents.frame {k' : Bytes} {key : History.Key}
    {state : H.KeyState} (h : H.Represents sources k' { list, key } state)
    (hframe : H.Frame sources k list list') (hne : k' ≠ k) :
    H.Represents sources k' { list := list', key } state where
  sound version hversion hkey := by
    obtain ⟨index, hindex⟩ := List.mem_iff_getElem?.mp hversion
    have hget := (hframe.get index version (hkey ▸ hne)).mp hindex
    exact h.sound version (List.mem_of_getElem? hget) hkey
  closed := by
    rw [h.closed]
    dsimp only
    rw [hframe.filter_of_ne hne]
  index index := by
    refine (h.index index).trans (exists_congr fun version => ?_)
    by_cases hkey : H.keyAt sources version.data = k'
    · have hget := hframe.get index version (hkey ▸ hne)
      simp only [hget]
    · simp [hkey]
  current := by
    rw [h.current]
    dsimp only
    cases hindex : key.current with
    | none => rfl
    | some index =>
      obtain ⟨version, hget, hkey, -⟩ := (h.index index).mp hindex
      have hget' := (hframe.get index version (hkey ▸ hne)).mpr hget
      simp only [Option.bind_some, hget']
      exact congrArg _ hget
  newest := h.newest
  floor := h.floor
  truncated := h.truncated

/-! ## Closing and opening -/

def ended (instant : Int) (version : Version) : Version :=
  { version with ended := some instant, current := false, touched := true }

def closedList (list : List Version) (current : Option Nat) (instant : Int) : List Version :=
  current.elim list fun index => list.modify index (ended instant)

/-- What closing a key's current version, and opening one of `data` where there is any, that the
    change at `row` published, leaves. -/
def replaced (guards : Guards) (versions : Versions) (data : Option At) (row : At) : Versions :=
  let (begun, began) := versions.begun guards row
  let list := closedList versions.list versions.key.current began
  match data with
  | some data => ({ begun with list } : Versions).openAt data row began
  | none => { list, key := { begun.key with current := none } }

section

variable {k : Bytes} {versions : Versions} {state : H.KeyState}

section

variable (h : H.Represents sources k versions state)
include h

theorem Represents.begun_eq (row : At) :
    (versions.begun (H.guardsOf sources) row).2 = state.begun H.life (sources.cell row) := by
  rw [Versions.begun, Versioned.State.begun, h.floor]
  cases versions.key.floor <;> rfl

theorem Represents.exists_current (hindex : versions.key.current = some index) :
    ∃ version, versions.list[index]? = some version ∧ H.keyAt sources version.data = k ∧
      version.current ∧ H.Sound sources version ∧
      state.current = some (H.cellsOf sources version) := by
  obtain ⟨version, hget, hkey, hcurrent⟩ := (h.index index).mp hindex
  refine ⟨version, hget, hkey, hcurrent, h.sound version (List.mem_of_getElem? hget) hkey, ?_⟩
  rw [h.current, hindex, Option.bind_some, hget]
  rfl

theorem Represents.current_eq_none
    (hindex : versions.key.current = none) : state.current = none := by
  rw [h.current, hindex]
  rfl

theorem Represents.frame_closedList (instant : Int) :
    H.Frame sources k versions.list (closedList versions.list versions.key.current instant) := by
  cases hindex : versions.key.current with
  | none => exact Frame.refl k _
  | some index =>
    obtain ⟨version, hget, hkey, -⟩ := h.exists_current hindex
    exact Frame.modify hget hkey hkey

/-- Ending the current version leaves the key none, and every version of it sound. -/
theorem Represents.closedList_spec (instant : Int)
    (hget : (closedList versions.list versions.key.current instant)[index]? = some version)
    (hkey : H.keyAt sources version.data = k) :
    version.current = false ∧ H.Sound sources version := by
  cases hindex : versions.key.current with
  | none =>
    rw [hindex] at hget
    refine ⟨?_, h.sound version (List.mem_of_getElem? hget) hkey⟩
    by_contra hcurrent
    have := (h.index index).mpr ⟨version, hget, hkey, by simpa using hcurrent⟩
    rw [hindex] at this
    cases this
  | some held =>
    rw [hindex] at hget
    simp only [closedList, Option.elim_some, List.getElem?_modify, Option.map_eq_map,
      Option.map_eq_some_iff] at hget
    obtain ⟨before, hbefore, rfl⟩ := hget
    split
    · rename_i hsame
      rw [if_pos hsame] at hkey
      have hsound := h.sound before (List.mem_of_getElem? hbefore) hkey
      exact ⟨rfl, hsound.data, hsound.opened, fun htouched => by cases htouched⟩
    · rename_i hne
      rw [if_neg hne] at hkey
      refine ⟨?_, h.sound before (List.mem_of_getElem? hbefore) hkey⟩
      by_contra hcurrent
      have := (h.index index).mpr ⟨before, hbefore, hkey, by simpa using hcurrent⟩
      rw [hindex] at this
      exact hne (Option.some.inj this)

theorem Represents.closed_closedList (instant : Int) :
    (((closedList versions.list versions.key.current instant).filter (H.endedOf sources k)).map
        (H.cellsOf sources) : Multiset (Row D H.stored))
      = ((state.current.map (H.life.closeAt instant)).toList : Multiset (Row D H.stored))
        + state.closed := by
  cases hindex : versions.key.current with
  | none =>
    rw [h.current_eq_none hindex, h.closed]
    simp [closedList]
  | some index =>
    obtain ⟨version, hget, hkey, hcurrent, hsound, hheld⟩ := h.exists_current hindex
    obtain ⟨hlt, hversion⟩ := List.getElem?_eq_some_iff.mp hget
    have hended : H.endedOf sources k (ended instant version) = true := by
      simp [endedOf, ended, hkey]
    have hopen : H.endedOf sources k version = false := by simp [endedOf, hcurrent]
    have hbefore : versions.list.filter (H.endedOf sources k)
        = (versions.list.take index).filter (H.endedOf sources k)
          ++ (versions.list.drop (index + 1)).filter (H.endedOf sources k) := by
      conv_lhs => rw [← List.take_append_drop index versions.list,
        List.drop_eq_getElem_cons hlt, hversion]
      simp [hopen]
    rw [hheld, h.closed, hbefore, closedList, Option.elim_some,
      List.modify_eq_take_cons_drop hlt, hversion, List.filter_append,
      List.filter_cons_of_pos hended, List.map_append, List.map_cons, List.map_append,
      ended, cellsOf_close hsound]
    simp only [Option.map_some, Option.toList_some, Multiset.coe_add, List.singleton_append]
    exact Multiset.coe_eq_coe.mpr List.perm_middle

/-- Closing a key's current version and opening one is replacing it. -/
theorem Represents.open (hrow : Placed sources row) {data : At} (hdata : Placed sources data)
    (hkey : H.keyAt sources data = k) {held : Row D H.stored}
    (hheld : ∀ column, ¬ H.LifeColumn column → ¬ H.OpenedColumn column →
      held column = sources.cell data column) :
    H.Represents sources k (replaced (H.guardsOf sources) versions (some data) row)
        (state.replace H.life (some held) (sources.cell row)) ∧ H.Frame sources k versions.list
        (replaced (H.guardsOf sources) versions (some data) row).list := by
  have hbegun := h.begun_eq row
  set began := (versions.begun (H.guardsOf sources) row).2 with hbegan
  have hlist : (replaced (H.guardsOf sources) versions (some data) row).list
      = closedList versions.list versions.key.current began ++
        [{ data, opened := row, began, ended := none, current := true, touched := true }] := rfl
  have hlength : (replaced (H.guardsOf sources) versions (some data) row).key.current
      = some (closedList versions.list versions.key.current began).length := rfl
  refine ⟨⟨?_, ?_, ?_, ?_, rfl, ?_, h.truncated⟩, ?_⟩
  · intro version hversion hkey'
    rw [hlist, List.mem_append, List.mem_singleton] at hversion
    rcases hversion with hversion | rfl
    · obtain ⟨index, hget⟩ := List.mem_iff_getElem?.mp hversion
      exact (h.closedList_spec began hget hkey').2
    · exact ⟨hdata, hrow, fun htouched => by cases htouched⟩
  · rw [hlist, List.filter_append, Versioned.State.replace, ← hbegun, ← h.closed_closedList]
    simp [endedOf]
  · intro index
    rw [hlength, hlist]
    constructor
    · intro heq
      cases heq
      exact ⟨_, List.getElem?_concat_length, hkey, rfl⟩
    · rintro ⟨version, hget, hkey', hcurrent⟩
      rw [List.getElem?_append] at hget
      split at hget
      · rw [(h.closedList_spec began hget hkey').1] at hcurrent
        cases hcurrent
      · rename_i hge
        have hone := (List.getElem?_eq_some_iff.mp hget).1
        simp only [List.length_singleton] at hone
        congr 1
        omega
  · rw [hlength, hlist, Option.bind_some, List.getElem?_concat_length, Option.map_some,
      cellsOf_open data row began hheld, hbegun]
    rfl
  · rw [Versioned.State.floor_replace (.inr rfl), ← hbegun]
    rfl
  · exact (h.frame_closedList began).trans (Frame.concat _ hkey)

/-- Closing a key's current version, where it has one, is replacing it by none. -/
theorem Represents.close (row : At) (hcurrent : state.current.isSome) :
    H.Represents sources k (replaced (H.guardsOf sources) versions none row)
        (state.replace H.life none (sources.cell row)) ∧
      H.Frame sources k versions.list (replaced (H.guardsOf sources) versions none row).list := by
  have hbegun := h.begun_eq row
  set began := (versions.begun (H.guardsOf sources) row).2 with hbegan
  have hlist : (replaced (H.guardsOf sources) versions none row).list
      = closedList versions.list versions.key.current began := rfl
  refine ⟨⟨?_, ?_, ?_, rfl, h.newest, ?_, h.truncated⟩, ?_⟩
  · intro version hversion hkey'
    obtain ⟨index, hget⟩ := List.mem_iff_getElem?.mp hversion
    exact (h.closedList_spec began hget hkey').2
  · rw [hlist, Versioned.State.replace, ← hbegun, ← h.closed_closedList]
  · intro index
    rw [hlist]
    refine ⟨fun hnone => (by cases hnone), ?_⟩
    rintro ⟨version, hget, hkey', hcurrent⟩
    rw [(h.closedList_spec began hget hkey').1] at hcurrent
    cases hcurrent
  · rw [Versioned.State.floor_replace (.inl hcurrent), ← hbegun]
    rfl
  · exact h.frame_closedList began

/-! ## Changes of a key -/

/-- An upsert does to a key's versions in the list what it does to them. -/
theorem Represents.upsert (hrow : Placed sources row) (hkey : H.keyAt sources row = k) :
    H.Represents sources k (versions.upsert (H.guardsOf sources) row)
        (state.upserted H.life (sources.cell row)) ∧
      H.Frame sources k versions.list (versions.upsert (H.guardsOf sources) row).list := by
  have hopen := h.open hrow hrow hkey fun _ _ _ => rfl
  cases hindex : versions.key.current with
  | none =>
    have halike : state.alike H.life (sources.cell row) = false := by
      simp [Versioned.State.alike, h.current_eq_none hindex]
    have hupsert : versions.upsert (H.guardsOf sources) row
        = replaced (H.guardsOf sources) versions (some row) row := by
      simp only [Versions.upsert, hindex, replaced]
      rfl
    rw [hupsert, Versioned.State.upserted, halike]
    exact hopen
  | some index =>
    obtain ⟨version, hget, -, -, hsound, hcurrent⟩ := h.exists_current hindex
    have halike : state.alike H.life (sources.cell row)
        = (!(H.guardsOf sources).deleted version.opened &&
            (H.guardsOf sources).hash version.data == (H.guardsOf sources).hash row) := by
      rw [Versioned.State.alike, hcurrent, Option.any_some, deleted_cellsOf hsound, hash_cellsOf,
        deleted_guardsOf]
      -- the hashes are compared by two instances of one equality
      exact congrArg _ (Bool.eq_iff_iff.mpr
        ((@beq_iff_eq _ instBEqOfDecidableEq _ _ _).trans beq_iff_eq.symm))
    have hupsert : versions.upsert (H.guardsOf sources) row
        = if state.alike H.life (sources.cell row) then versions
          else replaced (H.guardsOf sources) versions (some row) row := by
      simp only [Versions.upsert, hindex, Option.bind_some, hget, Option.map_some, halike, replaced]
      rfl
    rw [hupsert, Versioned.State.upserted]
    split
    · exact ⟨h, Frame.refl k _⟩
    · exact hopen

/-- A delete does to a key's versions in the list what it does to them. -/
theorem Represents.remove (hrow : Placed sources row) :
    H.Represents sources k (versions.remove (H.guardsOf sources) row)
        (state.removed H.life (sources.cell row)) ∧
      H.Frame sources k versions.list (versions.remove (H.guardsOf sources) row).list := by
  cases hindex : versions.key.current with
  | none =>
    have hremove : versions.remove (H.guardsOf sources) row = versions := by
      simp only [Versions.remove, hindex, Option.bind_none]
    rw [hremove, Versioned.State.removed_of_current_eq_none (h.current_eq_none hindex)]
    exact ⟨h, Frame.refl k _⟩
  | some index =>
    obtain ⟨version, hget, hkey, -, hsound, hcurrent⟩ := h.exists_current hindex
    have hremove : versions.remove (H.guardsOf sources) row
        = if H.life.hard then replaced (H.guardsOf sources) versions none row
          else if H.life.deleted (H.cellsOf sources version) then versions
          else replaced (H.guardsOf sources) versions (some version.data) row := by
      have hhard : (H.guardsOf sources).times.isNone = H.life.hard := by
        simp [guardsOf, life]
      rw [deleted_cellsOf hsound, ← deleted_guardsOf, ← hhard]
      simp only [Versions.remove, hindex, Option.bind_some, hget, Option.map_some, replaced]
      cases (H.guardsOf sources).deleted version.opened <;> rfl
    rw [hremove, Versioned.State.removed, hcurrent]
    dsimp only
    split
    · exact h.close row (by simp [hcurrent])
    · split
      · exact ⟨h, Frame.refl k _⟩
      · exact h.open hrow hsound.data hkey fun column hlife hopened =>
          cellsOf_of_not_life version hlife hopened

end

theorem met_upsert (guards : Guards) (versions : Versions) (row : At) :
    (versions.upsert guards row).key.met = versions.key.met := by
  unfold Versions.upsert
  split
  · split <;> rfl
  · rfl

theorem met_remove (guards : Guards) (versions : Versions) (row : At) :
    (versions.remove guards row).key.met = versions.key.met := by
  unfold Versions.remove
  split
  · rfl
  · split
    · rfl
    · split <;> rfl

theorem Represents.met (h : H.Represents sources k versions state) (met : Nat) :
    H.Represents sources k { versions with key := { versions.key with met } } state :=
  ⟨h.sound, h.closed, h.index, h.current, h.newest, h.floor, h.truncated⟩

theorem Represents.marked (h : H.Represents sources k versions state) (truncated : Bool) :
    H.Represents sources k { versions with key := { versions.key with truncated } }
      { state with truncated } :=
  ⟨h.sound, h.closed, h.index, h.current, h.newest, h.floor, rfl⟩

/-- Truncates in sequence order, each with the time it deletes at where deletes are soft. -/
structure Ordered (H : HistoryTable D) (sources : Sources D H.stored) (truncates : List At) :
    Prop where
  placed : ∀ truncate ∈ truncates, Placed sources truncate
  sorted : truncates.Pairwise fun left right =>
    (H.guardsOf sources).seq left ≤ (H.guardsOf sources).seq right
  timed : ∀ truncate ∈ truncates, H.life.hard = false → H.life.deleted (sources.cell truncate)

/-- A key that meets the truncates it has not is what they leave of it, one by one. -/
theorem Represents.meet (h : H.Represents sources k versions state) {truncates : List At}
    (htruncates : H.Ordered sources truncates) :
    H.Represents sources k (History.meet (H.guardsOf sources) truncates versions)
        (state.clearedAll H.life ((truncates.drop versions.key.met).map sources.cell)) ∧
      H.Frame sources k versions.list (History.meet (H.guardsOf sources) truncates versions).list ∧
      (History.meet (H.guardsOf sources) truncates versions).key.met = truncates.length := by
  have hmet := h.met truncates.length
  unfold History.meet
  cases hindex : versions.key.current with
  | none =>
    rw [Versioned.State.clearedAll_of_current_eq_none (h.current_eq_none hindex)]
    exact ⟨hmet, Frame.refl k _, rfl⟩
  | some index =>
    obtain ⟨version, hget, -, -, hsound, hcurrent⟩ := h.exists_current hindex
    simp only [Option.bind_some, hget]
    set pending := truncates.drop versions.key.met with hpending
    set p := fun truncate => before ((H.guardsOf sources).seq truncate)
      ((H.guardsOf sources).seq version.opened) with hp
    have hseq : H.life.seq (H.cellsOf sources version) = (H.guardsOf sources).seq version.opened :=
      seq_cellsOf hsound
    have hpassed : ∀ truncate ∈ pending.takeWhile p,
        H.life.seq (sources.cell truncate) ≤ H.life.seq (H.cellsOf sources version) := by
      intro truncate htruncate
      rw [hseq]
      have hbefore : p truncate = true := List.mem_takeWhile_imp htruncate
      exact of_decide_eq_true hbefore
    have hsplit := List.takeWhile_append_dropWhile (p := p) (l := pending)
    have hfirst : pending[partitionPoint p pending]? = (pending.dropWhile p)[0]? := by
      conv_lhs => rw [← hsplit]
      rw [List.getElem?_append_right (by rw [hsplit]; exact le_rfl), hsplit, partitionPoint,
        Nat.sub_self]
    rw [hfirst]
    cases hdrop : pending.dropWhile p with
    | nil =>
      rw [hdrop, List.append_nil] at hsplit
      have hall : state.clearedAll H.life (pending.map sources.cell) = state := by
        refine Versioned.State.clearedAll_of_le fun row hrow held hheld => ?_
        obtain ⟨truncate, htruncate, rfl⟩ := List.mem_map.mp hrow
        rw [hcurrent] at hheld
        cases hheld
        rw [← hsplit] at htruncate
        exact hpassed truncate htruncate
      rw [hall]
      exact ⟨hmet, Frame.refl k _, rfl⟩
    | cons truncate rest =>
      rw [hdrop] at hsplit
      have hmem : truncate ∈ truncates :=
        List.mem_of_mem_drop (hsplit ▸ List.mem_append_right _ List.mem_cons_self)
      have hnot : p truncate = false := by
        have hhead := List.head_dropWhile_not p (l := pending) (by simp [hdrop])
        simpa [hdrop] using hhead
      have hlt : H.life.seq (H.cellsOf sources version) < H.life.seq (sources.cell truncate) := by
        rw [hseq]
        exact not_le.mp (of_decide_eq_false hnot)
      have hall := Versioned.State.clearedAll_of_lt hcurrent
        ((pending.takeWhile p).map sources.cell)
        (fun row hrow => by
          obtain ⟨held, hheld, rfl⟩ := List.mem_map.mp hrow
          exact hpassed held hheld) hlt (htruncates.timed truncate hmem) (rest.map sources.cell)
      rw [← List.map_cons, ← List.map_append, hsplit] at hall
      rw [hall]
      obtain ⟨hremoved, hframe⟩ := hmet.remove (htruncates.placed truncate hmem)
      exact ⟨hremoved.marked true, hframe, met_remove ..⟩

end

end HistoryTable

end Rdlt.Merge
