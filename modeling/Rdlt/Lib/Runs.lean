/-
  Rdlt.Lib.Runs

  The last row of each key, found by sorting: the rows' places are ordered by
  key, then by place, cut into runs of one key, and the last of each run is
  taken. Bits set at places found so say which rows no later row shares a key
  with.
-/

import Mathlib

namespace Rdlt.Lib

variable {α κ : Type*}

/-! ## The last of each run -/

def lasts [DecidableEq κ] (key : α → κ) (l : List α) : List α :=
  (l.splitBy fun left right => key left = key right).filterMap List.getLast?

/-- In a sorted list whose keys come together, the last of a run is the greatest of its key. -/
theorem mem_lasts [LinearOrder α] [DecidableEq κ] {key : α → κ} {l : List α}
    (hsorted : l.Pairwise (· ≤ ·))
    (hkey : ∀ a b c, a ≤ b → b ≤ c → key a = key c → key b = key a) {a : α} :
    a ∈ lasts key l ↔ a ∈ l ∧ ∀ b ∈ l, key b = key a → b ≤ a := by
  rw [lasts]
  generalize hruns : l.splitBy (fun left right => decide (key left = key right)) = runs
  obtain ⟨rfl, -, hruns, hnext⟩ := List.splitBy_eq_iff.mp hruns
  simp only [decide_eq_true_eq] at hruns
  constructor
  · intro ha
    obtain ⟨run, hmem, hlast⟩ := List.mem_filterMap.mp ha
    obtain ⟨before, rfl⟩ := List.getLast?_eq_some_iff.mp hlast
    obtain ⟨left, right, rfl⟩ := List.append_of_mem hmem
    refine ⟨by simp, fun b hb hsame => ?_⟩
    simp only [List.flatten_append, List.flatten_cons] at hsorted hb
    obtain ⟨-, hright, hleft⟩ := List.pairwise_append.mp hsorted
    obtain ⟨hrun, hright, hafter⟩ := List.pairwise_append.mp hright
    obtain hb | hb := List.mem_append.mp hb
    · exact hleft b hb a (by simp)
    obtain hb | hb := List.mem_append.mp hb
    · obtain hb | hb := List.mem_append.mp hb
      · exact (List.pairwise_append.mp hrun).2.2 b hb a (List.mem_singleton.mpr rfl)
      · exact (List.mem_singleton.mp hb).le
    · -- the next run begins with another key, and every later row comes no earlier than that one
      cases right with
      | nil => simp at hb
      | cons next rest =>
        have hchain := (List.isChain_append.mp hnext).2.1
        obtain ⟨hne, hne', hdiffer⟩ := (List.isChain_cons_cons.mp hchain).1
        obtain ⟨first, others, rfl⟩ := List.exists_cons_of_ne_nil hne'
        rw [List.getLast_append_singleton, decide_eq_false_iff_not, List.head_cons] at hdiffer
        rw [List.flatten_cons, List.cons_append] at hb hright
        have hle : first ≤ b := by
          obtain rfl | hb := List.mem_cons.mp hb
          · exact le_refl _
          · exact (List.pairwise_cons.mp hright).1 b hb
        have hfirst : a ≤ first := hafter a (by simp) first (by simp)
        exact absurd (hkey a first b hfirst hle hsame.symm).symm hdiffer
  · rintro ⟨ha, hgreatest⟩
    obtain ⟨run, hmem, harun⟩ := List.mem_flatten.mp ha
    cases hlast : run.getLast? with
    | none =>
      rw [List.getLast?_eq_none_iff.mp hlast] at harun
      cases harun
    | some last =>
      obtain ⟨before, rfl⟩ := List.getLast?_eq_some_iff.mp hlast
      have hone : (before ++ [last]).Pairwise fun b c => key b = key c :=
        List.isChain_iff_pairwise.mp (hruns _ hmem)
      have hrun : (before ++ [last]).Pairwise (· ≤ ·) :=
        hsorted.sublist (List.sublist_flatten_of_mem hmem)
      have hsame : a = last ∨ (a ≤ last ∧ key a = key last) := by
        obtain hb | hb := List.mem_append.mp harun
        · exact .inr ⟨(List.pairwise_append.mp hrun).2.2 a hb last (by simp),
            (List.pairwise_append.mp hone).2.2 a hb last (by simp)⟩
        · exact .inl (List.mem_singleton.mp hb)
      have heq : a = last := by
        obtain rfl | ⟨hle, hkeys⟩ := hsame
        · rfl
        · have hinl : last ∈ runs.flatten := List.mem_flatten.mpr ⟨_, hmem, by simp⟩
          exact le_antisymm hle (hgreatest last hinl hkeys.symm)
      rw [heq]
      exact List.mem_filterMap.mpr ⟨_, hmem, hlast⟩

/-! ## The last row of each key -/

variable [LinearOrder κ]

def ordered (rows : List κ) : List (κ ×ₗ ℕ) :=
  (rows.zipIdx.map toLex).insertionSort (· ≤ ·)

/-- The places of the rows that are the last of their key. -/
def lastOfRuns (rows : List κ) : List ℕ :=
  (lasts (fun entry => (ofLex entry).1) (ordered rows)).map fun entry => (ofLex entry).2

theorem mem_ordered {rows : List κ} {entry : κ ×ₗ ℕ} :
    entry ∈ ordered rows ↔ rows[(ofLex entry).2]? = some (ofLex entry).1 := by
  rw [ordered, List.mem_insertionSort, ← List.mk_mem_zipIdx_iff_getElem?]
  constructor
  · intro h
    obtain ⟨pair, hpair, rfl⟩ := List.mem_map.mp h
    exact hpair
  · intro h
    exact List.mem_map.mpr ⟨ofLex entry, h, rfl⟩

theorem mem_lastOfRuns {rows : List κ} {place : ℕ} : place ∈ lastOfRuns rows
      ↔ ∃ row, rows[place]? = some row ∧ ∀ later, place < later → rows[later]? ≠ some row := by
  have hsorted : (ordered rows).Pairwise (· ≤ ·) := List.pairwise_insertionSort _ _
  have hkey : ∀ a b c : κ ×ₗ ℕ, a ≤ b → b ≤ c → (ofLex a).1 = (ofLex c).1 →
      (ofLex b).1 = (ofLex a).1 := by
    intro a b c hab hbc hac
    have hab' : (ofLex a).1 ≤ (ofLex b).1 := Prod.Lex.monotone_fst a b hab
    have hbc' : (ofLex b).1 ≤ (ofLex c).1 := Prod.Lex.monotone_fst b c hbc
    exact le_antisymm (hbc'.trans hac.ge) hab'
  rw [lastOfRuns, List.mem_map]
  constructor
  · rintro ⟨entry, hentry, rfl⟩
    obtain ⟨hmem, hlast⟩ := (mem_lasts hsorted hkey).mp hentry
    refine ⟨(ofLex entry).1, mem_ordered.mp hmem, fun later hlater hsame => ?_⟩
    have hle := hlast (toLex ((ofLex entry).1, later)) (mem_ordered.mpr hsame) rfl
    obtain h | ⟨-, h⟩ := Prod.Lex.le_iff.mp hle
    · exact lt_irrefl _ h
    · exact absurd h (not_le.mpr hlater)
  · rintro ⟨row, hrow, hlast⟩
    refine ⟨toLex (row, place), (mem_lasts hsorted hkey).mpr ⟨mem_ordered.mpr hrow, ?_⟩, rfl⟩
    intro other hother hsame
    have hplace : ¬ place < (ofLex other).2 := by
      intro hlt
      apply hlast _ hlt
      rw [mem_ordered.mp hother, hsame]
      rfl
    exact Prod.Lex.le_iff.mpr (.inr ⟨hsame, not_lt.mp hplace⟩)

/-- Of entries that come in the order of their places, those found are the last of their key. -/
theorem mem_places_lastOfRuns {entries : List (κ × ℕ)}
    (hplaces : (entries.map Prod.snd).Pairwise (· < ·)) {place : ℕ} :
    place ∈ (lastOfRuns (entries.map Prod.fst)).filterMap (fun row => (entries.map Prod.snd)[row]?)
      ↔ ∃ key, (key, place) ∈ entries ∧ ∀ other, (key, other) ∈ entries → other ≤ place := by
  have hmono : ∀ {row row' : ℕ} {entry entry' : κ × ℕ}, entries[row]? = some entry →
      entries[row']? = some entry' → row < row' → entry.2 < entry'.2 := by
    intro row row' entry entry' hrow hrow' hlt
    obtain ⟨hbound, rfl⟩ := List.getElem?_eq_some_iff.mp hrow
    obtain ⟨hbound', rfl⟩ := List.getElem?_eq_some_iff.mp hrow'
    have := List.pairwise_iff_getElem.mp hplaces row row' (by simpa) (by simpa) hlt
    simpa using this
  simp only [List.mem_filterMap, mem_lastOfRuns, List.getElem?_map, Option.map_eq_some_iff]
  constructor
  · rintro ⟨row, ⟨key, ⟨entry, hentry, rfl⟩, hlast⟩, other, hother, rfl⟩
    cases hentry.symm.trans hother
    refine ⟨entry.1, List.mem_of_getElem? hentry, fun place hplace => ?_⟩
    obtain ⟨row', hrow'⟩ := List.getElem?_of_mem hplace
    by_cases hlt : row < row'
    · exact absurd (Option.map_eq_some_iff.mpr ⟨_, hrow', rfl⟩) (hlast row' hlt)
    · obtain rfl | hlt := eq_or_lt_of_le (not_lt.mp hlt)
      · rw [Option.some.inj (hentry.symm.trans hrow')]
      · exact (hmono hrow' hentry hlt).le
  · rintro ⟨key, hentry, hlast⟩
    obtain ⟨row, hrow⟩ := List.getElem?_of_mem hentry
    refine ⟨row, ⟨key, ⟨_, hrow, rfl⟩, ?_⟩, _, hrow, rfl⟩
    intro later hlater hsame
    obtain ⟨⟨key', other⟩, hother, rfl⟩ := Option.map_eq_some_iff.mp hsame
    exact absurd (hlast other (List.mem_of_getElem? hother)) (not_le.mpr (hmono hrow hother hlater))

/-! ## Bits -/

def setBits (bits : List Bool) (places : List ℕ) : List Bool :=
  places.foldl (fun bits place => bits.set place true) bits

@[simp] theorem length_setBits (bits : List Bool) (places : List ℕ) :
    (setBits bits places).length = bits.length := by
  induction places generalizing bits with
  | nil => rfl
  | cons place places ih => rw [setBits, List.foldl_cons, ← setBits, ih, List.length_set]

theorem getElem?_setBits {bits : List Bool} {places : List ℕ} {place : ℕ} :
    (setBits bits places)[place]? = some true
      ↔ bits[place]? = some true ∨ (place ∈ places ∧ place < bits.length) := by
  induction places generalizing bits with
  | nil => simp [setBits]
  | cons first places ih =>
    rw [setBits, List.foldl_cons, ← setBits, ih, List.length_set, List.getElem?_set]
    by_cases hsame : first = place
    · subst hsame
      by_cases hlt : first < bits.length <;> simp [hlt]
    · simp only [if_neg hsame, List.mem_cons, Ne.symm hsame, false_or]

theorem getElem?_foldl_setBits {γ : Type*} {f : γ → List ℕ} {l : List γ} {bits : List Bool}
    {place : ℕ} : (l.foldl (fun bits a => setBits bits (f a)) bits)[place]? = some true
      ↔ bits[place]? = some true ∨ (∃ a ∈ l, place ∈ f a) ∧ place < bits.length := by
  induction l generalizing bits with
  | nil => simp
  | cons a l ih =>
    rw [List.foldl_cons, ih, getElem?_setBits, length_setBits, or_assoc]
    simp only [List.mem_cons, exists_eq_or_imp]
    rw [or_and_right]

end Rdlt.Lib
