/-
  Rdlt.Files.Compact

  Merging the files at the end of a table's list, so that the list stays short:
  those a commit adds merge with each other, and a file listed before them joins
  while it holds at most twice the rows after it. Each file then holds more than
  twice the rows of the next, or the two together are past a full file.
-/

import Rdlt.Lib.Saturating

namespace Rdlt.Files

open Lib (u64Max saturatingAdd)

inductive FileFormat where
  | jsonl
  | arrow
  deriving DecidableEq

/-- A file a table lists: its rows in order, its bytes, the format its name says, and the schema it
    holds its batches in, where that is read. -/
structure Listed (ρ S : Type) where
  content : List ρ
  bytes : Nat
  format : Option FileFormat
  schema : Option S

def Listed.rows {ρ S : Type} (file : Listed ρ S) : Nat := file.content.length

/-- Where a session writes: the format of its files, and which schemas hold dictionaries. -/
structure Location (S : Type) where
  format : FileFormat
  keyed : S → Bool

/-- Bytes: the largest file a merge writes. -/
def compactBytes : Nat := 64 * 1024 * 1024

variable {ρ S : Type} [DecidableEq S] (location : Location S)
  (files : List (Listed ρ S)) (fresh : Nat)

/-! ## The runs to merge -/

/-- Where a run starts that reaches the file at a place, with the rows and bytes it has so far. -/
def reach : Nat → Nat → Nat → Option S → Nat
  | 0, _, _, _ => 0
  | place + 1, rows, bytes, schema =>
    match files[place]? with
    | none => place + 1
    | some before =>
      let schema := schema.or ((files[place + 1]?).bind Listed.schema)
      if (fresh < place + 1 ∨ before.rows ≤ min (rows * 2) u64Max) ∧
          saturatingAdd before.bytes bytes ≤ compactBytes ∧ before.format = some location.format ∧
          (location.format = .arrow → before.schema = schema ∧
            schema.all location.keyed = false) then
        reach place (saturatingAdd rows before.rows) (saturatingAdd bytes before.bytes) schema
      else place + 1

/-- Where the run of files to merge that ends before `stop` starts, those from `fresh` on being the
    commit's own. -/
def run (stop : Nat) : Nat :=
  match files[stop - 1]? with
  | none => stop - 1
  | some last =>
    if last.format = some location.format then
      reach location files fresh (stop - 1) last.rows last.bytes none
    else stop - 1

theorem reach_le (place rows bytes : Nat) (schema : Option S) :
    reach location files fresh place rows bytes schema ≤ place := by
  fun_induction reach location files fresh place rows bytes schema <;> omega

theorem run_le (stop : Nat) : run location files fresh stop ≤ stop - 1 := by
  unfold run
  split
  · exact le_rfl
  · split
    · exact reach_le ..
    · exact le_rfl

def runsBefore (stop : Nat) : List (Nat × Nat) :=
  if stop = 0 then []
  else
    let start := run location files fresh stop
    (if 1 < stop - start then [(start, stop)] else []) ++
      if start ≤ fresh then [] else runsBefore start
termination_by stop
decreasing_by
  have := run_le location files fresh stop
  omega

/-- The runs of `files` to merge, of which the last `added` are those a commit adds. -/
def runs (added : Nat) : List (Nat × Nat) :=
  runsBefore location files (files.length - added) files.length

/-- The list once a run is merged into one file; as it is where the merge fails. -/
def splice (merged : List (Listed ρ S) → Option (Listed ρ S)) (files : List (Listed ρ S))
    (run : Nat × Nat) : List (Listed ρ S) :=
  match merged ((files.take run.2).drop run.1) with
  | some file => files.take run.1 ++ file :: files.drop run.2
  | none => files

/-- The list once its runs are merged: the latest first, so merging one moves no run still to
    merge. -/
def compact (merged : List (Listed ρ S) → Option (Listed ρ S)) (added : Nat) : List (Listed ρ S) :=
  (runs location files added).foldl (splice merged) files

/-! ## What a run holds -/

omit [DecidableEq S]

def bytesOf (files : List (Listed ρ S)) : Nat := (files.map Listed.bytes).sum

/-- Rows of files, one file after another. -/
def contentOf (files : List (Listed ρ S)) : List ρ := files.flatMap Listed.content

/-- A file that holds more than twice the rows of the next, or is with it past a full file. -/
def Halves (file next : Listed ρ S) : Prop :=
  2 * next.rows < file.rows ∨ compactBytes < file.bytes + next.bytes

/-- A list whose files each halve in rows to the next, or are together past a full file. -/
def Halving (files : List (Listed ρ S)) : Prop := files.IsChain Halves

/-- Files of the session's format and of one schema without dictionaries, sized in 64 bits. -/
structure Alike (schema : S) (files : List (Listed ρ S)) : Prop where
  plain : location.keyed schema = false
  formatted : ∀ file ∈ files, file.format = some location.format
  shaped : ∀ file ∈ files, file.schema = some schema
  sized : ∀ file ∈ files, file.rows ≤ u64Max ∧ file.bytes ≤ u64Max

/-- A merge that succeeds, of whose files rows and bytes add up. -/
def Adds (merged : List (Listed ρ S) → Option (Listed ρ S)) : Prop :=
  ∀ files, files ≠ [] → ∃ file, merged files = some file ∧ file.content = contentOf files ∧
    file.bytes = bytesOf files

/-- Why a run of files does not reach those before it. -/
def Stopped (before block : List (Listed ρ S)) : Prop :=
  ∀ file ∈ before.getLast?, compactBytes < file.bytes + bytesOf block ∨
    before.length ≤ fresh ∧ 2 * (contentOf block).length < file.rows

variable {location files fresh} {schema : S} {merged : List (Listed ρ S) → Option (Listed ρ S)}

theorem reach_spec [DecidableEq S] (fresh : Nat) (before block tail : List (Listed ρ S))
    (held : Option S)
    (halike : Alike location schema (before ++ block ++ tail)) (hblock : block ≠ [])
    (hheld : held = none ∨ held = some schema) :
    ∃ kept joined, before = kept ++ joined ∧
      reach location (before ++ block ++ tail) fresh before.length
        (min (contentOf block).length u64Max) (min (bytesOf block) u64Max) held = kept.length ∧
      (joined = [] ∨ bytesOf (joined ++ block) ≤ compactBytes) ∧
      Stopped fresh kept (joined ++ block) := by
  induction before using List.reverseRecOn generalizing block held with
  | nil => exact ⟨[], [], rfl, rfl, .inl rfl, by simp [Stopped]⟩
  | append_singleton before file ih =>
    obtain ⟨first, block, rfl⟩ := List.exists_cons_of_ne_nil hblock
    have hmem : file ∈ before ++ [file] ++ first :: block ++ tail := by simp
    obtain ⟨hrows, hbytes⟩ := halike.sized file hmem
    have hget : (before ++ [file] ++ first :: block ++ tail)[before.length]? = some file := by simp
    have hnext : (before ++ [file] ++ first :: block ++ tail)[before.length + 1]? = some first := by
      simp
    have hschema : held.or (Listed.schema first) = some schema := by
      rcases hheld with rfl | rfl
      · exact halike.shaped first (by simp)
      · rfl
    rw [List.length_append, List.length_singleton, reach, hget]
    simp only [hnext, Option.bind_some, hschema, halike.formatted file hmem,
      halike.shaped file hmem,
      Option.all_some, halike.plain, and_self, implies_true, and_true]
    have hmax : compactBytes < u64Max := by decide
    have hlength : (contentOf (file :: first :: block)).length
        = file.rows + (contentOf (first :: block)).length := by simp [contentOf, Listed.rows]
    have hsum : bytesOf (file :: first :: block) = file.bytes + bytesOf (first :: block) := by
      simp [bytesOf]
    by_cases hjoins : (fresh < before.length + 1 ∨
        file.rows ≤ min (min (contentOf (first :: block)).length u64Max * 2) u64Max) ∧
        saturatingAdd file.bytes (min (bytesOf (first :: block)) u64Max) ≤ compactBytes
    · simp only [if_pos hjoins]
      simp only [saturatingAdd] at hjoins ⊢
      obtain ⟨kept, joined, rfl, hreach, hsize, hstopped⟩ :=
        ih (file :: first :: block) (some schema)
        (by simpa using halike) (by simp) (.inr rfl)
      refine ⟨kept, joined ++ [file], by simp, ?_, .inr ?_, by simpa using hstopped⟩
      · rw [← hreach]
        congr 1
        · simp
        · omega
        · omega
      · rcases hsize with rfl | hsize
        · simp only [List.nil_append, List.singleton_append, hsum]
          omega
        · simpa using hsize
    · simp only [if_neg hjoins]
      refine ⟨before ++ [file], [], by simp, by simp, .inl rfl, ?_⟩
      simp only [saturatingAdd] at hjoins
      simp only [Stopped, List.getLast?_append, List.getLast?_singleton, Option.some_or,
        Option.mem_some_iff, forall_eq', List.length_append, List.length_singleton, List.nil_append]
      omega

theorem run_spec [DecidableEq S] (fresh : Nat) (whole tail : List (Listed ρ S))
    (halike : Alike location schema (whole ++ tail)) (hwhole : whole ≠ []) :
    ∃ kept block, whole = kept ++ block ∧ block ≠ [] ∧
      run location (whole ++ tail) fresh whole.length = kept.length ∧
      (block.length = 1 ∨ bytesOf block ≤ compactBytes) ∧ Stopped fresh kept block := by
  obtain ⟨before, last, rfl⟩ := (List.eq_nil_or_concat' whole).resolve_left hwhole
  have hmem : last ∈ before ++ [last] ++ tail := by simp
  obtain ⟨hrows, hbytes⟩ := halike.sized last hmem
  obtain ⟨kept, joined, rfl, hreach, hsize, hstopped⟩ :=
    reach_spec fresh before [last] tail none halike (by simp) (.inl rfl)
  refine ⟨kept, joined ++ [last], by simp, by simp, ?_, ?_, hstopped⟩
  · rw [← hreach, run]
    simp only [List.length_append, List.length_singleton, Nat.add_sub_cancel]
    rw [show (kept ++ joined ++ [last] ++ tail)[kept.length + joined.length]? = some last by simp]
    simp only [halike.formatted last hmem, if_true]
    congr 1 <;> simp_all [contentOf, bytesOf, Listed.rows]
  · rcases hsize with rfl | hsize
    · exact .inl rfl
    · exact .inr hsize

/-! ## The list a commit leaves -/

theorem le_bytesOf {file : Listed ρ S} (h : file ∈ files) : file.bytes ≤ bytesOf files :=
  List.le_sum_of_mem (List.mem_map_of_mem h)

/-- A run of files is one file, in its place, of their rows and bytes. -/
theorem exists_merged (hadds : Adds merged) (kept block tail : List (Listed ρ S))
    (hblock : block ≠ [])
    (hsize : block.length = 1 ∨ bytesOf block ≤ compactBytes) :
    ∃ file, (if 1 < (kept ++ block).length - kept.length
          then [(kept.length, (kept ++ block).length)] else []).foldl (splice merged)
        (kept ++ block ++ tail) = kept ++ file :: tail ∧
      file.content = contentOf block ∧ file.bytes = bytesOf block ∧
      (file ∈ block ∨ file.bytes ≤ compactBytes) := by
  have hpositive := List.length_pos_iff.mpr hblock
  by_cases hone : block.length = 1
  · obtain ⟨file, rfl⟩ := List.length_eq_one_iff.mp hone
    exact ⟨file, by simp, by simp [contentOf], by simp [bytesOf], by simp⟩
  · obtain ⟨file, hmerged, hcontent, hbytes⟩ := hadds block hblock
    refine ⟨file, ?_, hcontent, hbytes, .inr (hbytes ▸ hsize.resolve_left hone)⟩
    rw [if_pos (by rw [List.length_append]; omega), List.foldl_cons, List.foldl_nil, splice]
    simp only [List.take_left, List.drop_left, hmerged]
    rw [List.append_assoc, List.take_left]

theorem halving_concat {kept : List (Listed ρ S)} {file : Listed ρ S} (h : Halving kept)
    (hlast : ∀ before ∈ kept.getLast?, Halves before file) : Halving (kept ++ [file]) := by
  refine List.isChain_append.mpr ⟨h, List.isChain_singleton file, ?_⟩
  simpa using hlast

theorem compacted [DecidableEq S] (fresh : Nat) (hadds : Adds merged)
    (whole tail tail' : List (Listed ρ S))
    (halike : Alike location schema (whole ++ tail)) (hold : Halving (whole.take fresh)) :
    ∃ out, (runsBefore location (whole ++ tail) fresh whole.length).foldl (splice merged)
        (whole ++ tail') = out ++ tail' ∧
      Halving out ∧ contentOf out = contentOf whole ∧
      (∀ file ∈ out, file ∈ whole ∨ file.bytes ≤ compactBytes) ∧
      ∀ last ∈ whole.getLast?, ∃ file ∈ out.getLast?, last.bytes ≤ file.bytes := by
  induction hlength : whole.length using Nat.strong_induction_on generalizing whole tail tail' with
  | _ count ih =>
    subst hlength
    by_cases hwhole : whole = []
    · subst hwhole
      exact ⟨[], by simp [runsBefore], List.isChain_nil, rfl, by simp, by simp⟩
    obtain ⟨kept, block, rfl, hblock, hrun, hsize, hstopped⟩ :=
      run_spec fresh whole tail halike hwhole
    obtain ⟨file, hmerged, hcontent, hbytes, hfile⟩ :=
      exists_merged hadds kept block tail' hblock hsize
    rw [List.take_append] at hold
    have hkept : Halving (kept.take fresh) := hold.left_of_append
    have hlast : ∀ last ∈ (kept ++ block).getLast?, last.bytes ≤ file.bytes := fun last hlast => by
      rw [List.getLast?_append_of_ne_nil _ hblock] at hlast
      exact hbytes ▸ le_bytesOf (List.mem_of_mem_getLast? hlast)
    have hrows : file.rows = (contentOf block).length := congrArg List.length hcontent
    have hall : ∀ out : List (Listed ρ S), contentOf out = contentOf kept →
        (∀ file ∈ out, file ∈ kept ∨ file.bytes ≤ compactBytes) →
        contentOf (out ++ [file]) = contentOf (kept ++ block) ∧
        (∀ file' ∈ out ++ [file], file' ∈ kept ++ block ∨ file'.bytes ≤ compactBytes) ∧
        ∀ last ∈ (kept ++ block).getLast?, ∃ file' ∈ (out ++ [file]).getLast?,
          last.bytes ≤ file'.bytes := by
      intro out hout hfiles
      refine ⟨by simp_all [contentOf], fun file' hfile' => ?_, fun last h =>
        ⟨file, by simp, hlast last h⟩⟩
      rcases List.mem_append.mp hfile' with hfile' | hfile'
      · exact (hfiles file' hfile').imp_left (List.mem_append_left _)
      · rw [List.mem_singleton.mp hfile']
        exact hfile.imp_left (List.mem_append_right _)
    rw [runsBefore, if_neg (by simp [hblock]), hrun]
    simp only [List.foldl_append, hmerged]
    by_cases hfresh : kept.length ≤ fresh
    · refine ⟨kept ++ [file], by simp [hfresh], halving_concat ?_ fun before hbefore => ?_,
        hall kept rfl fun _ => .inl⟩
      · rwa [List.take_of_length_le hfresh] at hkept
      · rw [Halves, hrows, hbytes]
        exact (hstopped before hbefore).symm.imp_left And.right
    · obtain ⟨out, hout, hhalving, hcontent', hfiles, hlasts⟩ := ih kept.length
        (by simpa using List.length_pos_iff.mpr hblock) kept (block ++ tail) (file :: tail')
        (by simpa using halike) hkept rfl
      refine ⟨out ++ [file], by simp [hfresh, ← hout],
        halving_concat hhalving fun before hbefore => ?_,
        hall out hcontent' hfiles⟩
      -- What the run before this one became holds at least the file that stopped it.
      obtain ⟨last, hlast'⟩ : ∃ last, last ∈ kept.getLast? := by
        cases hnone : kept.getLast? with
        | none => simp_all
        | some last => exact ⟨last, rfl⟩
      obtain ⟨held, hheld, hle⟩ := hlasts last hlast'
      obtain rfl : held = before := Option.mem_unique hheld hbefore
      have := (hstopped last hlast').resolve_right fun h => hfresh h.1
      exact .inr (by omega)

theorem runsBefore_apart [DecidableEq S] (stop : Nat) :
    (∀ run ∈ runsBefore location files fresh stop, run.1 < run.2 ∧ run.2 ≤ stop) ∧
      (runsBefore location files fresh stop).Pairwise fun run next => next.2 ≤ run.1 := by
  fun_induction runsBefore location files fresh stop with
  | case1 => simp
  | case2 stop _ start ih =>
    have := run_le location files fresh stop
    grind

theorem rows_of_halving {file : Listed ρ S} {rest : List (Listed ρ S)} (h : Halving (file :: rest))
    (hbytes : bytesOf (file :: rest) ≤ compactBytes) : 2 ^ rest.length ≤ file.rows + 1 := by
  induction rest generalizing file with
  | nil => simp
  | cons next rest ih =>
    obtain ⟨hhalves, hrest⟩ := List.isChain_cons_cons.mp h
    simp only [bytesOf, List.map_cons, List.sum_cons] at ih hbytes
    have hrows := hhalves.resolve_right (by omega)
    have := ih hrest (by omega)
    rw [List.length_cons, pow_succ]
    omega

/-- Compacting keeps a list whose files halve in rows, or are two and two past a full file, such a
    list, of the same rows in the same order; the runs merged do not overlap, no merged file is past
    a full one, and such a list within a full file has as many files as the logarithm of its rows,
    and one. -/
theorem compaction_keeps_files_few [DecidableEq S] (old added : List (Listed ρ S))
    (halike : Alike location schema (old ++ added)) (hold : Halving old) (hadds : Adds merged) :
    Halving (compact location (old ++ added) merged added.length) ∧
      contentOf (compact location (old ++ added) merged added.length) = contentOf (old ++ added) ∧
      (runs location (old ++ added) added.length).Pairwise (fun run next => next.2 ≤ run.1) ∧
      (∀ file ∈ compact location (old ++ added) merged added.length,
        file ∈ old ++ added ∨ file.bytes ≤ compactBytes) ∧
      ∀ files : List (Listed ρ S), Halving files → bytesOf files ≤ compactBytes →
        files.length ≤ Nat.log 2 ((contentOf files).length + 1) + 1 := by
  have hfresh : (old ++ added).length - added.length = old.length := by simp
  obtain ⟨out, hout, hhalving, hcontent, hfiles, -⟩ := compacted old.length hadds
    (old ++ added) [] [] (by simpa using halike) (by simpa using hold)
  simp only [List.append_nil] at hout
  rw [compact, runs, hfresh, hout]
  refine ⟨hhalving, hcontent, (runsBefore_apart _).2, hfiles, fun files h hbytes => ?_⟩
  cases files with
  | nil => simp
  | cons file rest =>
    have hrows := rows_of_halving h hbytes
    have hle : file.rows + 1 ≤ (contentOf (file :: rest)).length + 1 := by
      simp [contentOf, Listed.rows]
    simpa using Nat.le_log_of_pow_le (by decide) (hrows.trans hle)

/-- A file of so many rows, a byte each. -/
def ofRows (rows : Nat) : Listed Unit Unit :=
  ⟨List.replicate rows (), rows, some .jsonl, some ()⟩

theorem compaction_keeps_files_few_three :
    Halving (compact ⟨.jsonl, fun _ => false⟩ ([ofRows 3] ++ [ofRows 1, ofRows 1])
      (fun files => some ⟨contentOf files, bytesOf files, none, none⟩) 2) :=
  (compaction_keeps_files_few [ofRows 3] [ofRows 1, ofRows 1]
    (⟨rfl, by simp [ofRows], by simp [ofRows], by simp [ofRows, Listed.rows, u64Max]⟩ :
      Alike ⟨.jsonl, fun _ => false⟩ () _)
    (List.isChain_singleton _) fun _ _ => ⟨_, rfl, rfl, rfl⟩).1

end Rdlt.Files
