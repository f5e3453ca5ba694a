/-
  Rdlt.Memory.Publish

  What a publish does to one table: the plan worked out for it, done to the
  table less what was staged; and what stays as it was.
-/

import Rdlt.Memory.Destination

namespace Rdlt.Memory

open Lib

open Merge

namespace Store

variable {D V : Type} {arrow : Arrow D} {store after : Store D V} {pipeline : PipelineId}
  {epoch : Epoch} {commit : CommitMeta V} {name : String} {table : Table D}

/-! ## Plans -/

/-- A table is planned for where the commit staged rows of it, or lists it with rows of its root. -/
def Touches (store : Store D V) (pipeline : PipelineId) (epoch : Epoch) (commit : CommitMeta V)
    (name : String) (table : Table D) : Prop :=
  (table.stagedIn pipeline epoch commit.segments).flatMap Prod.snd ≠ [] ∨
    (store.listed pipeline epoch commit name).isSome

/-- What is worked out for a table. -/
theorem plan_eq_ok_iff {result : Option (Plan D)} :
    store.plan arrow pipeline epoch commit name table = .ok result ↔
      (¬ store.Touches pipeline epoch commit name table ∧ result = none) ∨
      (store.Touches pipeline epoch commit name table ∧
        (∃ held, store.owned pipeline name = .ok held) ∧ ∃ merged : Option (Merged D),
          (match table.merge.or (store.listed pipeline epoch commit name) with
            | some key => ∃ rows, store.planMerge arrow pipeline epoch commit table
                ((table.stagedIn pipeline epoch commit.segments).flatMap Prod.snd) key = .ok rows ∧
                  merged = some rows
            | none => merged = none) ∧
          result = some
            { name, staged := (table.stagedIn pipeline epoch commit.segments).flatMap Prod.snd,
              merged }) := by
  unfold plan Touches
  dsimp only
  set staged := (table.stagedIn pipeline epoch commit.segments).flatMap Prod.snd
  set listed := store.listed pipeline epoch commit name
  by_cases htouched : staged ≠ [] ∨ listed.isSome
  · have hnot : ¬ (staged.isEmpty && listed.isNone) = true := by
      rcases htouched with hstaged | hlisted
      · simp [hstaged]
      · simp [Option.isSome_iff_ne_none.mp hlisted]
    rw [if_neg hnot, bind_eq_ok]
    simp only [htouched, not_true_eq_false, false_and, false_or, true_and]
    cases table.merge.or listed with
    | none =>
      simp only [pure_eq_ok]
      constructor
      · rintro ⟨held, hheld, rfl⟩
        exact ⟨⟨held, hheld⟩, none, rfl, rfl⟩
      · rintro ⟨⟨held, hheld⟩, _, rfl, rfl⟩
        exact ⟨held, hheld, rfl⟩
    | some key =>
      simp only [bind_eq_ok, pure_eq_ok]
      constructor
      · rintro ⟨held, hheld, rows, hrows, rfl⟩
        exact ⟨⟨held, hheld⟩, some rows, ⟨rows, hrows, rfl⟩, rfl⟩
      · rintro ⟨⟨held, hheld⟩, _, ⟨rows, hrows, rfl⟩, rfl⟩
        exact ⟨held, hheld, rows, hrows, rfl⟩
  · have hempty : (staged.isEmpty && listed.isNone) = true := by
      simpa [not_or, List.isEmpty_iff] using htouched
    rw [if_pos hempty]
    simp only [htouched, not_false_eq_true, true_and, false_and, or_false, Except.ok.injEq]
    exact eq_comm

theorem name_of_plan {plan : Plan D}
    (h : store.plan arrow pipeline epoch commit name table = .ok (some plan)) :
    plan.name = name := by
  rcases plan_eq_ok_iff.mp h with ⟨-, h⟩ | ⟨-, -, merged, -, h⟩
  · cases h
  · cases h
    rfl

variable {entries : List (String × Table D)} {results : List (Option (Plan D))}

/-- Each table's plan is found among the plans of all. -/
theorem find?_plans
    (hall : List.Forall₂ (fun entry result => store.plan arrow pipeline epoch commit entry.1 entry.2
      = .ok result) entries results)
    (hnodup : (entries.map Prod.fst).Nodup) :
    (∀ table, (name, table) ∈ entries → store.plan arrow pipeline epoch commit name table
        = .ok ((results.filterMap id).find? fun plan => plan.name == name)) ∧
    (name ∉ entries.map Prod.fst →
      (results.filterMap id).find? (fun plan => plan.name == name) = none) := by
  induction hall with
  | nil => simp
  | @cons entry result entries results hplan _ ih =>
    obtain ⟨hfresh, hnodup⟩ := List.nodup_cons.mp hnodup
    obtain ⟨ihheld, ihnone⟩ := ih hnodup
    have hskip : entry.1 ≠ name →
        (((result :: results).filterMap id).find? fun plan => plan.name == name)
          = (results.filterMap id).find? fun plan => plan.name == name := by
      intro hne
      cases result with
      | none => rfl
      | some plan =>
        have hother : (plan.name == name) = false := by
          rw [name_of_plan hplan]
          simpa using hne
        simp [hother]
    refine ⟨fun table hmem => ?_, fun hmem => ?_⟩
    · rcases List.mem_cons.mp hmem with rfl | hmem
      · rw [hplan]
        cases result with
        | none => rw [List.filterMap_cons_none rfl, ihnone hfresh]
        | some plan => simp [name_of_plan hplan]
      · rw [hskip, ihheld table hmem]
        intro hsame
        exact hfresh (List.mem_map.mpr ⟨_, hmem, hsame.symm⟩)
    · rw [List.map_cons, List.mem_cons, not_or] at hmem
      rw [hskip (Ne.symm hmem.1), ihnone hmem.2]

theorem names_plans
    (hall : List.Forall₂ (fun entry result => store.plan arrow pipeline epoch commit entry.1 entry.2
      = .ok result) entries results) :
    ((results.filterMap id).map Plan.name).Sublist (entries.map Prod.fst) := by
  induction hall with
  | nil => exact .slnil
  | @cons entry result entries results hplan _ ih =>
    cases result with
    | none => exact ih.cons _
    | some plan =>
      have hfirst : (some plan :: results).filterMap id = plan :: results.filterMap id := rfl
      rw [hfirst, List.map_cons, List.map_cons, name_of_plan hplan]
      exact ih.cons_cons _

/-! ## Folding the plans in -/

theorem getElem?_publishPlan (store : Store D V) (plan : Plan D) (name : String) :
    (store.publishPlan plan).tables[name]?
      = if plan.name = name then some (plan.done (store.tables.getD name {}))
        else store.tables[name]? := by
  rw [publishPlan, OrdMap.getElem?_insert]
  by_cases hname : plan.name = name
  · rw [if_pos hname, if_pos hname, hname]
  · rw [if_neg hname, if_neg hname]

variable {plans : List (Plan D)}

theorem getElem?_foldl_publishPlan (hnodup : (plans.map Plan.name).Nodup) (store : Store D V)
    (name : String) : (plans.foldl publishPlan store).tables[name]?
      = match plans.find? fun plan => plan.name == name with
        | some plan => some (plan.done (store.tables.getD name {}))
        | none => store.tables[name]? := by
  induction plans generalizing store with
  | nil => rfl
  | cons plan plans ih =>
    obtain ⟨hfresh, hnodup⟩ := List.nodup_cons.mp hnodup
    rw [List.foldl_cons, ih hnodup]
    by_cases hname : plan.name = name
    · have hnone : plans.find? (fun plan => plan.name == name) = none := by
        rw [List.find?_eq_none]
        intro other hother hsame
        rw [hname, ← eq_of_beq hsame] at hfresh
        exact hfresh (List.mem_map_of_mem hother)
      rw [hnone, List.find?_cons_of_pos (by simpa using hname), getElem?_publishPlan, if_pos hname]
    · rw [List.find?_cons_of_neg (by simpa using hname)]
      rw [getElem?_publishPlan, if_neg hname, Std.ExtTreeMap.getD_eq_getD_getElem?,
        getElem?_publishPlan, if_neg hname, ← Std.ExtTreeMap.getD_eq_getD_getElem?]

/-! ## Names -/

/-- Two stores that hold the same tables under the same names. -/
structure SameNames (left right : Store D V) : Prop where
  names : left.names = right.names
  tables : ∀ name, left.tables.contains name = right.tables.contains name

theorem SameNames.named {left right : Store D V} (h : SameNames left right) (path : TablePath) :
    left.named pipeline path = right.named pipeline path := by
  rw [Store.named, Store.named, h.names]
  exact congrArg (Option.filter · _) (funext h.tables)

theorem SameNames.trans {left middle right : Store D V} (h : SameNames left middle)
    (h' : SameNames middle right) : SameNames left right :=
  ⟨h.names.trans h'.names, fun name => (h.tables name).trans (h'.tables name)⟩

theorem sameNames_insert {name : String} (h : store.tables.contains name = true)
    (table : Table D) :
    SameNames { store with tables := store.tables.insert name table } store where
  names := rfl
  tables other := by
    rw [Std.ExtTreeMap.contains_insert]
    by_cases hsame : name = other
    · rw [← hsame, h, Bool.or_true]
    · simp [hsame]

theorem sameNames_foldl_publishPlan
    (hplans : ∀ plan ∈ plans, store.tables.contains plan.name = true) :
    SameNames (plans.foldl publishPlan store) store := by
  induction plans generalizing store with
  | nil => exact ⟨rfl, fun _ => rfl⟩
  | cons plan plans ih =>
    have hfirst : SameNames (store.publishPlan plan) store :=
      sameNames_insert (hplans plan List.mem_cons_self) _
    refine (ih fun other hother => ?_).trans hfirst
    rw [hfirst.tables]
    exact hplans other (List.mem_cons_of_mem _ hother)

theorem sameNames_published (pipeline : PipelineId) (epoch : Epoch) (commit : CommitMeta V)
    (hplans : ∀ plan ∈ plans, store.tables.contains plan.name = true) :
    SameNames (plans.foldl publishPlan (store.unstage pipeline epoch commit)) store := by
  have hunstage : SameNames (store.unstage pipeline epoch commit) store :=
    ⟨rfl, fun name => by simp [unstage]⟩
  refine (sameNames_foldl_publishPlan fun plan hmem => ?_).trans hunstage
  rw [hunstage.tables]
  exact hplans plan hmem

theorem sameNames_finish (pipeline : PipelineId) (store : Store D V)
    (entry : TablePath × GenerationId) : SameNames (store.finish pipeline entry) store := by
  unfold finish
  cases hnamed : store.named pipeline entry.1 with
  | none => exact ⟨rfl, fun _ => rfl⟩
  | some name => exact sameNames_insert (Option.filter_eq_some_iff.mp hnamed).2 _

theorem getElem?_foldl_finish {finished : List (TablePath × GenerationId)} {name : String}
    (hfinished : ∀ entry ∈ finished, store.named pipeline entry.1 ≠ some name) :
    (finished.foldl (finish pipeline) store).tables[name]? = store.tables[name]? := by
  induction finished generalizing store with
  | nil => rfl
  | cons entry finished ih =>
    have hrest : ∀ other ∈ finished,
        (store.finish pipeline entry).named pipeline other.1 ≠ some name := by
      intro other hother
      rw [(sameNames_finish pipeline store entry).named]
      exact hfinished other (List.mem_cons_of_mem _ hother)
    rw [List.foldl_cons, ih hrest, finish]
    cases hnamed : store.named pipeline entry.1 with
    | none => rfl
    | some other =>
      refine (OrdMap.getElem?_insert ..).trans (if_neg ?_)
      rintro rfl
      exact hfinished entry List.mem_cons_self hnamed

theorem getElem?_foldl_drop {dropped : List DroppedTable} {name : String}
    (hdropped : ∀ entry ∈ dropped, entry.name ≠ name) :
    (dropped.foldl drop store).tables[name]? = store.tables[name]? := by
  refine List.foldlRecOn (motive := fun after : Store D V => after.tables[name]? = _) _ _ rfl ?_
  intro after hafter entry hentry
  exact (OrdMap.getElem?_erase ..).trans ((if_neg (hdropped entry hentry)).trans hafter)

theorem getElem?_foldl_drop_none {dropped : List DroppedTable} {name : String}
    (hnone : store.tables[name]? = none) : (dropped.foldl drop store).tables[name]? = none := by
  refine List.foldlRecOn (motive := fun after : Store D V => after.tables[name]? = _) _ _ hnone ?_
  intro after hafter entry _
  refine (OrdMap.getElem?_erase ..).trans ?_
  rw [hafter, ite_self]

/-! ## A publish -/

theorem publish_eq_ok {counts : Nat × Nat}
    (h : store.publish arrow pipeline epoch commit = .ok (after, counts)) :
    store.owns pipeline commit = .ok () ∧
      ∃ plans, store.plans arrow pipeline epoch commit = .ok plans ∧
        after = commit.dropTables.foldl drop (commit.finishGenerations.foldl (finish pipeline)
          (plans.foldl publishPlan (store.unstage pipeline epoch commit))) := by
  obtain ⟨⟨⟩, howns, h⟩ := bind_eq_ok.mp h
  obtain ⟨plans, hplans, h⟩ := bind_eq_ok.mp h
  have hafter := congrArg Prod.fst (pure_eq_ok.mp h)
  exact ⟨howns, plans, hplans, hafter.symm⟩

theorem nodup_names (store : Store D V) : (store.tables.toList.map Prod.fst).Nodup := by
  have hdistinct := store.tables.distinct_keys_toList
  rw [List.Nodup, List.pairwise_map]
  refine hdistinct.imp fun {left right} hne hsame => ?_
  rw [hsame] at hne
  simp at hne

theorem plans_eq_ok (h : store.plans arrow pipeline epoch commit = .ok plans) :
    (plans.map Plan.name).Nodup ∧
      (∀ plan ∈ plans, store.tables.contains plan.name = true) ∧
      (∀ name table, store.tables[name]? = some table →
        store.plan arrow pipeline epoch commit name table
          = .ok (plans.find? fun plan => plan.name == name)) ∧
      ∀ name, store.tables[name]? = none → (plans.find? fun plan => plan.name == name) = none := by
  obtain ⟨results, hresults, h⟩ := bind_eq_ok.mp h
  obtain rfl := pure_eq_ok.mp h
  have hall := mapM_eq_ok_iff.mp hresults
  have hnames := names_plans hall
  refine ⟨hnames.nodup store.nodup_names, fun plan hplan => ?_, fun name table htable => ?_,
    fun name hnone => ?_⟩
  · obtain ⟨entry, hentry, hname⟩ := List.mem_map.mp (hnames.subset (List.mem_map_of_mem hplan))
    rw [← hname, Std.ExtTreeMap.contains_eq_isSome_getElem?, (OrdMap.mem_toList _).mp hentry]
    rfl
  · exact (find?_plans hall store.nodup_names).1 table ((OrdMap.mem_toList _).mpr htable)
  · refine (find?_plans hall store.nodup_names).2 fun hmem => ?_
    obtain ⟨⟨_, table⟩, hentry, rfl⟩ := List.mem_map.mp hmem
    rw [(OrdMap.mem_toList _).mp hentry] at hnone
    cases hnone

section

variable {counts : Nat × Nat}
  (h : store.publish arrow pipeline epoch commit = .ok (after, counts))
  (hfinished : ∀ entry ∈ commit.finishGenerations, store.named pipeline entry.1 ≠ some name)
  (hdropped : ∀ entry ∈ commit.dropTables, entry.name ≠ name)
include h hfinished hdropped

theorem getElem?_publish (htable : store.tables[name]? = some table) :
    ∃ plan, store.plan arrow pipeline epoch commit name table = .ok plan ∧
      after.tables[name]? = some (plan.elim (unstaged table pipeline epoch commit) fun plan =>
        plan.done (unstaged table pipeline epoch commit)) := by
  obtain ⟨-, plans, hplans, rfl⟩ := publish_eq_ok h
  obtain ⟨hnodup, hheld, hplan, -⟩ := plans_eq_ok hplans
  have hunstaged : (store.unstage pipeline epoch commit).tables[name]?
      = some (unstaged table pipeline epoch commit) := by
    simp [unstage, htable]
  have hsame := sameNames_published pipeline epoch commit hheld
  refine ⟨_, hplan name table htable, ?_⟩
  rw [getElem?_foldl_drop hdropped, getElem?_foldl_finish, getElem?_foldl_publishPlan hnodup]
  · cases plans.find? fun plan => plan.name == name with
    | none => exact hunstaged
    | some plan => simp [Std.ExtTreeMap.getD_eq_getD_getElem?, hunstaged]
  · intro entry hentry
    rw [hsame.named]
    exact hfinished entry hentry

end

theorem getElem?_publish_none {counts : Nat × Nat}
    (h : store.publish arrow pipeline epoch commit = .ok (after, counts))
    (hnone : store.tables[name]? = none) : after.tables[name]? = none := by
  obtain ⟨-, plans, hplans, rfl⟩ := publish_eq_ok h
  obtain ⟨hnodup, hheld, -, habsent⟩ := plans_eq_ok hplans
  have hsame := sameNames_published pipeline epoch commit hheld
  apply getElem?_foldl_drop_none
  rw [getElem?_foldl_finish, getElem?_foldl_publishPlan hnodup, habsent name hnone]
  · simp [unstage, hnone]
  · intro entry _ hnamed
    rw [hsame.named] at hnamed
    have hcontains := (Option.filter_eq_some_iff.mp hnamed).2
    rw [Std.ExtTreeMap.contains_eq_isSome_getElem?, hnone] at hcontains
    cases hcontains

theorem owned_of_owns (h : store.owns pipeline commit = .ok ()) :
    (∀ entry ∈ commit.finishGenerations, ∀ name, store.named pipeline entry.1 = some name →
      ∃ table, store.owned pipeline name = .ok table) ∧
    ∀ dropped ∈ commit.dropTables, store.tables.contains dropped.name = true →
      ∃ table, store.owned pipeline dropped.name = .ok table := by
  have hall := forM_eq_ok.mp h
  have hheld :
      ∀ name, (do let _ ← store.owned pipeline name : Except ConnectorError Unit) = .ok () →
      ∃ table, store.owned pipeline name = .ok table := by
    intro name hname
    obtain ⟨table, htable, -⟩ := bind_eq_ok.mp hname
    exact ⟨table, htable⟩
  refine ⟨fun entry hentry name hname => hheld name (hall name ?_),
    fun dropped hdropped hcontains => hheld _ (hall _ ?_)⟩
  · exact List.mem_append_left _ (List.mem_filterMap.mpr ⟨entry, hentry, hname⟩)
  · exact List.mem_append_right _ (List.mem_filter.mpr ⟨List.mem_map_of_mem hdropped, hcontains⟩)

end Store

end Rdlt.Memory
