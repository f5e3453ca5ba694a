/-
  Rdlt.Memory.Once

  The commits of a pipeline apply in the order of their keys, each once,
  whatever sessions of any pipelines call in between.
-/

import Rdlt.Memory.Children

namespace Rdlt.Memory

variable {D V : Type}

/-- A commit is sent past the one it expects landed, as sessions number their commits. -/
def Call.Advances : Call D V → Prop
  | .commit _ _ sent _ => ∀ after ∈ sent.after, after.Before sent.key
  | _ => True

namespace Store

/-- The key of the pipeline's last commit that landed. -/
def landed (store : Store D V) (pipeline : PipelineId) : Option CommitKey :=
  (store.pipelines.getD pipeline {}).landed.map Receipt.key

variable {arrow : Arrow D} {store after : Store D V} {pipeline other : PipelineId}
  {epoch : Epoch} {commit : CommitMeta V} {now : Nat} {held : PipelineStore V}
  {published : Store D V × Nat × Nat} {key : CommitKey}

theorem landed_insert (h : after.pipelines = store.pipelines.insert pipeline held) :
    after.landed other
      = if pipeline = other then held.landed.map Receipt.key else store.landed other := by
  rw [landed, h, Std.ExtTreeMap.getD_insert]
  simp only [Std.LawfulEqOrd.compare_eq_iff_eq]
  split <;> rfl

theorem landed_enter (h : after.pipelines = store.pipelines.insert pipeline held)
    (hheld : held.landed = (store.pipelines.getD pipeline {}).landed) :
    after.landed other = store.landed other := by
  rw [landed_insert h, hheld, ite_eq_right_iff]
  rintro rfl
  rfl

theorem landed_table {ref : TableRef} (h : store.table pipeline epoch ref = .ok after) :
    after.landed other = store.landed other := by
  unfold Store.table at h
  dsimp only at h
  split at h
  · cases h
  · split at h <;> cases h
    rfl

theorem landed_foldl {α : Type} {op : Store D V → α → Store D V} (entries : List α)
    (hop : ∀ store entry, (op store entry).landed other = store.landed other) :
    (entries.foldl op store).landed other = store.landed other :=
  List.foldlRecOn (motive := (landed · other = _)) entries op rfl fun _ h _ _ => (hop ..).trans h

theorem landed_publish (h : store.publish arrow pipeline epoch commit = .ok published) :
    published.1.landed other = store.landed other := by
  obtain ⟨-, plans, -, hafter⟩ := publish_eq_ok h
  rw [hafter, landed_foldl, landed_foldl, landed_foldl]
  · rfl
  · exact fun _ _ => rfl
  · intro store entry
    unfold finish
    split <;> rfl
  · exact fun _ _ => rfl

theorem Applies.after_eq (h : store.Applies arrow pipeline epoch commit published) :
    commit.after = store.landed pipeline := by
  refine Eq.trans ?_ (landed_enter rfl rfl : (store.enter pipeline).landed pipeline = _)
  have hdecide := h.1
  unfold Fence.decide answer at hdecide
  grind [landed, PipelineStore.fence]

theorem Applies.landed_commit (h : store.Applies arrow pipeline epoch commit published) :
    (store.commit arrow pipeline epoch commit now).1.landed other
      = if pipeline = other then some commit.key else store.landed other := by
  rcases commit_cases arrow store pipeline epoch commit now with
    ⟨published, counts, happlies, hcommit⟩ | ⟨hnot, -⟩
  · rw [hcommit, landed_insert rfl, landed_publish happlies.2.2, landed_enter rfl rfl]
    rfl
  · exact absurd h (hnot published)

/-- A call leaves the pipeline's landed key, or lands a commit past it. -/
theorem landed_call (arrow : Arrow D) {call : Call D V} (hsent : call.Advances)
    (hkey : store.landed pipeline = some key) : ∃ next,
      (store.call arrow call).landed pipeline = some next ∧ (next = key ∨ key.Before next) := by
  suffices h : (store.call arrow call).landed pipeline = store.landed pipeline ∨ ∃ next,
      (store.call arrow call).landed pipeline = some next ∧ key.Before next by
    grind
  cases call with
  | commit other epoch commit now =>
    rcases commit_cases arrow store other epoch commit now with ⟨_, _, h, -⟩ | ⟨-, hcommit⟩
    · by_cases hother : other = pipeline
      · subst hother
        exact .inr ⟨commit.key, h.landed_commit.trans (if_pos rfl),
          hsent key (h.after_eq.trans hkey)⟩
      · exact .inl (h.landed_commit.trans (if_neg hother))
    · exact .inl (landed_enter (congrArg pipelines hcommit) rfl)
  | _ =>
    -- no other call writes a receipt, refused or not
    left
    simp only [call, Store.open, applySchema, Store.writer, flush]
    repeat' split
    all_goals first | rfl | exact landed_enter rfl rfl | exact (landed_table ‹_› :)

theorem landed_run {calls : List (Call D V)} (hsent : ∀ call ∈ calls, call.Advances)
    (hkey : store.landed pipeline = some key) : ∃ last,
      (store.run arrow calls).landed pipeline = some last ∧ (last = key ∨ key.Before last) := by
  induction calls generalizing store key with
  | nil => exact ⟨key, hkey, .inl rfl⟩
  | cons call calls ih =>
    rw [List.forall_mem_cons] at hsent
    obtain ⟨next, hnext, hbefore⟩ := landed_call arrow hsent.1 hkey
    obtain ⟨last, hlast, hlater⟩ := ih hsent.2 hnext
    refine ⟨last, hlast, ?_⟩
    unfold CommitKey.Before at *
    grind

/-- Once a commit landed, whatever is called, a commit of its pipeline that applies is past it:
    none applies twice, however often and by whatever session it is sent. -/
theorem applied_past_landed (calls : List (Call D V)) (now : Nat)
    (hkey : store.landed pipeline = some key)
    (hsent : ∀ call ∈ calls ++ [.commit pipeline epoch commit now], call.Advances)
    (happlies : (store.run arrow calls).Applies arrow pipeline epoch commit published) :
    key.Before commit.key := by
  obtain ⟨last, hlast, hlater⟩ := landed_run (fun _ h => hsent _ (List.mem_append_left _ h)) hkey
  have hbefore : last.Before commit.key :=
    hsent _ List.mem_concat_self last (happlies.after_eq.trans hlast)
  unfold CommitKey.Before at *
  grind

end Store

/-- Once the first commit landed it is sent again, and then the second, which applies. -/
theorem applied_past_landed_orders :
    CommitKey.Before { epoch := 1, seq := 1 } Orders.second.key := by
  let store := Store.run Orders.arrow {} Orders.calls
  let calls : List (Call Empty Unit) := [.commit "shop" 1 (Orders.commit 1 none) 1]
  have hkey : store.landed "shop" = some { epoch := 1, seq := 1 } := by decide +kernel
  obtain ⟨published, h⟩ := Lib.exists_of_isOk (x := ((store.run Orders.arrow calls).enter
    "shop").publish Orders.arrow "shop" 1 Orders.second) (by decide +kernel)
  exact Store.applied_past_landed calls 2 hkey
    (by simp [calls, Call.Advances, Orders.second, Orders.commit, CommitKey.Before])
    ⟨by decide +kernel, rfl, h⟩

end Rdlt.Memory
