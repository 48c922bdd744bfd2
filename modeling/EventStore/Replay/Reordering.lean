import EventStore.Replay.Rows

/-!
Replaying commits in another order. Each row has one owner, a stream that every commit with an
operation on the row wrote, so two orders that agree on the commits of each stream apply the same
operations to each row in the same order.
-/
namespace EventStore

open Result

def CommitView.SharesStream (a b : CommitView) : Prop :=
  ∃ s ∈ a.streams, ∃ t ∈ b.streams, s.entityId = t.entityId

instance decidableSharesStream (a b : CommitView) : Decidable (a.SharesStream b) :=
  inferInstanceAs (Decidable (∃ s ∈ a.streams, ∃ t ∈ b.streams, s.entityId = t.entityId))

theorem CommitView.SharesStream.symm {a b : CommitView} (h : a.SharesStream b) :
    b.SharesStream a := by
  obtain ⟨s, hs, t, ht, hid⟩ := h
  exact ⟨t, ht, s, hs, hid.symm⟩

/-- The second list has the commits of the first, with those of a common stream in the same
order. -/
def Reordered (commits commits' : List CommitView) : Prop :=
  ∃ σ : Fin commits.length ≃ Fin commits'.length,
    (∀ i, commits'.get (σ i) = commits.get i) ∧
    ∀ i j, (commits.get i).SharesStream (commits.get j) → i < j → σ i < σ j

def operationsOf (projectors : List CommitProjector) (commit : CommitView) : List ProjectedView :=
  match projectCommit projectors commit with
  | .ok items => items
  | .error _ => []

variable {commits : List CommitView}

section Replay

variable {projectors : List CommitProjector}

variable {items : List ProjectedView}

theorem operationsOf_eq {commit : CommitView} (h : projectCommit projectors commit = .ok items) :
    operationsOf projectors commit = items := by
  simp [operationsOf, h]

variable {replay : ViewReplay}

theorem replayFrom_eq_ok {replay' : ViewReplay} :
    replayFrom projectors replay commits = .ok replay' ↔
      (∀ commit ∈ commits,
        projectCommit projectors commit = .ok (operationsOf projectors commit)) ∧
      replay.applyAll (commits.flatMap (operationsOf projectors)) = .ok replay' := by
  induction commits generalizing replay with
  | nil => simp [replayFrom, ViewReplay.applyAll]
  | cons commit commits ih =>
    simp only [replayFrom, bind_eq_ok, ih, List.forall_mem_cons, List.flatMap_cons,
      ViewReplay.applyAll_append]
    constructor
    · rintro ⟨items, hitems, next, hnext, hrest, happly⟩
      rw [operationsOf_eq hitems]
      exact ⟨⟨hitems, hrest⟩, next, hnext, happly⟩
    · rintro ⟨⟨hitems, hrest⟩, next, hnext, happly⟩
      exact ⟨_, hitems, next, hnext, hrest, happly⟩

/-- Operations apply to a replay exactly when every row keeps to one owner. -/
theorem ViewReplay.applyAll_isOk :
    (∃ replay', replay.applyAll items = .ok replay') ↔
      (∀ item ∈ items, ∀ first, replay.last[item.op.key]? = some first →
        first.op.owner = item.op.owner) ∧
      items.Pairwise fun a b => a.op.key = b.op.key → a.op.owner = b.op.owner := by
  induction items generalizing replay with
  | nil => simp [applyAll]
  | cons item items ih =>
    simp only [applyAll, bind_eq_ok, List.forall_mem_cons, List.pairwise_cons]
    constructor
    · rintro ⟨replay', next, hnext, happly⟩
      obtain ⟨hlast, howner⟩ := apply_ok hnext
      obtain ⟨hfirst, hpairwise⟩ := ih.mp ⟨replay', happly⟩
      rw [hlast] at hfirst
      have hnew : ∀ b ∈ items, item.op.key = b.op.key → item.op.owner = b.op.owner := by
        intro b hb hkey
        exact hfirst b hb item (by rw [← hkey, OrdMap.get_insert_self])
      refine ⟨⟨howner, fun b hb first hget => ?_⟩, hnew, hpairwise⟩
      by_cases hkey : b.op.key = item.op.key
      · rw [hkey] at hget
        exact (howner first hget).trans (hnew b hb hkey.symm)
      · exact hfirst b hb first (by rw [OrdMap.get_insert_ne _ _ hkey, hget])
    · rintro ⟨⟨howner, hrest⟩, hnew, hpairwise⟩
      have hnext : replay.apply item = .ok ⟨replay.last.insert item.op.key item⟩ := by
        unfold ViewReplay.apply
        split
        · rename_i first hget
          rw [if_neg (not_not.mpr (howner first hget))]
        · rfl
      obtain ⟨replay', happly⟩ := (@ih ⟨replay.last.insert item.op.key item⟩).mpr
        ⟨fun b hb first hget => by
          rw [OrdMap.get_insert] at hget
          split at hget
          · rename_i hkey
            cases hget
            exact hnew b hb hkey.symm
          · exact hrest b hb first hget, hpairwise⟩
      exact ⟨replay', _, hnext, happly⟩

theorem ViewReplay.applyAll_isOk_of_perm {items' : List ProjectedView} (hperm : items'.Perm items)
    (h : ∃ replay', replay.applyAll items = .ok replay') :
    ∃ replay', replay.applyAll items' = .ok replay' := by
  rw [applyAll_isOk] at h ⊢
  refine ⟨fun item hitem => h.1 item (hperm.mem_iff.mp hitem), ?_⟩
  refine (List.Perm.pairwise_iff ?_ hperm).mpr h.2
  exact fun {a b} hab hkey => (hab hkey.symm).symm

/-- Commits in two orders that agree on each stream replay to the same rows. -/
theorem rows_reordered {n : Nat} {view : Fin n → CommitView} {order : List (Fin n)}
    (hperm : order.Perm (List.finRange n))
    (horder : order.Pairwise fun i j => (view i).SharesStream (view j) → i < j)
    (hproject : ∀ i, projectCommit projectors (view i) = .ok (operationsOf projectors (view i)))
    {replay' : ViewReplay} (h : ViewReplay.empty.applyAll
      ((List.finRange n).flatMap fun i => operationsOf projectors (view i)) = .ok replay)
    (h' : ViewReplay.empty.applyAll
      (order.flatMap fun i => operationsOf projectors (view i)) = .ok replay') :
    replay' = replay := by
  have hstart : (List.finRange n).Pairwise
      fun i j => (view i).SharesStream (view j) → i < j := by
    refine (List.pairwise_lt_finRange n).imp ?_
    intro i j hij _
    exact hij
  have hone : ∀ i ∈ List.finRange n, ∀ j ∈ List.finRange n,
      ∀ item ∈ operationsOf projectors (view i), ∀ other ∈ operationsOf projectors (view j),
      item.op.owner = other.op.owner → ((view i).SharesStream (view j) → i < j) →
      ((view j).SharesStream (view i) → j < i) → i = j := by
    intro i _ j _ item hitem other hother hsame hij hji
    obtain ⟨s, hs, hid⟩ := projectCommit_owner (hproject i) item hitem
    obtain ⟨t, ht, hid'⟩ := projectCommit_owner (hproject j) other hother
    have hshares : (view i).SharesStream (view j) := ⟨s, hs, t, ht, by rw [hid, hid', hsame]⟩
    exact absurd (hij hshares) (hji hshares.symm).not_gt
  have hlast : replay'.last = replay.last := by
    refine Std.ExtTreeMap.ext_getElem? fun key => ?_
    rw [ViewReplay.get_applyAll h, ViewReplay.get_applyAll h',
      onKey_reordered hperm hstart horder hone h']
  cases replay
  cases replay'
  exact congrArg ViewReplay.mk hlast

end Replay

variable {commits' : List CommitView}

theorem Reordered.symm (h : Reordered commits commits') : Reordered commits' commits := by
  obtain ⟨σ, hget, horder⟩ := h
  refine ⟨σ.symm, fun i => ?_, fun i j hshares hij => ?_⟩
  · rw [← hget, Equiv.apply_symm_apply]
  · have hviews : ∀ k, commits'.get k = commits.get (σ.symm k) := fun k => by
      rw [← hget, Equiv.apply_symm_apply]
    rw [hviews i, hviews j] at hshares
    rcases lt_trichotomy (σ.symm i) (σ.symm j) with hlt | heq | hgt
    · exact hlt
    · exact absurd (σ.symm.injective heq) hij.ne
    · have := horder _ _ hshares.symm hgt
      rw [Equiv.apply_symm_apply, Equiv.apply_symm_apply] at this
      exact absurd this hij.not_gt

/-- The commits of both lists as numbers, in orders that agree on each stream. -/
theorem Reordered.numbered (h : Reordered commits commits') :
    ∃ order : List (Fin commits.length), order.Perm (List.finRange commits.length) ∧
      commits' = order.map commits.get ∧
      order.Pairwise fun i j => (commits.get i).SharesStream (commits.get j) → i < j := by
  obtain ⟨σ, hget, horder⟩ := h.symm
  refine ⟨(List.finRange commits'.length).map σ, ?_, ?_, ?_⟩
  · refine (List.perm_ext_iff_of_nodup ((List.nodup_finRange _).map σ.injective)
      (List.nodup_finRange _)).mpr fun i => ?_
    simp only [List.mem_map, List.mem_finRange, true_and, iff_true]
    exact σ.surjective i
  · rw [List.map_map]
    conv_lhs => rw [← List.map_get_finRange commits']
    exact List.map_congr_left fun i _ => (hget i).symm
  · rw [List.pairwise_map]
    refine (List.pairwise_lt_finRange _).imp fun {i j} hij hshares => ?_
    rw [hget, hget] at hshares
    exact horder i j hshares hij

theorem Reordered.replayViews_eq_ok {projectors : List CommitProjector} {rows : List ViewRow}
    (h : Reordered commits commits') (hrows : replayViews projectors commits = .ok rows) :
    replayViews projectors commits' = .ok rows := by
  obtain ⟨order, hperm, rfl, horder⟩ := h.numbered
  simp only [replayViews, bind_eq_ok] at hrows ⊢
  obtain ⟨replay, hreplay, hrows⟩ := hrows
  refine ⟨replay, ?_, hrows⟩
  obtain ⟨hproject, happly⟩ := replayFrom_eq_ok.mp hreplay
  have hall : ∀ i, projectCommit projectors (commits.get i) =
      .ok (operationsOf projectors (commits.get i)) := fun i => hproject _ (commits.get_mem i)
  refine replayFrom_eq_ok.mpr ⟨?_, ?_⟩
  · intro commit hcommit
    obtain ⟨i, -, rfl⟩ := List.mem_map.mp hcommit
    exact hall i
  · rw [List.flatMap_map]
    conv at happly => rw [← List.map_get_finRange commits, List.flatMap_map]
    obtain ⟨replay', happly'⟩ := ViewReplay.applyAll_isOk_of_perm
      (hperm.flatMap_right fun i => operationsOf projectors (commits.get i)) ⟨replay, happly⟩
    rw [happly', rows_reordered hperm horder hall happly happly']

/-- Two orders that agree on the commits of every stream replay to the same rows, or both fail. -/
theorem replayViews_reordered (projectors : List CommitProjector)
    (commits commits' : List CommitView) (h : Reordered commits commits') :
    (∃ rows, replayViews projectors commits = .ok rows ∧
      replayViews projectors commits' = .ok rows) ∨
    ∃ e e', replayViews projectors commits = .error e ∧
      replayViews projectors commits' = .error e' := by
  cases hfirst : replayViews projectors commits with
  | ok rows => exact .inl ⟨rows, rfl, h.replayViews_eq_ok hfirst⟩
  | error e =>
    cases hsecond : replayViews projectors commits' with
    | ok rows =>
      rw [h.symm.replayViews_eq_ok hsecond] at hfirst
      cases hfirst
    | error e' => exact .inr ⟨e, e', rfl, rfl⟩

def counted (entityId : EntityId) (sequence : Int) : CommitView :=
  ⟨"", [.new entityId "counter" [⟨.forEvent entityId sequence, sequence, "added", 1, entityId,
    "counter", .empty, {}⟩] .empty]⟩

theorem replayViews_reordered_of_swap :
    Reordered [counted "a" 1, counted "b" 1, counted "a" 2]
      [counted "b" 1, counted "a" 1, counted "a" 2] ∧
    ∃ rows, replayViews [tally] [counted "a" 1, counted "b" 1, counted "a" 2] = .ok rows ∧
      replayViews [tally] [counted "b" 1, counted "a" 1, counted "a" 2] = .ok rows ∧
      rows.length = 2 := by
  have hreordered : Reordered [counted "a" 1, counted "b" 1, counted "a" 2]
      [counted "b" 1, counted "a" 1, counted "a" 2] :=
    ⟨Equiv.swap (0 : Fin 3) 1, by decide +kernel, by decide +kernel⟩
  have hok : ∃ rows, replayViews [tally] [counted "a" 1, counted "b" 1, counted "a" 2] = .ok rows ∧
      rows.length = 2 := ⟨_, rfl, rfl⟩
  obtain ⟨rows, hrows, hlength⟩ := hok
  refine ⟨hreordered, rows, hrows, ?_, hlength⟩
  rcases replayViews_reordered [tally] _ _ hreordered with ⟨rows', h, h'⟩ | ⟨e, e', h, h'⟩
  · rw [hrows] at h
    cases h
    exact h'
  · rw [hrows] at h
    cases h

end EventStore
