import EventStore.Replay.Batches
import EventStore.Memory.Effects

/-!
The rows that view operations leave: the last operation on a key decides its row. Commits replayed
in another order leave the same rows as long as each stream goes on the same way and every row has
one owner.
-/
namespace EventStore

open Result

def onKey (key : ViewKey) (items : List ProjectedView) : List ProjectedView :=
  items.filter fun item => item.op.key == key

theorem onKey_append (key : ViewKey) (items more : List ProjectedView) :
    onKey key (items ++ more) = onKey key items ++ onKey key more := List.filter_append ..

variable {item : ProjectedView}

theorem onKey_of_eq {key : ViewKey} (h : item.op.key = key) : onKey key [item] = [item] := by
  simp [onKey, h]

theorem onKey_of_ne {key : ViewKey} (h : item.op.key ≠ key) : onKey key [item] = [] := by
  simp [onKey, h]

/-- The last operation on a row decides it. -/
theorem get_applyViews_last (rows : OrdMap ViewKey ViewRow) (items : List ProjectedView)
    (key : ViewKey) :
    (applyViews rows items)[key]? =
      match (onKey key items).getLast? with
      | none => rows[key]?
      | some item => item.op.result := by
  induction items using List.reverseRecOn with
  | nil => rfl
  | append_singleton items item ih =>
    have hstep : applyViews rows (items ++ [item]) = applyView (applyViews rows items) item := by
      simp [applyViews]
    rw [hstep, get_applyView, onKey_append]
    by_cases hkey : item.op.key = key
    · rw [if_pos hkey.symm, onKey_of_eq hkey, List.getLast?_concat]
    · rw [if_neg (Ne.symm hkey), onKey_of_ne hkey, List.append_nil, ih]

namespace ViewReplay

variable {replay replay' : ViewReplay}

theorem applyAll_append (replay : ViewReplay) (items more : List ProjectedView) :
    replay.applyAll (items ++ more) =
      (replay.applyAll items >>= fun replay => replay.applyAll more) := by
  induction items generalizing replay with
  | nil => rfl
  | cons item items ih =>
    simp only [List.cons_append, ViewReplay.applyAll]
    cases replay.apply item with
    | error error => rfl
    | ok next => exact ih next

theorem apply_ok (h : replay.apply item = .ok replay') :
    replay'.last = replay.last.insert item.op.key item ∧
      ∀ first, replay.last[item.op.key]? = some first → first.op.owner = item.op.owner := by
  unfold ViewReplay.apply at h
  split at h
  · rename_i first hfirst
    split at h
    · cases h
    · rename_i howner
      cases h
      refine ⟨rfl, ?_⟩
      rintro _ heq
      rw [hfirst] at heq
      cases heq
      exact not_not.mp howner
  · rename_i hnone
    cases h
    refine ⟨rfl, ?_⟩
    intro first heq
    rw [hnone] at heq
    cases heq

theorem get_applyAll {items : List ProjectedView} (h : replay.applyAll items = .ok replay')
    (key : ViewKey) :
    replay'.last[key]? = (onKey key items).getLast?.or replay.last[key]? := by
  induction items generalizing replay with
  | nil =>
    cases h
    rfl
  | cons item items ih =>
    simp only [applyAll, bind_eq_ok] at h
    obtain ⟨next, hnext, h⟩ := h
    rw [ih h, (apply_ok hnext).1, OrdMap.get_insert, ← List.singleton_append (x := item),
      onKey_append, List.getLast?_append]
    by_cases hkey : item.op.key = key
    · rw [if_pos hkey.symm, onKey_of_eq hkey, Option.or_assoc]
      rfl
    · rw [if_neg (Ne.symm hkey), onKey_of_ne hkey, List.getLast?_nil, Option.or_none]

theorem owner_applyAll {items : List ProjectedView} (h : replay.applyAll items = .ok replay') :
    (∀ (key : ViewKey) (first : ProjectedView), replay.last[key]? = some first →
      ∃ last : ProjectedView, replay'.last[key]? = some last ∧ last.op.owner = first.op.owner) ∧
    ∀ item ∈ items, ∃ last : ProjectedView, replay'.last[item.op.key]? = some last ∧
      last.op.owner = item.op.owner := by
  induction items generalizing replay with
  | nil =>
    cases h
    exact ⟨fun key first hfirst => ⟨first, hfirst, rfl⟩, fun item hitem => nomatch hitem⟩
  | cons item items ih =>
    simp only [applyAll, bind_eq_ok] at h
    obtain ⟨next, hnext, h⟩ := h
    obtain ⟨hlast, howner⟩ := apply_ok hnext
    obtain ⟨hkept, hitems⟩ := ih h
    have hnew := hkept item.op.key item (by rw [hlast, OrdMap.get_insert_self])
    refine ⟨fun key first hfirst => ?_, ?_⟩
    · by_cases hkey : key = item.op.key
      · subst hkey
        rw [howner first hfirst]
        exact hnew
      · exact hkept key first (by rw [hlast, OrdMap.get_insert_ne _ _ hkey]; exact hfirst)
    · rw [List.forall_mem_cons]
      exact ⟨hnew, hitems⟩

theorem rows_eq {rows : OrdMap ViewKey ViewRow}
    (h : ∀ key : ViewKey, rows[key]? = replay.last[key]?.bind fun item => item.op.result) :
    replay.rows = rows.toList.map (·.2) := by
  have hkeys : ∀ {ν : Type} (m : OrdMap ViewKey ν),
      m.toList.Pairwise fun a b => compare a.1 b.1 = .lt := fun m =>
    Std.ExtTreeMap.ordered_keys_toList
  have hirrefl : Std.Irrefl fun a b : ViewKey × ViewRow => compare a.1 b.1 = .lt :=
    ⟨fun a h => by
      rw [(Std.ReflCmp.compare_self : compare a.1 a.1 = .eq)] at h
      cases h⟩
  have hantisymm : Std.Antisymm fun a b : ViewKey × ViewRow => compare a.1 b.1 = .lt :=
    ⟨fun a b hab hba => by
      rw [Std.OrientedCmp.gt_of_lt hab] at hba
      cases hba⟩
  have hlist : (replay.last.toList.filter fun entry => entry.2.op.kind == .put).map
      (fun entry => (entry.1, ViewRow.of entry.2.op)) = rows.toList := by
    refine List.Pairwise.eq_of_mem_iff (r := fun a b => compare a.1 b.1 = .lt) ?_ (hkeys rows) ?_
    · exact List.pairwise_map.mpr ((hkeys replay.last).filter _)
    · rintro ⟨key, row⟩
      rw [OrdMap.mem_toList, h key, List.mem_map]
      constructor
      · rintro ⟨⟨_, item⟩, hmem, heq⟩
        obtain ⟨rfl, rfl⟩ := Prod.mk.inj heq
        obtain ⟨hmem, hput⟩ := List.mem_filter.mp hmem
        rw [OrdMap.mem_toList.mp hmem]
        simp only [beq_iff_eq] at hput
        simp [ViewOperation.result, hput]
      · intro hget
        rw [Option.bind_eq_some_iff] at hget
        obtain ⟨item, hitem, hresult⟩ := hget
        refine ⟨(key, item), List.mem_filter.mpr ⟨OrdMap.mem_toList.mpr hitem, ?_⟩, ?_⟩
        · cases hkind : item.op.kind with
          | put => rfl
          | delete => simp [ViewOperation.result, hkind] at hresult
        · cases hkind : item.op.kind with
          | put =>
            simp only [ViewOperation.result, hkind, Option.some.injEq] at hresult
            rw [hresult]
          | delete => simp [ViewOperation.result, hkind] at hresult
  rw [← hlist, ViewReplay.rows, List.map_map, List.filter_map, List.map_map]
  rfl

end ViewReplay

section Owners

variable {projectors : List CommitProjector} {commit : CommitView} {items : List ProjectedView}

theorem checkOwner_ok {history : List EntityType} (h : checkOwner item commit history = .ok ()) :
    ∃ stream ∈ commit.streams, stream.entityId = item.op.owner := by
  unfold checkOwner at h
  split at h
  · cases h
  · rename_i stream hfound
    exact ⟨stream, List.mem_of_find?_eq_some hfound, by simpa using List.find?_some hfound⟩

theorem checkEmitted_ok {projector : CommitProjector}
    (h : checkEmitted projector commit items = .ok ()) :
    ∀ item ∈ items, ∃ stream ∈ commit.streams, stream.entityId = item.op.owner := by
  induction items with
  | nil => simp
  | cons item items ih =>
    simp only [checkEmitted, seq_eq_ok] at h
    rw [List.forall_mem_cons]
    refine ⟨checkOwner_ok h.1, ?_⟩
    split at h
    · exact ih h.2
    · exact ih (seq_eq_ok.mp h.2).2

/-- Every emitted operation is checked with the rest of its projector's. -/
theorem projectEach_checked {numbered : List (CommitProjector × Nat)}
    (h : projectEach commit numbered = .ok items) {P : ProjectedView → Prop}
    (hP : ∀ projector ∈ numbered, ∀ views, checkEmitted projector.1 commit views = .ok () →
      ∀ view ∈ views, P view) : ∀ item ∈ items, P item := by
  induction numbered generalizing items with
  | nil =>
    cases h
    simp
  | cons projector numbered ih =>
    rw [List.forall_mem_cons] at hP
    simp only [projectEach, bind_eq_ok] at h
    obtain ⟨views, hviews, rest, hrest, h⟩ := h
    cases h
    rw [List.forall_mem_append]
    refine ⟨?_, ih hrest hP.2⟩
    unfold projectOne at hviews
    split at hviews
    · cases hviews
    · simp only [seq_eq_ok] at hviews
      obtain ⟨hchecked, hviews⟩ := hviews
      cases hviews
      exact hP.1 _ hchecked

theorem projectEach_owner {numbered : List (CommitProjector × Nat)}
    (h : projectEach commit numbered = .ok items) :
    ∀ item ∈ items, ∃ stream ∈ commit.streams, stream.entityId = item.op.owner :=
  projectEach_checked h fun _ _ _ => checkEmitted_ok

/-- Every operation is owned by a stream of the commit. -/
theorem projectCommit_owner (h : projectCommit projectors commit = .ok items) :
    ∀ item ∈ items, ∃ stream ∈ commit.streams, stream.entityId = item.op.owner := by
  unfold projectCommit at h
  split at h
  · cases h
    simp
  · simp only [projectWith, bind_eq_ok] at h
    obtain ⟨views, hviews, -, -, h⟩ := h
    cases h
    exact projectEach_owner hviews

end Owners

section Orders

variable {α : Type} {ops : α → List ProjectedView}

theorem onKey_flatMap (key : ViewKey) (commits : List α) :
    onKey key (commits.flatMap ops) =
      (commits.filter fun c => (ops c).any fun item => item.op.key == key).flatMap
        fun c => onKey key (ops c) := by
  induction commits with
  | nil => rfl
  | cons c commits ih =>
    rw [List.flatMap_cons, onKey_append, ih, List.filter_cons]
    split
    · rfl
    · rename_i hnone
      have hoff : onKey key (ops c) = [] := by
        rw [onKey, List.filter_eq_nil_iff]
        intro item hitem hkey
        exact hnone (List.any_eq_true.mpr ⟨item, hitem, hkey⟩)
      rw [hoff, List.nil_append]

/-- Two orders that agree on the commits of one owner leave the same operations on every row. -/
theorem onKey_reordered {R : α → α → Prop} {commits commits' : List α}
    (hperm : commits'.Perm commits) (hordered : commits.Pairwise R)
    (hordered' : commits'.Pairwise R)
    (hone : ∀ a ∈ commits, ∀ b ∈ commits, ∀ item ∈ ops a, ∀ other ∈ ops b,
      item.op.owner = other.op.owner → R a b → R b a → a = b)
    {replay : ViewReplay} (hreplay : ViewReplay.empty.applyAll (commits'.flatMap ops) = .ok replay)
    (key : ViewKey) : onKey key (commits'.flatMap ops) = onKey key (commits.flatMap ops) := by
  obtain ⟨-, howner⟩ := ViewReplay.owner_applyAll hreplay
  rw [onKey_flatMap, onKey_flatMap]
  congr 1
  refine List.Perm.eq_of_pairwise ?_ (hordered'.filter _) (hordered.filter _) (hperm.filter _)
  intro a b ha hb hab hba
  obtain ⟨ha, hanya⟩ := List.mem_filter.mp ha
  obtain ⟨hb, hanyb⟩ := List.mem_filter.mp hb
  obtain ⟨item, hitem, hkey⟩ := List.any_eq_true.mp hanya
  obtain ⟨other, hother, hkey'⟩ := List.any_eq_true.mp hanyb
  rw [beq_iff_eq] at hkey hkey'
  obtain ⟨last, hlast, hsame⟩ := howner item (List.mem_flatMap.mpr ⟨a, ha, hitem⟩)
  obtain ⟨last', hlast', hsame'⟩ := howner other
    (List.mem_flatMap.mpr ⟨b, hperm.mem_iff.mpr hb, hother⟩)
  rw [hkey] at hlast
  rw [hkey', hlast] at hlast'
  cases hlast'
  exact hone a (hperm.mem_iff.mp ha) b hb item hitem other hother (hsame.symm.trans hsame') hab hba

end Orders

def tally : CommitProjector where
  name := "tally"
  history := ["counter"]
  engineMetadata := false
  project view := .ok (view.streams.map fun stream =>
    .put "tally" stream.entityId stream.entityId "tally" (toString view.eventCount).toUTF8)

end EventStore
