import EventStore.Memory.Effects

/-!
Commits are atomic, and their failures are ranked. Every check a write can fail
is listed on its own; the reported error is the first of the highest rank among
all that fail, although the code stops long before it has evaluated them all.
-/
namespace EventStore

open Result Ranking

/-- The rank of a failed check, the feature marker highest. -/
def commitRank : Error → Nat
  | .unsupportedFeature _ _ | .streamHeadsNotMigrated => 0
  | .retentionConflict _ => 1
  | .rebuildInProgress => 2
  | .outcomeConflict _ => 3
  | .streamHeadDrift _ _ _ => 4
  | .sequenceGap _ _ _ => 5
  | .conflict _ _ | .fenceConflict _ _ _ => 6
  | .projectorOperation _ => 7
  | _ => 8

def errorOf : Except Error Unit → List Error
  | .error error => [error]
  | .ok () => []

namespace Write

def retentionFailures (s : Stores) (w : Write) : List Error :=
  (w.fences.filter fun fence => s.manifest.any (·.isRetained fence.entityType)).map
    fun fence => .retentionConflict fence.entityType

def viewFailures (s : Stores) (w : Write) : List Error :=
  (w.views.filter fun view => !viewHolds s.views[view.op.key]? view.op).map
    fun view => .projectorOperation (.conditionFailed view)

/-- Every failing check of a write, each evaluated on its own, in canonical order. -/
def failingChecks (E : Env) (r : MemRepository) (w : Write) : List Error :=
  errorOf (r.checkManifest E).1 ++ (w.retentionFailures r.stores ++
    (errorOf (checkRebuild r.stores) ++ (errorOf (checkOutcomeRow r.stores w.outcome) ++
      (failures r.stores w.streams w.fences ++ w.viewFailures r.stores))))

end Write

variable {e : Error}

theorem commitRank_streamFailure {Op : Type} {held : Stream} {c : Commit Op}
    (h : streamFailure held c = some e) : commitRank e = Heads.rankKey e + 4 := by
  unfold streamFailure at h
  cases hev : c.events with
  | nil => simp [hev] at h
  | cons first rest =>
    simp only [hev, Stream.probe_eq, Heads.gapOrConflict] at h
    split at h
    · split at h
      · split at h <;> cases h <;> rfl
      · cases h; rfl
    · split at h
      · cases h; rfl
      · split at h
        · cases h
        · split at h
          · cases h; rfl
          · cases h

theorem commitRank_fenceFailure {held : Stream} {fence : ReadFence}
    (h : fenceFailure held fence = some e) : commitRank e = Heads.rankKey e + 4 := by
  simp only [fenceFailure, Stream.probe_eq] at h
  split at h
  · split at h <;> cases h <;> rfl
  · cases h

variable {s : Stores}

theorem commitRank_failures {Op : Type} {streams : List (Commit Op)} {fences : List ReadFence}
    (h : e ∈ failures s streams fences) : commitRank e = Heads.rankKey e + 4 := by
  rcases List.mem_append.mp h with h | h
  · obtain ⟨c, -, hc⟩ := List.mem_filterMap.mp h
    exact commitRank_streamFailure hc
  · obtain ⟨fence, -, hf⟩ := List.mem_filterMap.mp h
    split at hf
    · cases hf
    · exact commitRank_fenceFailure hf

theorem rankKey_le (e : Error) : Heads.rankKey e ≤ 2 := by
  unfold Heads.rankKey
  split <;> omega

variable {E : Env}

theorem validateSupported_error {m : FeatureManifest} (h : m.validateSupported E = .error e) :
    commitRank e = 0 := by
  unfold FeatureManifest.validateSupported at h
  split at h <;> cases h
  rfl

theorem refuseJournal_error {m : FeatureManifest} (h : m.refuseJournal = .error e) :
    commitRank e = 0 := by
  unfold FeatureManifest.refuseJournal at h
  split at h <;> cases h
  rfl

theorem validateMarkerForWrite_error {journaling : Bool} {manifest : Option FeatureManifest}
    (h : validateMarkerForWrite E journaling manifest = .error e) : commitRank e = 0 := by
  cases manifest with
  | none => cases h; rfl
  | some manifest =>
    cases journaling with
    | true =>
      simp only [validateMarkerForWrite, if_true, seq_eq_error, refuse_eq_error] at h
      rcases h with h | ⟨-, ⟨-, rfl⟩ | ⟨-, h⟩⟩
      · exact validateSupported_error h
      · rfl
      · cases h
    | false =>
      simp only [validateMarkerForWrite, Bool.false_eq_true, if_false, seq_eq_error,
        refuse_eq_error] at h
      rcases h with h | ⟨-, h | ⟨-, ⟨-, rfl⟩ | ⟨-, h⟩⟩⟩
      · exact validateSupported_error h
      · exact refuseJournal_error h
      · rfl
      · cases h

theorem checkManifest_error {r : MemRepository} (h : (r.checkManifest E).1 = .error e) :
    commitRank e = 0 := by
  unfold MemRepository.checkManifest at h
  split at h
  · cases h
  · split at h
    · cases h
    · split at h <;> cases h
      rfl
    · rename_i hmarker
      cases h
      exact validateMarkerForWrite_error hmarker

theorem retained_checkManifest (E : Env) (r : MemRepository) (entityType : EntityType) :
    (r.checkManifest E).2.stores.manifest.any (·.isRetained entityType) =
      r.stores.manifest.any (·.isRetained entityType) := by
  unfold MemRepository.checkManifest
  split
  · rfl
  · split
    · rfl
    · split
      · rfl
      · cases r.stores.manifest <;>
          simp [declaredManifest, FeatureManifest.isRetained, FeatureManifest.declareStreamHeads,
            FeatureManifest.empty]
    · rfl

theorem report_errorOf (result : Except Error Unit) :
    report commitRank (errorOf result) = result := by
  cases result <;> rfl

theorem report_failures (s : Stores) (w : Write) :
    report commitRank (failures s w.streams w.fences) = checkRanked s w.streams w.fences := by
  have hcongr : firstMin commitRank (failures s w.streams w.fences) =
      Heads.rank (failures s w.streams w.fences) := by
    refine firstMin_congr _ fun a ha b hb => ?_
    rw [commitRank_failures ha, commitRank_failures hb]
    omega
  rw [report, hcongr, checkRanked]
  cases Heads.rank (failures s w.streams w.fences) <;> rfl

namespace Write

theorem report_viewFailures (s : Stores) (w : Write) :
    report commitRank (w.viewFailures s) = checkViewConditions s.views w.views := by
  rw [viewFailures, report_filter (k := 7) commitRank, checkViewConditions]
  · cases w.views.find? fun view => !viewHolds s.views[view.op.key]? view.op <;> rfl
  · exact fun _ => rfl

theorem report_retentionFailures (s : Stores) (w : Write) :
    report commitRank (w.retentionFailures s) =
      match w.fences.find? (fun fence => s.manifest.any (·.isRetained fence.entityType)) with
      | some fence => .error (.retentionConflict fence.entityType)
      | none => .ok () := by
  rw [retentionFailures, report_filter (k := 1) commitRank]
  · cases w.fences.find? fun fence => s.manifest.any (·.isRetained fence.entityType) <;> rfl
  · exact fun _ => rfl

variable {w : Write}

theorem rank_retentionFailures : ∀ e ∈ w.retentionFailures s, commitRank e = 1 := by
  intro e he
  obtain ⟨fence, -, rfl⟩ := List.mem_map.mp he
  rfl

theorem rank_viewFailures : ∀ e ∈ w.viewFailures s, commitRank e = 7 := by
  intro e he
  obtain ⟨view, -, rfl⟩ := List.mem_map.mp he
  rfl

theorem rank_rebuild : ∀ e ∈ errorOf (checkRebuild s), commitRank e = 2 := by
  intro e he
  unfold checkRebuild refuse at he
  split at he <;> simp [errorOf] at he
  exact he ▸ rfl

theorem rank_outcome {outcome : Option Outcome} :
    ∀ e ∈ errorOf (checkOutcomeRow s outcome), commitRank e = 3 := by
  intro e he
  cases outcome with
  | none => cases he
  | some outcome =>
    simp only [checkOutcomeRow, refuse] at he
    split at he <;> simp [errorOf] at he
    exact he ▸ rfl

/-- A planned write refuses the first fence of a type kept for a limited time. -/
theorem checkRetention_of_plan {q : Request} (hplan : q.plan E = .ok (some w))
    (manifest : Option FeatureManifest) :
    w.checkRetention manifest =
      match w.fences.find? (fun fence => manifest.any (·.isRetained fence.entityType)) with
      | some fence => .error (.retentionConflict fence.entityType)
      | none => .ok () := by
  rcases Request.plan_eq_some hplan with ⟨c, -, rfl⟩ | ⟨t, -, rfl⟩
  · rfl
  · cases hfound : t.normalized.fences.find? fun fence =>
      manifest.any (·.isRetained fence.entityType) with
    | none => simp only [ofTransaction, TransactionCommit.checkRetention, Bool.or_false, hfound]
    | some fence =>
      simp only [ofTransaction, TransactionCommit.checkRetention, Bool.or_false, hfound]

theorem perform_fst (E : Env) (r : MemRepository) (w : Write) :
    (r.perform E w).1 =
      ((r.checkManifest E).1 >>= fun _ => w.check (r.checkManifest E).2.stores) := by
  rcases MemRepository.perform_cases E r w with ⟨e, hm, he⟩ | ⟨hm, e, hc, he⟩ | ⟨hm, hc, hok⟩
  · rw [he, hm]; rfl
  · rw [he, hm, hc]; rfl
  · rw [hok, hm, hc]; rfl

/-- The failing checks report the one the write stops at. -/
theorem report_failingChecks {q : Request} (hplan : q.plan E = .ok (some w)) (r : MemRepository) :
    report commitRank (w.failingChecks E r) = (r.perform E w).1 := by
  have hmarker : ∀ e ∈ errorOf (r.checkManifest E).1, commitRank e = 0 := by
    intro e he
    cases hm : (r.checkManifest E).1 with
    | error error =>
      rw [hm, errorOf, List.mem_singleton] at he
      exact he ▸ checkManifest_error hm
    | ok u => simp [hm, errorOf] at he
  have hfailures : ∀ e ∈ failures r.stores w.streams w.fences,
      4 ≤ commitRank e ∧ commitRank e ≤ 6 := by
    intro e he
    have := commitRank_failures he
    have := rankKey_le e
    omega
  have hviews := rank_viewFailures (s := r.stores) (w := w)
  have houtcome := @rank_outcome r.stores w.outcome
  have hrebuild := rank_rebuild (s := r.stores)
  have hretention := rank_retentionFailures (s := r.stores) (w := w)
  rw [failingChecks, report_append, report_append, report_append, report_append, report_append,
    report_errorOf, report_errorOf, report_errorOf, report_failures, report_viewFailures,
    report_retentionFailures]
  · rw [perform_fst, check, checkWrite, checkRetention_of_plan hplan]
    simp only [retained_checkManifest]
    rw [MemRepository.checkManifest_stores]
    rfl
  all_goals
    intro a ha b hb
    grind

end Write

end EventStore
