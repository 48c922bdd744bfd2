import EventStore.Memory.Ranked

/-!
The repository never answers a commit with `DuplicateCommand`: that error is the
replay window's own. Every check a commit passes fails with errors of other kinds.
-/
namespace EventStore

open Result Ranking

variable {Op : Type}

abbrev NotDuplicate {α : Type} (x : Except Error α) : Prop := Avoids Error.isDuplicateCommand x

@[simp] theorem checkText_notDuplicate (what value : String) :
    NotDuplicate (checkText what value) := by
  simp [checkText, Error.isDuplicateCommand]

@[simp] theorem checkTexts_notDuplicate (texts : List (String × String)) :
    NotDuplicate (checkTexts texts) := by
  induction texts with
  | nil => simp [checkTexts]
  | cons text texts ih => simp [checkTexts, ih]

@[simp] theorem checkCommandId_notDuplicate (commandId : CommandId) :
    NotDuplicate (checkCommandId commandId) := by
  simp [checkCommandId, Error.isDuplicateCommand]

@[simp] theorem checkNotReserved_notDuplicate (entityId : EntityId) :
    NotDuplicate (checkNotReserved entityId) := by
  simp [checkNotReserved, Error.isDuplicateCommand]

theorem TextError.toError_isDuplicateCommand (e : TextError) :
    e.toError.isDuplicateCommand = false := by
  cases e <;> rfl

@[simp] theorem encode_notDuplicate (E : Env) (r : Rejection) : NotDuplicate (r.encode E) := by
  unfold Rejection.encode
  split
  · simp [Error.isDuplicateCommand]
  · split
    · simp [Error.isDuplicateCommand]
    · simp [TextError.toError_isDuplicateCommand]

@[simp] theorem canonical_notDuplicate (E : Env) (r : Rejection) :
    NotDuplicate (r.canonical E) := by
  simp [Rejection.canonical, Error.isDuplicateCommand]

@[simp] theorem checkOutcome_notDuplicate (E : Env) (o : Outcome) :
    NotDuplicate (checkOutcome E o) := by
  have hstatus : NotDuplicate (checkStatus o) := by
    unfold checkStatus
    split <;> simp [Error.isDuplicateCommand]
  have hrejection : NotDuplicate (checkRejection E o.rejection) := by
    unfold checkRejection
    split <;> simp
  have hidentity : NotDuplicate (checkIdentity E o.identity) := by
    unfold checkIdentity
    split <;> simp [Error.isDuplicateCommand]
  simp [checkOutcome, Error.isDuplicateCommand, hstatus, hrejection, hidentity]

@[simp] theorem checkViews_notDuplicate (views : List ProjectedView) :
    NotDuplicate (checkViews views) := by
  unfold checkViews
  generalize ([] : List ((String × String) × (String × Nat))) = seen
  induction views generalizing seen with
  | nil => simp [checkViewsFrom]
  | cons view views ih =>
    have hreason : NotDuplicate (checkReason view) := by
      unfold checkReason
      split <;> simp [Error.isDuplicateCommand]
    have hduplicate : NotDuplicate (checkDuplicate seen view) := by
      unfold checkDuplicate
      split <;> simp [Error.isDuplicateCommand]
    simp [checkViewsFrom, checkView, checkViewKey, Error.isDuplicateCommand, hreason,
      hduplicate, ih]

namespace Commit

@[simp] theorem checkContiguous_notDuplicate (events : List SerializedEvent) :
    NotDuplicate (checkContiguous events) := by
  fun_induction checkContiguous events with
  | case1 => simp [Error.isDuplicateCommand]
  | case2 _ _ _ _ ih => exact ih
  | case3 => simp

@[simp] theorem checkIdentities_notDuplicate (c : Commit Op) (events : List SerializedEvent) :
    NotDuplicate (c.checkIdentities events) := by
  induction events with
  | nil => simp [checkIdentities]
  | cons event events ih =>
    unfold checkIdentities
    split
    · simp [Error.isDuplicateCommand]
    · split <;> simp [Error.isDuplicateCommand, ih]

@[simp] theorem validate_notDuplicate (E : Env) (c : Commit Op) :
    NotDuplicate (c.validate E) := by
  have htext : NotDuplicate (c.checkOutcomeText E) := by
    unfold checkOutcomeText
    split <;> simp [checkCommitText]
  have hevents : NotDuplicate c.checkEvents := by
    unfold checkEvents
    split
    · split <;> simp [Error.isDuplicateCommand]
    · rename_i first rest _
      have htypes : NotDuplicate (c.checkEntityTypes first) := by
        unfold checkEntityTypes
        split <;> simp [Error.isDuplicateCommand]
      have hsnapshot : NotDuplicate (c.checkSnapshot first) := by
        unfold checkSnapshot
        split
        · simp
        · split
          · simp [Error.isDuplicateCommand]
          · split <;> simp [Error.isDuplicateCommand]
      simp [htypes, hsnapshot, checkFirst, Error.isDuplicateCommand]
  simp [validate, htext, hevents]

end Commit

@[simp] theorem utf8_notDuplicate (bytes : Bytes) (what : String) :
    NotDuplicate (utf8 bytes what) := by
  unfold utf8
  split <;> simp [Error.isDuplicateCommand]

@[simp] theorem snapshotItem_notDuplicate (snapshot : SerializedSnapshot) (ttl : Option Int) :
    NotDuplicate (snapshotItem snapshot ttl) := by
  simp [snapshotItem]

@[simp] theorem streamSizes_notDuplicate (E : Env) (ttl : EntityType → Option Int)
    (c : Commit Op) : NotDuplicate (streamSizes E ttl c) := by
  unfold streamSizes
  split
  · rename_i first last _ _
    have hevents : NotDuplicate (c.events.mapM fun event => do
        return itemSize (← eventItem E event (ttl event.entityType))) :=
      avoids_mapM c.events fun event _ => by simp [eventItem]
    simp only [avoids_bind, hevents, true_and]
    intro sizes _
    cases c.snapshot <;> simp
  · simp

@[simp] theorem outcomeSizes_notDuplicate (E : Env) (outcome : Option Outcome) :
    NotDuplicate (outcomeSizes E outcome) := by
  cases outcome with
  | none => simp [outcomeSizes]
  | some o =>
    simp only [outcomeSizes, outcomeItem, avoids_bind, avoids_pure, implies_true, and_true]
    cases o.rejection <;> simp

@[simp] theorem checkBudget_notDuplicate (sizes : List Nat) : NotDuplicate (checkBudget sizes) := by
  simp [checkBudget, Error.isDuplicateCommand]

namespace TransactionCommit

@[simp] theorem checkStreams_notDuplicate (E : Env) (seen : List EntityId)
    (streams : List (Commit Op)) : NotDuplicate (checkStreams E seen streams) := by
  induction streams generalizing seen with
  | nil => simp [checkStreams]
  | cons stream streams ih => simp [checkStreams, ih, Error.isDuplicateCommand]

@[simp] theorem checkFences_notDuplicate (seen : List EntityId) (fences : List ReadFence) :
    NotDuplicate (checkFences seen fences) := by
  induction fences generalizing seen with
  | nil => simp [checkFences]
  | cons fence fences ih => simp [checkFences, ih, Error.isDuplicateCommand]

@[simp] theorem checkSnapshots_notDuplicate (streams : List (Commit Op)) :
    NotDuplicate (checkSnapshots streams) := by
  induction streams with
  | nil => simp [checkSnapshots]
  | cons stream streams ih =>
    unfold checkSnapshots
    split <;> simp [Error.isDuplicateCommand, ih]

@[simp] theorem normalize_notDuplicate (E : Env) (t : TransactionCommit Op) :
    NotDuplicate (t.normalize E) := by
  have htext : NotDuplicate (t.checkOutcomeText E) := by
    unfold checkOutcomeText
    split <;> simp [checkCommitText]
  simp [normalize, htext, checkCarried, Error.isDuplicateCommand]

@[simp] theorem sizes_notDuplicate (E : Env) (ttl : EntityType → Option Int)
    (t : TransactionCommit Op) : NotDuplicate (t.sizes E ttl) := by
  have hstreams : NotDuplicate (t.streams.mapM (streamSizes E ttl)) :=
    avoids_mapM t.streams fun stream _ => streamSizes_notDuplicate E ttl stream
  simp [sizes, hstreams]

end TransactionCommit

theorem Request.plan_notDuplicate (E : Env) (q : Request) : NotDuplicate (q.plan E) := by
  cases q with
  | commit c =>
    simp only [plan, MemRepository.checkCommit, avoids_bind, Commit.validate_notDuplicate,
      checkNotReserved_notDuplicate, implies_true, and_true, true_and]
    intro _ _
    split <;> simp [MemRepository.budget, Commit.sizes]
  | transaction t =>
    simp only [plan, avoids_bind, TransactionCommit.normalize_notDuplicate, true_and]
    intro n _
    split <;> simp [MemRepository.transactionBudget]

theorem Write.rank_failingChecks {E : Env} {r : MemRepository} {w : Write} {e : Error}
    (h : e ∈ w.failingChecks E r) : commitRank e ≤ 7 := by
  simp only [failingChecks, List.mem_append] at h
  rcases h with h | h | h | h | h | h
  · cases hm : (r.checkManifest E).1 with
    | error error =>
      rw [hm, errorOf, List.mem_singleton] at h
      exact h ▸ (checkManifest_error hm).le.trans (by omega)
    | ok u => simp [hm, errorOf] at h
  · exact (rank_retentionFailures e h).le.trans (by omega)
  · exact (rank_rebuild e h).le.trans (by omega)
  · exact (rank_outcome e h).le.trans (by omega)
  · have := commitRank_failures h
    have := rankKey_le e
    omega
  · exact (rank_viewFailures e h).le

/-- The repository never answers a commit with `DuplicateCommand`. -/
theorem Request.run_notDuplicate (E : Env) (r : MemRepository) (q : Request) :
    NotDuplicate (q.run E r).1 := by
  rw [run_eq]
  have hplanned := plan_notDuplicate E q
  cases hplan : q.plan E with
  | error error => simpa [hplan] using hplanned
  | ok planned =>
    cases planned with
    | none => simp
    | some w =>
      intro e he
      rw [← Write.report_failingChecks hplan, report_eq_error] at he
      obtain ⟨before, after, hsplit, -⟩ := he
      have hrank : commitRank e ≤ 7 := Write.rank_failingChecks (by rw [hsplit]; simp)
      cases e <;> first | rfl | (simp [commitRank] at hrank)

end EventStore
