import EventStore.Runs.Deciding

/-!
Transactions among store operations, and with them every operation. The streams a
transaction has read follow their logs, however many calls lie between its reads and
its commit.
-/
namespace EventStore

open Result Program

variable {κ : Type} {A : κ → Aggregate} {kindOf : EntityId → κ}

namespace World

variable {ι : Type} [DecidableEq ι] {E : Env} {current : Prop} {x : ι → Operation A kindOf}
  {allowed : World ι → Ask → Prop} {i : ι} {w : World ι} {config : TransactionConfig}
  {tx : Transaction A}

/-- Aggregates loaded outside the transaction, each of its own kind and of its log. -/
def Holds (kindOf : EntityId → κ) (w : World ι) (loads : List ((kind : κ) × Loaded (A kind))) :
    Prop :=
  ∀ load ∈ loads, load.1 = kindOf load.2.entityId ∧ load.2.Of (w.log load.2.entityId)

omit [DecidableEq ι] in
theorem Holds.mono {w' : World ι} {loads : List ((kind : κ) × Loaded (A kind))}
    (h : Holds kindOf w loads) (happlied : w.applied <+: w'.applied) : Holds kindOf w' loads :=
  fun load hload => ⟨(h load hload).1, (h load hload).2.mono (logOf_mono happlied _)⟩

section Finish

variable {pending : PendingCommand}

theorem submitOutcome_operates {commit : TransactionCommit Empty} {outcome : Outcome}
    (h : (x i).Submits E current w.applied (w.started i)
      (.transaction { commit with outcome := some outcome })) :
    Operates E current x allowed i (fun _ _ => True)
      (Transaction.submitOutcome E config pending commit outcome) w := by
  refine (submit_operates h).bind fun result t ht => ?_
  split
  · exact persistRejection_operates _ _
  · exact .andThen _ (operates_quiet (quiet_settle _ _ _ _ _)) (by simp) (by simp)

theorem commitRejection_operates (rejection : Rejection) {commit : TransactionCommit Empty}
    (h : ∀ outcome, (x i).Submits E current w.applied (w.started i)
      (.transaction { commit with outcome := some outcome })) :
    Operates E current x allowed i (fun _ _ => True)
      (Transaction.commitRejection E config pending rejection commit) w :=
  .check (by simp) fun _ _ => submitOutcome_operates (h _)

theorem reject_operates (tx : Transaction A) (rejection : Rejection) :
    Operates E current x allowed i (fun _ _ => True) (tx.reject E config rejection) w :=
  .check (by simp) fun _ _ =>
    commitRejection_operates rejection fun _ => submits_bare i _ _ _ _

/-- The steps of a commit that writes the transaction's own events. -/
theorem readyPrepared_operates {β : Type} (hx : (x i).projectors = config.commitProjectors)
    (htx : tx.Follows kindOf config.commitProjectors (logOf w.applied)) (metadata : Metadata)
    {next : TransactionCommit Empty → Program (Except Error β)}
    (hnext : ∀ commit t, (∀ outcome, (x i).Submits E current t.applied (t.started i)
        (.transaction { commit with outcome })) →
      Operates E current x allowed i (fun _ _ => True) (next commit) t) :
    Operates E current x allowed i (fun _ _ => True)
      (andThen (tx.ready config) fun _ => andThen (tx.prepare config metadata) next) w := by
  refine .andThen _ (operates_quiet (quiet_ready config tx)) (by simp) fun _ t ht => ?_
  refine .andThen (fun r u => ∀ commit, r = .ok commit → ∀ outcome,
      (x i).Submits E current u.applied (u.started i) (.transaction { commit with outcome }))
    ?_ (by simp) fun commit t' ht' => hnext commit t' (ht' commit rfl)
  refine .check (by simp) fun _ _ => ?_
  refine (operates_quiet (quiet_stampCommitId metadata)).bind fun stamped t' ht' => ?_
  intro commit hbuild outcome
  have hfollows := htx.mono (logOf_mono (ht.trans ht').applied)
  exact Operation.submits_of_continues (hx ▸ hfollows.continues hbuild outcome) (by simp)

theorem rejectWithEvents_operates (hx : (x i).projectors = config.commitProjectors)
    (htx : tx.Follows kindOf config.commitProjectors (logOf w.applied)) (rejection : Rejection) :
    Operates E current x allowed i (fun _ _ => True) (tx.rejectWithEvents E config rejection) w :=
  .check (by simp) fun _ _ => readyPrepared_operates hx htx _ fun _ _ hsubmits =>
    commitRejection_operates rejection fun _ => hsubmits _

theorem commitWithOutcome_operates (hx : (x i).projectors = config.commitProjectors)
    (htx : tx.Follows kindOf config.commitProjectors (logOf w.applied))
    (response : Option Bytes) :
    Operates E current x allowed i (fun _ _ => True)
      (tx.commitWithOutcome E config response) w := by
  refine .check (by simp) fun stale _ => ?_
  cases stale with
  | some rejection => exact reject_operates tx rejection
  | none =>
    exact .check (by simp) fun _ _ => readyPrepared_operates hx htx _
      fun _ _ hsubmits => submitOutcome_operates (hsubmits _)

theorem finish_operates (hx : (x i).projectors = config.commitProjectors)
    (htx : tx.Follows kindOf config.commitProjectors (logOf w.applied)) (decision : Decision) :
    Operates E current x allowed i (fun _ _ => True) (tx.finish E config decision) w := by
  cases decision with
  | accept response => exact commitWithOutcome_operates hx htx response
  | reject rejection => exact reject_operates tx rejection
  | rejectWithEvents rejection => exact rejectWithEvents_operates hx htx rejection

theorem transactionCommit_operates (hx : (x i).projectors = config.commitProjectors)
    (htx : tx.Follows kindOf config.commitProjectors (logOf w.applied)) (metadata : Metadata) :
    Operates E current x allowed i (fun _ _ => True) (tx.commit config metadata) w :=
  .check (by simp) fun _ _ => readyPrepared_operates hx htx metadata
    fun commit _ hsubmits => .andThen _ (submit_operates (hsubmits commit.outcome)) (by simp)
      (by simp)

end Finish

section Prepare

variable (hA : ∀ kind, (A kind).RoundTrips)
  (hallowed : current → ∀ (w : World ι) a, allowed w a → Readable w a)

include hA hallowed

theorem read_operates (htx : tx.Follows kindOf config.commitProjectors (logOf w.applied))
    (entityId : EntityId) :
    Operates E current x allowed i (fun r u => w.applied <+: u.applied ∧
        r.2.Follows kindOf config.commitProjectors (logOf u.applied))
      (tx.read config (kindOf entityId) entityId) w := by
  unfold Transaction.read
  split
  · exact ⟨List.prefix_rfl, htx⟩
  · refine (loadWithCatchUp_operates hA hallowed entityId _).bind fun result t ht => ?_
    have htx' := htx.mono (logOf_mono ht.1)
    cases result with
    | error error => exact ⟨ht.1, htx'⟩
    | ok loaded =>
      obtain ⟨hid, hof, -⟩ := ht.2 loaded rfl
      simp only
      split
      · exact ⟨ht.1, htx'⟩
      · rename_i next hnext
        exact ⟨ht.1, htx'.readLoaded (by rw [hid]) (hid.symm ▸ hof) hnext⟩

variable [DecidableEq κ]

theorem run_operates {prepare : Prepare A} (htyped : prepare.Typed kindOf)
    {loads : List ((kind : κ) × Loaded (A kind))}
    (htx : tx.Follows kindOf config.commitProjectors (logOf w.applied))
    (hloads : Holds kindOf w loads) :
    Operates E current x allowed i
      (fun r u => r.2.Follows kindOf config.commitProjectors (logOf u.applied))
      (prepare.run config tx loads) w := by
  induction prepare generalizing tx loads w with
  | decide decision => exact htx
  | fail error => exact htx
  | read kind entityId next ih =>
    obtain ⟨rfl, htyped⟩ := htyped
    refine (read_operates hA hallowed htx entityId).bind fun result t ht => ?_
    exact ih _ (htyped _) ht.2 (hloads.mono ht.1)
  | load kind entityId next ih =>
    obtain ⟨rfl, htyped⟩ := htyped
    unfold Prepare.run
    refine (loadWithCatchUp_operates hA hallowed entityId _).bind fun result t ht => ?_
    have htx' := htx.mono (logOf_mono ht.1)
    cases result with
    | error error => exact ih _ (htyped _) htx' (hloads.mono ht.1)
    | ok loaded =>
      obtain ⟨hid, hof, -⟩ := ht.2 loaded rfl
      refine ih _ (htyped _) htx' ?_
      intro load hload
      rcases List.mem_append.mp hload with hload | hload
      · exact hloads.mono ht.1 load hload
      · obtain rfl := List.mem_singleton.mp hload
        exact ⟨by rw [hid], hid.symm ▸ hof⟩
  | readLoaded index next ih =>
    unfold Prepare.run
    split
    · exact ih _ (htyped _) htx hloads
    · rename_i kind loaded hload
      split
      · exact ih _ (htyped _) htx hloads
      · rename_i tx' hread
        obtain ⟨hkind, hof⟩ := hloads _ (List.mem_of_getElem? hload)
        exact ih _ (htyped _) (htx.readLoaded hkind hof hread) hloads
  | append kind index events next ih =>
    exact ih _ (htyped _) ((Transaction.follows_stable hA).append htx kind index events) hloads
  | fence added next ih =>
    exact ih _ (htyped _) ((Transaction.follows_stable hA).fence htx added) hloads
  | expect entityId head next ih =>
    exact ih _ (htyped _) ((Transaction.follows_stable hA).expect htx entityId head) hloads
  | consult next ih =>
    refine (operates_quiet (quiet_ask rfl)).bind fun services t ht => ?_
    exact ih services (htyped services) (htx.mono (logOf_mono ht.applied))
      (hloads.mono ht.applied)

theorem attemptTransaction_operates {pending : PendingCommand} {prepare : Prepare A}
    (hx : (x i).projectors = config.commitProjectors) (htyped : prepare.Typed kindOf) :
    Operates E current x allowed i (fun _ _ => True)
      (attemptTransaction E config pending prepare) w := by
  refine .andThen _ (operates_quiet (asks_inPhase _ (quiet_preCheck _ _))) (by simp) ?_
  intro found t _
  cases found with
  | some stored => trivial
  | none =>
    refine (run_operates hA hallowed htyped ?_ ?_).bind fun result t ht => ?_
    · intro s hs
      cases hs
    · intro load hload
      cases hload
    · obtain ⟨result, tx⟩ := result
      cases result with
      | error error => trivial
      | ok decision => exact inPhase_operates .committing (finish_operates hx ht decision)

theorem executeTransaction_operates {identity : CommandIdentity} {metadata : Metadata}
    {prepare : Prepare A} (hx : (x i).projectors = config.commitProjectors)
    (htyped : prepare.Typed kindOf) :
    Operates E current x allowed i (fun _ _ => True)
      (executeTransaction E config identity metadata prepare) w := by
  unfold executeTransaction
  split
  · trivial
  · exact .check (by simp) fun pending _ => retried_operates
      (fun w => attemptTransaction_operates hA hallowed hx htyped) _ _

/-- Every operation keeps the repository consistent, and a loaded aggregate it returns
is the fold of a prefix. -/
theorem operates (htyped : (x i).Typed) :
    Operates E current x allowed i
      (fun r u => ∀ entityId loaded, r = some ⟨entityId, loaded⟩ → loaded.Of (u.log entityId))
      ((x i).program E) w := by
  cases hx : x i with
  | load entityId threshold =>
    refine (loadWithCatchUp_operates hA hallowed entityId threshold).bind fun r u hu => ?_
    cases r with
    | error error => simp
    | ok loaded =>
      rintro _ _ ⟨⟩
      exact (hu.2 loaded rfl).prefixed
  | session entityId config commits =>
    refine (session_operates hA hallowed (by rw [hx]; rfl) commits).bind fun r u hu => ?_
    cases r with
    | error error => simp
    | ok loaded =>
      rintro _ _ ⟨⟩
      exact hu loaded rfl
  | execute entityId config command metadata =>
    refine (execute_operates hA hallowed (by rw [hx]; rfl) command metadata).bind fun r u hu => ?_
    cases r with
    | error error => simp
    | ok p =>
      rintro _ _ ⟨⟩
      exact (hu p rfl).2
  | executeWithResponse entityId config command metadata respond =>
    exact (executeWithResponse_operates hA hallowed hx).bind fun _ _ _ => by simp
  | transact config metadata prepare =>
    rw [hx] at htyped
    refine (run_operates hA hallowed htyped ?_ ?_).bind fun result t ht => ?_
    · intro s hs
      cases hs
    · intro load hload
      cases hload
    · obtain ⟨result, tx⟩ := result
      cases result with
      | error error => simp
      | ok decision =>
        exact (transactionCommit_operates (by rw [hx]; rfl) ht metadata).bind
          fun _ _ _ => by simp
  | executeTransaction config identity metadata prepare =>
    rw [hx] at htyped
    exact (executeTransaction_operates hA hallowed (by rw [hx]; rfl) htyped).bind
      fun _ _ _ => by simp
  | compact entityId through =>
    have hcall : Operates E current x allowed i (fun _ _ => True)
        (ask (.compactBelow entityId through)) w :=
      operates_ask (by simp) (by simp) (by simp) fun _ _ _ _ _ _ _ _ _ => trivial
    exact hcall.bind fun _ _ _ => by simp

/-- In every state the operations come to, the repository is consistent. -/
theorem consistent_of_reaches (htyped : ∀ i, (x i).Typed)
    {threads : ι → Program (Option ((entityId : EntityId) × Loaded (A (kindOf entityId))))}
    (hreach : Pool.Reaches (ActsWhen E allowed) (Moves E noOne)
      (World.start .empty, fun i => (x i).program E) (w, threads)) :
    w.Consistent E current x ∧ ∀ i, Operates E current x allowed i
      (fun r u => ∀ entityId loaded, r = some ⟨entityId, loaded⟩ → loaded.Of (u.log entityId))
      (threads i) w := by
  refine Pool.safe_of_reaches (fun i w => .refl i w) (fun i s t u hst htu => hst.trans htu)
    (fun i r s t h hgrows entityId loaded hr => (h entityId loaded hr).mono (hgrows.log entityId))
    (fun i s t _ h => ⟨h.consistent, fun j hj => ⟨h.applied, h.others j hj⟩⟩)
    (fun s t hs h => h.advances hs) hreach (consistent_start E current x) fun i => ?_
  exact operates hA hallowed (htyped i)

end Prepare

end World

end EventStore
