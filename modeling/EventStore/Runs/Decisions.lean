import EventStore.Runs.Executions

/-!
Transactions and executions in a race for one command ID. A transaction commits its
streams in the order the repository persists them, so the event IDs it reports are
those of the stored row.
-/
namespace EventStore

open Result Program

variable {outcome : Outcome}

/-- A transaction already in persisted order keeps the order of its event IDs. -/
theorem storedOutcome_of_sorted {t : TransactionCommit Empty}
    (hwritten : ∀ c ∈ t.streams, c.events ≠ [])
    (hsorted : t.streams.Pairwise fun a b => a.entityId ≤ b.entityId)
    (houtcome : t.outcome = some outcome) :
    (Request.transaction t).storedOutcome =
      some (outcome.stored ((t.streams.flatMap (·.events)).map (·.id))) := by
  obtain ⟨-, hstreams⟩ := TransactionCommit.streams_normalized hwritten hsorted
  simp only [Request.storedOutcome, TransactionCommit.storedOutcome, hstreams]
  simp only [TransactionCommit.normalized, houtcome, Option.map_some, List.flatMap_map,
    List.map_flatMap]

variable {commit : TransactionCommit Empty}

namespace Transaction

variable {κ : Type} {A : κ → Aggregate}

/-- What a transaction's own commit stores as its outcome row. -/
theorem storedOutcome_of_build {config : TransactionConfig} {tx : Transaction A}
    {stamped : Metadata} (h : tx.build config stamped = .ok commit) :
    (Request.transaction { commit with outcome := some outcome }).storedOutcome =
      some (outcome.stored ((commit.streams.flatMap (·.events)).map (·.id))) := by
  obtain ⟨hstreams, -⟩ := build_ok h
  refine storedOutcome_of_sorted ?_ ?_ rfl
  · intro c hc
    simp only [hstreams, List.mem_map] at hc
    obtain ⟨stream, hstream, rfl⟩ := hc
    simp [streamCommit, stampedEvents, (mem_written.mp hstream).2]
  · simp only [hstreams]
    exact List.pairwise_map.mpr tx.written_sorted

end Transaction

def Prepare.Honest {κ : Type} {A : κ → Aggregate} : Prepare A → Prop
  | .decide _ => True
  | .fail error => error.isDuplicateCommand = false
  | .read _ _ next | .load _ _ next => ∀ result, NotDuplicate result → (next result).Honest
  | .readLoaded _ next | .append _ _ _ next | .fence _ next | .expect _ _ next =>
    ∀ result, NotDuplicate result → (next result).Honest
  | .consult next => ∀ services, (next services).Honest

namespace World

variable {ι : Type} [DecidableEq ι] {E : Env} {id : CommandId} {permitted : Outcome → Prop}
  {allowed : World ι → Ask → Prop} {i : ι} {plain : Prop} {w : World ι}
variable {pending : PendingCommand} {κ : Type} {A : κ → Aggregate} {config : TransactionConfig}

variable (id allowed pending) in
structure Begun (tx : Transaction A) : Prop where
  command : tx.command = some pending
  unseen : Unseen id allowed → tx.Unseen id

theorem submitOutcome_races (hp : Enters id permitted pending)
    (hstored : (Request.transaction { commit with outcome := some outcome }).storedOutcome =
      some (outcome.stored ((commit.streams.flatMap (·.events)).map (·.id))))
    (hid : outcome.commandId = pending.commandId) (hdigest : outcome.digest = pending.digest)
    (hb : w.refused i = false) :
    Races E id permitted allowed i
      (fun r => Answered id permitted plain i pending.digest (r.map (·.outcome)))
      (Transaction.submitOutcome E config pending commit outcome) w := by
  refine (submit_races pending.digest (hp.records rfl hid hdigest) fun _ => hb).bind
    fun result t ht => ?_
  split
  · refine persistRejection_races hp _ _ fun hagreed => ?_
    rw [Bool.eq_false_iff]
    intro hr
    obtain ⟨c, hc⟩ := ht.refused hagreed hr
    cases hc
  · rw [hp.commandId]
    have hrow : result = .ok () → t.row id =
        some (outcome.stored ((commit.streams.flatMap (·.events)).map (·.id))) := by
      intro hok
      have := ht.row _ hok hstored
      rwa [Outcome.stored_commandId, hid, hp.commandId] at this
    refine .andThen (fun r => Answered id permitted plain i pending.digest
      (r.map (settledRow _))) (settle_races hp.valid _ hrow ht.refused ht.unique) ?_ ?_
    · exact fun e t h => h
    · intro settled t h
      cases settled <;> exact h

theorem commitRejection_races (hp : Enters id permitted pending) (rejection : Rejection)
    (hstored : ∀ outcome, (Request.transaction
        { commit with outcome := some outcome }).storedOutcome =
      some (outcome.stored ((commit.streams.flatMap (·.events)).map (·.id))))
    (hb : w.refused i = false) :
    Races E id permitted allowed i
      (fun r => Answered id permitted plain i pending.digest (r.map (·.outcome)))
      (Transaction.commitRejection E config pending rejection commit) w := by
  refine .check (fun e he => ?_) fun canonical _ => ?_
  · exact answered_early hb (canonical_notDuplicate E rejection e he)
  · exact submitOutcome_races hp (hstored _) rfl rfl hb

theorem reject_races (hp : Enters id permitted pending) (hplain : plain → Unseen id allowed)
    {tx : Transaction A} (htx : Begun id allowed pending tx) (rejection : Rejection)
    (hb : w.refused i = false) :
    Races E id permitted allowed i
      (fun r => Answered id permitted plain i pending.digest (r.map (·.outcome)))
      (tx.reject E config rejection) w := by
  refine .check (fun e he => ?_) fun taken htaken => ?_
  · refine ⟨by simp [Except.map], fun h => ?_, fun _ hr => by simp [hb] at hr⟩
    have hunseen := htx.unseen (hplain h)
    rw [← hp.commandId] at hunseen
    simpa using Transaction.checkRecordable_notDuplicate htx.command hunseen e he
  · obtain rfl : pending = taken := by
      simpa [htx.command] using Transaction.checkRecordable_ok htaken
    exact commitRejection_races hp rejection (fun outcome => rfl) hb

theorem ready_races (tx : Transaction A) {b : Bool} (hb : w.refused i = b) :
    Races E id permitted allowed i (fun r u => u.refused i = b ∧ NotDuplicate r)
      (tx.ready config) w := by
  unfold Transaction.ready
  split
  · exact readyProjectors_races _ hb
  · exact ⟨hb, by simp⟩

/-- Building the commit of a transaction, on the command's own metadata. -/
theorem prepare_races (hmetadata : pending.metadata.commandId = some id) {tx : Transaction A}
    (htx : Begun id allowed pending tx) (hb : w.refused i = false) :
    Races E id permitted allowed i
      (fun r u => u.refused i = false ∧ (Unseen id allowed → NotDuplicate r) ∧
        ∀ commit, r = .ok commit → ∀ outcome, (Request.transaction
            { commit with outcome := some outcome }).storedOutcome =
          some (outcome.stored ((commit.streams.flatMap (·.events)).map (·.id))))
      (tx.prepare config pending.metadata) w := by
  refine .check (fun e he => ?_) fun _ _ => ?_
  · refine ⟨hb, fun _ => ?_, by simp⟩
    obtain ⟨-, rfl⟩ := refuse_eq_error.mp he
    simp [Error.isDuplicateCommand]
  · have hquiet := (quiet_stampCommitId pending.metadata).mono fun _ => Ask.ne_submit_of_quiet
    refine ((races_quiet hquiet hb).yields
      (stampCommitId_yields pending.metadata)).bind fun stamped t ht => ?_
    refine ⟨ht.1, fun hunseen => ?_, ?_⟩
    · refine Transaction.build_notDuplicate fun c hc => ?_
      obtain rfl : id = c := by simpa [ht.2, hmetadata] using hc
      exact htx.unseen hunseen
    · exact fun commit hcommit outcome => Transaction.storedOutcome_of_build hcommit

/-- The steps of a commit that writes the transaction's own events. -/
theorem readyPrepared_races (hmetadata : pending.metadata.commandId = some id)
    (hplain : plain → Unseen id allowed)
    {tx : Transaction A} (htx : Begun id allowed pending tx) (hb : w.refused i = false)
    {next : TransactionCommit Empty → Program (Except Error (CommandOutcome Unit))}
    (hnext : ∀ commit t, t.refused i = false →
      (∀ outcome, (Request.transaction { commit with outcome := some outcome }).storedOutcome =
        some (outcome.stored ((commit.streams.flatMap (·.events)).map (·.id)))) →
      Races E id permitted allowed i
        (fun r => Answered id permitted plain i pending.digest (r.map (·.outcome)))
        (next commit) t) :
    Races E id permitted allowed i
      (fun r => Answered id permitted plain i pending.digest (r.map (·.outcome)))
      (andThen (tx.ready config) fun _ => andThen (tx.prepare config pending.metadata) next) w := by
  refine .andThen _ (ready_races tx hb) ?_ ?_
  · exact fun e t h => answered_early h.1 (by simpa using h.2)
  · intro _ t h
    refine .andThen _ (prepare_races hmetadata htx h.1) ?_ ?_
    · refine fun e t h => ⟨by simp [Except.map], fun hp => ?_, fun _ hr => by simp [h.1] at hr⟩
      simpa using h.2.1 (hplain hp)
    · exact fun commit t h => hnext commit t h.1 (h.2.2 commit rfl)

section Ending

variable (hp : Enters id permitted pending) (hmetadata : pending.metadata.commandId = some id)
  (hplain : plain → Unseen id allowed) {tx : Transaction A} (htx : Begun id allowed pending tx)
  (hb : w.refused i = false)

include hp hmetadata hplain htx hb

theorem rejectWithEvents_races (rejection : Rejection) :
    Races E id permitted allowed i
      (fun r => Answered id permitted plain i pending.digest (r.map (·.outcome)))
      (tx.rejectWithEvents E config rejection) w := by
  refine .check (fun e he => ?_) fun taken htaken => ?_
  · exact answered_early hb (Transaction.takeCommand_notDuplicate config tx e he)
  · obtain rfl : pending = taken := by simpa [htx.command] using Transaction.takeCommand_ok htaken
    refine readyPrepared_races hmetadata hplain htx hb fun commit t ht hstored => ?_
    exact commitRejection_races hp rejection hstored ht

theorem commitWithOutcome_races (response : Option Bytes) :
    Races E id permitted allowed i
      (fun r => Answered id permitted plain i pending.digest (r.map (·.outcome)))
      (tx.commitWithOutcome E config response) w := by
  refine .check (fun e he => ?_) fun stale _ => ?_
  · refine ⟨by simp [Except.map], fun h => ?_, fun _ hr => by simp [hb] at hr⟩
    have hunseen := htx.unseen (hplain h)
    rw [← hp.commandId] at hunseen
    simpa using Transaction.staleRejection_notDuplicate htx.command hunseen e he
  · cases stale with
    | some rejection => exact reject_races hp hplain htx rejection hb
    | none =>
      refine .check (fun e he => ?_) fun taken htaken => ?_
      · exact answered_early hb (Transaction.takeCommand_notDuplicate config tx e he)
      · obtain rfl : pending = taken := by
          simpa [htx.command] using Transaction.takeCommand_ok htaken
        refine readyPrepared_races hmetadata hplain htx hb fun commit t ht hstored => ?_
        cases response <;> exact submitOutcome_races hp (hstored _) rfl rfl ht

theorem finish_races (decision : Decision) :
    Races E id permitted allowed i
      (fun r => Answered id permitted plain i pending.digest (r.map (·.outcome)))
      (tx.finish E config decision) w := by
  cases decision with
  | accept response => exact commitWithOutcome_races hp hmetadata hplain htx hb response
  | reject rejection => exact reject_races hp hplain htx rejection hb
  | rejectWithEvents rejection => exact rejectWithEvents_races hp hmetadata hplain htx hb rejection

end Ending

section Prepare

variable {tx tx' : Transaction A}

omit [DecidableEq ι]

theorem Begun.readLoaded {kind : κ} {loaded : Loaded (A kind)} (h : Begun id allowed pending tx)
    (hloaded : Unseen id allowed → id ∉ loaded.seenCommandIds)
    (hread : tx.readLoaded loaded = .ok tx') : Begun id allowed pending tx' := by
  simp only [Transaction.readLoaded, seq_eq_ok] at hread
  obtain ⟨-, -, hread⟩ := hread
  cases hread
  refine ⟨h.command, fun hunseen stream hmem => ?_⟩
  rcases List.mem_append.mp hmem with hmem | hmem
  · exact h.unseen hunseen stream hmem
  · obtain rfl := List.mem_singleton.mp hmem
    exact hloaded hunseen

variable (config) in
theorem begun_stable : Transaction.Stable config (Begun (A := A) id allowed pending) where
  same h hcommand hstreams :=
    ⟨hcommand.trans h.command, fun hunseen stream hmem => h.unseen hunseen stream (hstreams ▸ hmem)⟩
  stages {_ _ stream _ _} h hindex hstages := by
    refine ⟨h.command, fun hunseen other hmem => ?_⟩
    rcases List.mem_or_eq_of_mem_set hmem with hmem | rfl
    · exact h.unseen hunseen other hmem
    · cases hstages
      exact h.unseen hunseen stream (List.mem_of_getElem? hindex)

end Prepare

theorem read_races {tx : Transaction A} (htx : Begun id allowed pending tx) (kind : κ)
    (entityId : EntityId) (hb : w.refused i = false) :
    Races E id permitted allowed i
      (fun r u => u.refused i = false ∧ Begun id allowed pending r.2 ∧ NotDuplicate r.1)
      (tx.read config kind entityId) w := by
  unfold Transaction.read
  split
  · rename_i error h
    have hchecks : NotDuplicate (do tx.checkOpen; tx.checkUnread entityId : Except Error Unit) := by
      simp
    exact ⟨hb, htx, by simpa using hchecks error h⟩
  · refine (loadWithCatchUp_races (A kind) entityId _ hb).bind fun result t ht => ?_
    cases result with
    | error error => exact ⟨ht.refused, ⟨htx.command, htx.unseen⟩, by simpa using ht.unique⟩
    | ok loaded =>
      simp only
      split
      · rename_i error h
        exact ⟨ht.refused, htx, by simpa using tx.readLoaded_notDuplicate loaded error h⟩
      · rename_i tx' h
        exact ⟨ht.refused, htx.readLoaded (fun hunseen => ht.unseen hunseen loaded rfl) h, by simp⟩

variable [DecidableEq κ]

theorem run_races {prepare : Prepare A} (hhonest : plain → prepare.Honest) {tx : Transaction A}
    {loads : List ((kind : κ) × Loaded (A kind))} (htx : Begun id allowed pending tx)
    (hloads : ∀ load ∈ loads, Unseen id allowed → id ∉ load.2.seenCommandIds)
    (hb : w.refused i = false) :
    Races E id permitted allowed i
      (fun r u => u.refused i = false ∧ Begun id allowed pending r.2 ∧
        (plain → NotDuplicate r.1))
      (prepare.run config tx loads) w := by
  induction prepare generalizing tx loads w with
  | decide decision => exact ⟨hb, htx, fun _ => by simp⟩
  | fail error => exact ⟨hb, htx, fun hp => avoids_error.mpr (hhonest hp)⟩
  | read kind entityId next ih =>
    refine (read_races htx kind entityId hb).bind fun result t ht => ?_
    exact ih _ (fun hp => hhonest hp _ ht.2.2) ht.2.1 hloads ht.1
  | load kind entityId next ih =>
    unfold Prepare.run
    refine (loadWithCatchUp_races (A kind) entityId _ hb).bind fun result t ht => ?_
    cases result with
    | error error =>
      exact ih _ (fun hp => hhonest hp _ (by simpa using ht.unique)) htx hloads ht.refused
    | ok loaded =>
      refine ih _ (fun hp => hhonest hp _ (by simp)) htx ?_ ht.refused
      simp only [List.forall_mem_append, List.forall_mem_singleton]
      exact ⟨hloads, fun hunseen => ht.unseen hunseen loaded rfl⟩
  | readLoaded index next ih =>
    unfold Prepare.run
    split
    · exact ih _ (fun hp => hhonest hp _ (by simp [Error.isDuplicateCommand])) htx hloads hb
    · rename_i kind loaded hload
      split
      · rename_i error h
        refine ih _ (fun hp => hhonest hp _ ?_) htx hloads hb
        simpa using tx.readLoaded_notDuplicate loaded error h
      · rename_i tx' h
        refine ih _ (fun hp => hhonest hp _ (by simp)) (htx.readLoaded ?_ h) hloads hb
        exact hloads _ (List.mem_of_getElem? hload)
  | append kind index events next ih =>
    exact ih _ (fun hp => hhonest hp _ (tx.append_notDuplicate config kind index events))
      ((begun_stable config).append htx kind index events) hloads hb
  | fence added next ih =>
    exact ih _ (fun hp => hhonest hp _ (tx.fence_notDuplicate added))
      ((begun_stable config).fence htx added) hloads hb
  | expect entityId head next ih =>
    exact ih _ (fun hp => hhonest hp _ (tx.expect_notDuplicate config entityId head))
      ((begun_stable config).expect htx entityId head) hloads hb
  | consult next ih =>
    refine (races_quiet (asks_ask (by simp)) hb).bind fun services t ht => ?_
    exact ih services (fun hp => hhonest hp services) htx hloads ht

theorem attemptTransaction_races (hp : Enters id permitted pending)
    (hmetadata : pending.metadata.commandId = some id) (hplain : plain → Unseen id allowed)
    {prepare : Prepare A} (hhonest : plain → prepare.Honest) :
    Races E id permitted allowed i
      (fun r => Answered id permitted plain i pending.digest (reported r))
      (attemptTransaction E config pending prepare) w := by
  unfold attemptTransaction
  rw [hp.commandId]
  refine .andThen _ (safe_inPhase .deciding (preCheck_races hp.valid)) ?_ ?_
  · exact fun e t h => answered_error (by simpa using h.unique) fun hagreed hr =>
      h.settled hagreed hr _ rfl
  · intro found t h
    cases found with
    | some stored => exact answered_ok (h.found stored rfl).1
    | none =>
      have hnew : Begun id allowed pending
          ({ Transaction.new with command := some pending } : Transaction A) :=
        ⟨rfl, fun _ stream hmem => by cases hmem⟩
      refine (run_races hhonest hnew (by simp) (h.absent rfl)).bind fun result t ht => ?_
      obtain ⟨result, tx⟩ := result
      cases result with
      | error error =>
        refine ⟨by simp [reported], fun hp => ?_, fun _ hr => by simp [ht.1] at hr⟩
        simpa [reported] using ht.2.2 hp
      | ok decision =>
        exact inPhase_races .committing (finish_races hp hmetadata hplain ht.2.1 ht.1 decision)

end World

end EventStore
