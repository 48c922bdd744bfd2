import EventStore.Runs.Attempts
import EventStore.Runs.Schedule

/-!
The attempts of the two executions that record outcomes. A rejection is recorded only when it was
decided, when a caller's fence or an expected head was stale, when no attempt was left after a
stale commit, or when a journal row was too large.
-/
namespace EventStore

open Result Program

variable {rejection : Rejection} {outcome : Outcome}

section Parts

variable {ε : Type} {E : Env} {trace : Trace} {fenced : Outcome → Prop}

theorem unsubmitted_load {A : Aggregate} {entityId : EntityId} {threshold : Nat}
    {r : Except Error (Loaded A)} (h : (loadWithCatchUp A entityId threshold).Runs trace r) :
    Unsubmitted trace :=
  fun x hx => (asks_load (P := fun a => ∀ q, a ≠ .submit q) (fun _ => Ask.ne_submit_of_ofLoad)
    A entityId threshold).of_runs h x hx

theorem submitSettled_submission {q : Request} {stored : Outcome} {events : List SerializedEvent}
    {typedEvents : List ε} {window : Nat} {r : Except Error (CommandOutcome ε)}
    (hq : q.outcome = some outcome)
    (h : (submitSettled E q stored events typedEvents window).Runs trace r) :
    Submission (fun _ o => o = outcome) fenced trace := by
  obtain ⟨answer, rest, rfl, hrest⟩ := h
  have hquiet : Program.Quiet (andThen (settle E stored.commandId stored.digest window answer)
      fun settled => .done (.ok (CommandOutcome.ofSettled stored events typedEvents settled))) :=
    .andThen (quiet_settle _ _ _ _ _) fun _ => trivial
  exact .once unsubmitted_nil (.of_quiet hquiet hrest) hq rfl

theorem persistRejection_runs {pending : PendingCommand} {window : Nat}
    {r : Except Error (CommandOutcome ε)}
    (h : (persistRejection E pending window rejection).Runs trace r) :
    trace = [] ∨ ∃ canonical q answer rest, rejection.canonical E = .ok canonical ∧
      q.outcome = some (pending.rejected canonical) ∧
      trace = ⟨.submit q, answer⟩ :: rest ∧ Unsubmitted rest := by
  rcases runs_check h with ⟨e, -, rfl, -⟩ | ⟨canonical, hcanonical, h⟩
  · exact .inl rfl
  · obtain ⟨answer, rest, rfl, hrest⟩ := h
    refine .inr ⟨canonical, _, answer, rest, hcanonical, rfl, rfl, ?_⟩
    refine .of_quiet (.andThen (quiet_settle _ _ _ _ _) fun settled => ?_) hrest
    trivial

end Parts

section Single

variable {A : Aggregate} {E : Env} {config : StoreConfig A} {outcomes : OutcomeConfig}
  {pending : PendingCommand} {trace : Trace} {r : Except Failed (CommandOutcome A.Event)}
  {fenced : Outcome → Prop}

theorem record_submission {commit : Commit Empty} {typedEvents : List A.Event}
    (h : (StoreConfig.record E outcomes commit outcome typedEvents).Runs trace r) :
    Submission (fun _ o => o = outcome) fenced trace := by
  obtain ⟨r, hr⟩ := runs_inPhase h
  have hq : (Request.commit { commit with outcome := some outcome }).outcome =
      some outcome := rfl
  exact submitSettled_submission hq hr

theorem recordEvents_submission {loaded : Loaded A} {events : List A.Event}
    {outcome : A.State → Except Error Outcome}
    (h : (config.recordEvents E outcomes pending loaded events outcome).Runs trace r) :
    Submission (fun _ o => ∃ state, outcome state = .ok o) fenced trace := by
  rcases runs_andThen h with ⟨e, h, -⟩ | ⟨before, after, ready, rfl, hready, h⟩
  · exact .silent (.of_quiet (asks_inPhase _ (quiet_readyProjectors _)) h)
  refine .prepend (.of_quiet (asks_inPhase _ (quiet_readyProjectors _)) hready) ?_
  obtain ⟨stamp, after, metadata, rfl, hstamp, h⟩ := Script.runs_bind.mp h
  refine .prepend (.of_quiet (quiet_stampCommitId _) hstamp) ?_
  rcases runs_check h with ⟨e, -, rfl, -⟩ | ⟨staged, -, h⟩
  · exact .silent unsubmitted_nil
  rcases runs_check h with ⟨e, -, rfl, -⟩ | ⟨o, ho, h⟩
  · exact .silent unsubmitted_nil
  refine (record_submission h).mono fun before o' heq => ?_
  rw [heq]
  exact ⟨_, internally_eq_ok.mp ho⟩

theorem attemptRejected_submission {loaded : Loaded A} {failure : A.Failure}
    (h : (config.attemptRejected E outcomes pending loaded failure).Runs trace r) :
    Submission (fun _ o => ∃ rejection canonical, A.toRejection failure = some rejection ∧
      rejection.canonical E = .ok canonical ∧ o = pending.rejected canonical) fenced trace := by
  unfold StoreConfig.attemptRejected at h
  split at h
  · obtain ⟨rfl, -⟩ := h
    exact .silent unsubmitted_nil
  · rename_i rejection hrejection
    rcases runs_check h with ⟨e, -, rfl, -⟩ | ⟨canonical, hcanonical, h⟩
    · exact .silent unsubmitted_nil
    have hcanonical := internally_eq_ok.mp hcanonical
    simp only at h
    split at h
    · exact (record_submission h).mono fun before o heq =>
        ⟨rejection, canonical, hrejection, hcanonical, heq⟩
    · refine (recordEvents_submission h).mono ?_
      rintro before o ⟨state, ⟨⟩⟩
      exact ⟨rejection, canonical, hrejection, hcanonical, rfl⟩

variable {respond : A.State → List A.Event → Except String (Option Bytes)}

theorem acceptedOutcome_status {state : A.State} {events : List A.Event}
    (h : StoreConfig.acceptedOutcome pending respond state events = .ok outcome) :
    outcome.status = .accepted := by
  unfold StoreConfig.acceptedOutcome at h
  split at h <;> cases h <;> rfl

theorem attemptAccepted_submission {loaded : Loaded A} {events : List A.Event}
    (h : (config.attemptAccepted E outcomes pending respond loaded events).Runs trace r) :
    Submission (fun _ o => o.status = .accepted) fenced trace := by
  unfold StoreConfig.attemptAccepted at h
  split at h
  · rcases runs_check h with ⟨e, -, rfl, -⟩ | ⟨outcome, houtcome, h⟩
    · exact .silent unsubmitted_nil
    refine (record_submission h).mono fun before o ho => ?_
    rw [ho]
    exact acceptedOutcome_status (internally_eq_ok.mp houtcome)
  · refine (recordEvents_submission h).mono ?_
    rintro before outcome ⟨state, houtcome⟩
    exact acceptedOutcome_status houtcome

/-- The outcome is what the handler decided, run once on the loaded state. -/
def StoreConfig.Handled (config : StoreConfig A) (E : Env) (pending : PendingCommand)
    (entityId : EntityId) (command : A.Command) (before : Trace) (outcome : Outcome) : Prop :=
  ∃ loading loaded services, loading ++ [⟨.consult, services⟩] <:+: before ∧
    (loadWithCatchUp A entityId config.catchUpThreshold).Runs loading (.ok loaded) ∧
    ((∃ events, A.handle loaded.aggregate command services = .ok events ∧
        outcome.status = .accepted) ∨
      ∃ failure rejection canonical,
        A.handle loaded.aggregate command services = .error failure ∧
        A.toRejection failure = some rejection ∧ rejection.canonical E = .ok canonical ∧
        outcome = pending.rejected canonical)

theorem attemptWithResponse_submission {entityId : EntityId} {command : A.Command}
    (h : (config.attemptWithResponse E outcomes pending respond entityId command).Runs trace r) :
    Submission (config.Handled E pending entityId command) fenced trace := by
  have hcheck : (inPhase .deciding (preCheck pending.commandId pending.digest)).Quiet :=
    asks_inPhase _ (quiet_preCheck _ _)
  rcases runs_andThen h with ⟨e, hbefore, -⟩ | ⟨before, rest, found, rfl, hbefore, hfound⟩
  · exact .silent (.of_quiet hcheck hbefore)
  refine .prepend (.of_quiet hcheck hbefore) ?_
  cases found with
  | some stored =>
    obtain ⟨rfl, -⟩ := hfound
    exact .silent unsubmitted_nil
  | none =>
    rcases runs_andThen hfound with
      ⟨e, hloading, -⟩ | ⟨loading, rest, loaded, rfl, hloading, hloaded⟩
    · obtain ⟨r, hr⟩ := runs_inPhase hloading
      exact .silent (unsubmitted_load hr)
    have hloading := runs_inPhase_ok hloading
    refine .prepend (unsubmitted_load hloading) ?_
    split at hloaded
    · obtain ⟨rfl, -⟩ := hloaded
      exact .silent unsubmitted_nil
    obtain ⟨services, rest, rfl, hhandle⟩ := hloaded
    have hconsult : Unsubmitted [⟨.consult, services⟩] := by simp [Unsubmitted]
    refine .prepend hconsult ?_
    have hinfix : ∀ middle : Trace, loading ++ [⟨.consult, services⟩] <:+:
        before ++ (loading ++ ([⟨.consult, services⟩] ++ middle)) :=
      fun middle => ⟨before, middle, by simp⟩
    simp only [Script.done_bind] at hhandle
    split at hhandle
    · rename_i failure hfailure
      refine (attemptRejected_submission hhandle).mono ?_
      rintro middle outcome ⟨rejection, canonical, hrejection, hcanonical, rfl⟩
      exact ⟨loading, loaded, services, hinfix middle, hloading,
        .inr ⟨failure, rejection, canonical, hfailure, hrejection, hcanonical, rfl⟩⟩
    · rename_i events hevents
      refine (attemptAccepted_submission hhandle).mono fun middle outcome haccepted => ?_
      exact ⟨loading, loaded, services, hinfix middle, hloading,
        .inl ⟨events, hevents, haccepted⟩⟩

section Counting

def Ask.ofRecording : Ask → Bool
  | .declareHistory _ | .generate | .submit _ | .outcomeWithin _ => true
  | _ => false

variable {P : Ask → Prop} (hP : ∀ a : Ask, a.ofRecording = true → P a)

include hP

theorem asks_record (commit : Commit Empty) (outcome : Outcome) (typedEvents : List A.Event) :
    (StoreConfig.record E outcomes commit outcome typedEvents).Asks P := by
  refine asks_inPhase _ ((asks_ask (hP _ rfl)).bind fun answer => ?_)
  exact .andThen (asks_settle (hP _ rfl) _ _ _ _) fun _ => trivial

theorem asks_recordEvents (loaded : Loaded A) (events : List A.Event)
    (outcome : A.State → Except Error Outcome) :
    (config.recordEvents E outcomes pending loaded events outcome).Asks P := by
  refine .andThen (asks_inPhase _ (asks_readyProjectors (fun _ => hP _ rfl) _)) fun _ => ?_
  refine (asks_stampCommitId (hP _ rfl) _).bind fun metadata => ?_
  exact .check fun staged _ => .check fun outcome _ => asks_record hP _ _ _

theorem asks_attemptRejected (loaded : Loaded A) (failure : A.Failure) :
    (config.attemptRejected E outcomes pending loaded failure).Asks P := by
  unfold StoreConfig.attemptRejected
  split
  · trivial
  · refine .check fun canonical _ => ?_
    simp only
    split
    · exact asks_record hP _ _ _
    · exact asks_recordEvents hP _ _ _

theorem asks_attemptAccepted (loaded : Loaded A) (events : List A.Event) :
    (config.attemptAccepted E outcomes pending respond loaded events).Asks P := by
  unfold StoreConfig.attemptAccepted
  split
  · exact .check fun outcome _ => asks_record hP _ _ _
  · exact asks_recordEvents hP _ _ _

end Counting

def Ask.isConsult : Ask → Bool
  | .consult => true
  | _ => false

theorem Ask.isConsult_of_ofLoad {a : Ask} (h : a.ofLoad = true) : a.isConsult = false := by
  cases a <;> first | rfl | cases h

theorem Ask.isConsult_of_ofRecording {a : Ask} (h : a.ofRecording = true) :
    a.isConsult = false := by
  cases a <;> first | rfl | cases h

theorem attemptWithResponse_atMost (entityId : EntityId) (command : A.Command) :
    (config.attemptWithResponse E outcomes pending respond entityId command).AsksAtMost
      Ask.isConsult 1 := by
  have hcheck : (preCheck pending.commandId pending.digest).Asks fun a => a.isConsult = false :=
    asks_preCheck (P := fun a => a.isConsult = false) rfl _
  have hload : (loadWithCatchUp A entityId config.catchUpThreshold).Asks
      fun a => a.isConsult = false := asks_load (fun _ => Ask.isConsult_of_ofLoad) _ _ _
  refine (atMost_andThen (n := 1) (asks_inPhase _ hcheck).atMost fun found => ?_).mono (by omega)
  cases found with
  | some stored => exact .done _ 1 _
  | none =>
    refine (atMost_andThen (n := 1) (asks_inPhase _ hload).atMost fun loaded => ?_).mono (by omega)
    split
    · exact .done _ 1 _
    refine ((Script.AsksAtMost.ask _ _).bind (n := 0) fun services => ?_).mono (by omega)
    split
    · exact (asks_attemptRejected (fun _ => Ask.isConsult_of_ofRecording) _ _).atMost
    · exact (asks_attemptAccepted (fun _ => Ask.isConsult_of_ofRecording) _ _).atMost

end Single

section Transactions

variable {κ : Type} {A : κ → Aggregate} {E : Env} {config : TransactionConfig}
  {pending : PendingCommand} {tx : Transaction A} {trace : Trace}
  {r : Except Error (CommandOutcome Unit)}

namespace Transaction

structure Begun (pending : PendingCommand) (tx : Transaction A) : Prop where
  command : tx.command = some pending
  distinct : (tx.streams.map (·.entityId)).Nodup

theorem Begun.start (pending : PendingCommand) :
    Begun pending ({ Transaction.new with command := some pending } : Transaction A) :=
  ⟨rfl, List.nodup_nil⟩

theorem Begun.readLoaded {kind : κ} {loaded : Loaded (A kind)} {tx' : Transaction A}
    (h : tx.Begun pending) (hread : tx.readLoaded loaded = .ok tx') : tx'.Begun pending := by
  simp only [Transaction.readLoaded, seq_eq_ok, checkUnread, refuse_eq_ok] at hread
  obtain ⟨-, hunread, ⟨⟩⟩ := hread
  refine ⟨h.command, ?_⟩
  simp only [List.map_append, List.map_cons, List.map_nil]
  refine List.nodup_append.mpr ⟨h.distinct, by simp, fun id hid id' hid' heq => hunread ?_⟩
  obtain ⟨stream, hstream, rfl⟩ := List.mem_map.mp hid
  rw [List.mem_singleton] at hid'
  exact List.any_eq_true.mpr ⟨stream, hstream, beq_iff_eq.mpr (heq.trans hid')⟩

theorem Begun.read (h : tx.Begun pending) (kind : κ) (entityId : EntityId) :
    (tx.read config kind entityId).Yields fun result => result.2.Begun pending := by
  unfold Transaction.read
  split
  · exact h
  · refine (Script.yields_of_forall (R := fun _ => True) (fun _ => trivial) _).bind
      fun result _ => ?_
    cases result with
    | error error => exact ⟨h.command, h.distinct⟩
    | ok loaded =>
      simp only
      split
      · exact h
      · rename_i hread
        exact h.readLoaded hread

theorem map_entityId_set {streams : List (StreamState A)} {index : Nat}
    {stream stream' : StreamState A} (hindex : streams[index]? = some stream)
    (heq : stream'.entityId = stream.entityId) :
    (streams.set index stream').map (·.entityId) = streams.map (·.entityId) := by
  obtain ⟨hlt, rfl⟩ := List.getElem?_eq_some_iff.mp hindex
  have hset := List.set_getElem_self
    (show index < (streams.map (·.entityId)).length by simpa using hlt)
  rw [List.getElem_map] at hset
  rw [List.map_set, heq, hset]

theorem begun_stable (config : TransactionConfig) (pending : PendingCommand) :
    Stable config (Begun (A := A) pending) where
  same h hcommand hstreams := ⟨hcommand.trans h.command, hstreams ▸ h.distinct⟩
  stages h hindex hstages := by
    refine ⟨h.command, ?_⟩
    simp only
    rw [map_entityId_set hindex (by cases hstages; rfl)]
    exact h.distinct

variable [DecidableEq κ]

theorem Begun.run (h : tx.Begun pending) (prepare : Prepare A)
    (loads : List ((kind : κ) × Loaded (A kind))) :
    (prepare.run config tx loads).Yields fun result => result.2.Begun pending := by
  induction prepare generalizing tx loads with
  | decide decision | fail error => exact h
  | read kind entityId next ih =>
    exact (h.read kind entityId).bind fun result hresult => ih _ hresult loads
  | load kind entityId next ih =>
    simp only [Prepare.run]
    refine (Script.yields_of_forall (R := fun _ => True) (fun _ => trivial) _).bind
      fun result _ => ?_
    cases result with
    | error error => exact ih _ h _
    | ok loaded => exact ih _ h _
  | readLoaded index next ih =>
    simp only [Prepare.run]
    split
    · exact ih _ h _
    · split
      · exact ih _ h _
      · rename_i hread
        exact ih _ (h.readLoaded hread) _
  | append kind index events next ih =>
    exact ih _ ((begun_stable config _).append h kind index events) _
  | fence added next ih => exact ih _ ((begun_stable config _).fence h added) _
  | expect entityId head next ih => exact ih _ ((begun_stable config _).expect h entityId head) _
  | consult next ih => exact fun services => ih _ h _

omit [DecidableEq κ]

/-- The acceptance, the stale-version rejection, or the caller's rejection. -/
inductive Carries (E : Env) (config : TransactionConfig) (pending : PendingCommand)
    (tx : Transaction A) : Decision → Outcome → Prop
  | accepted {response : Option Bytes} {outcome : Outcome} (hstatus : outcome.status = .accepted)
      (hheads : ∀ stream ∈ tx.streams, ∀ head, tx.expected[stream.entityId]? = some head →
        stream.head = head) : Carries E config pending tx (.accept response) outcome
  | stale {response : Option Bytes} {stale : List StaleVersion} {canonical : Rejection}
      (hstale : tx.staleVersions tx.expected.toList = .ok stale) (hne : stale ≠ [])
      (h : (Rejection.staleVersion ((config.outcomes.map (·.staleVersionCode)).getD
        Rejection.staleVersionCode) stale).canonical E = .ok canonical) :
      Carries E config pending tx (.accept response) (pending.rejected canonical)
  | rejected {rejection canonical : Rejection} (h : rejection.canonical E = .ok canonical) :
      Carries E config pending tx (.reject rejection) (pending.rejected canonical)
  | rejectedWithEvents {rejection canonical : Rejection}
      (h : rejection.canonical E = .ok canonical) :
      Carries E config pending tx (.rejectWithEvents rejection) (pending.rejected canonical)

def StaleFenced (E : Env) (config : TransactionConfig) (pending : PendingCommand)
    (outcome : Outcome) : Prop :=
  ∃ canonical : Rejection, Rejection.canonical E ((config.outcomes.map fun outcomes =>
    outcomes.staleFence .staleFence).getD .staleFence) = .ok canonical ∧
      outcome = pending.rejected canonical

theorem submitOutcome_submission {commit : TransactionCommit Empty}
    (h : (submitOutcome E config pending commit outcome).Runs trace r) :
    Submission (fun _ o => o = outcome) (StaleFenced E config pending) trace := by
  obtain ⟨answer, rest, rfl, h⟩ := h
  have hq : (Request.transaction { commit with outcome := some outcome }).outcome =
      some outcome := rfl
  simp only [Script.done_bind] at h
  split at h
  · rcases persistRejection_runs h with
      rfl | ⟨canonical, q, answer, rest, hcanonical, hq', rfl, hrest⟩
    · exact .once unsubmitted_nil unsubmitted_nil hq rfl
    · exact .again unsubmitted_nil hrest hq rfl hq' ⟨canonical, hcanonical, rfl⟩
  · refine .once unsubmitted_nil (.of_quiet (.andThen (quiet_settle _ _ _ _ _) ?_) h) hq rfl
    exact fun _ => trivial

theorem commitRejection_submission {commit : TransactionCommit Empty}
    (h : (commitRejection E config pending rejection commit).Runs trace r) :
    Submission (fun _ o => ∃ canonical, rejection.canonical E = .ok canonical ∧
      o = pending.rejected canonical) (StaleFenced E config pending) trace := by
  rcases runs_check h with ⟨e, -, rfl, -⟩ | ⟨canonical, hcanonical, h⟩
  · exact .silent unsubmitted_nil
  · exact (submitOutcome_submission h).mono fun before o ho => ⟨canonical, hcanonical, ho⟩

theorem takeCommand_eq {pending' : PendingCommand} (h : tx.Begun pending)
    (htake : tx.takeCommand config = .ok pending') : pending' = pending := by
  simp only [takeCommand, seq_eq_ok, h.command] at htake
  obtain ⟨-, -, ⟨⟩⟩ := htake
  rfl

theorem checkRecordable_eq {pending' : PendingCommand} (h : tx.Begun pending)
    (hcheck : tx.checkRecordable config = .ok pending') : pending' = pending := by
  simp only [checkRecordable, bind_eq_ok] at hcheck
  obtain ⟨taken, htake, -, -, -, -, ⟨⟩⟩ := hcheck
  exact takeCommand_eq h htake

theorem reject_submission (hbegun : tx.Begun pending)
    (h : (tx.reject E config rejection).Runs trace r) :
    Submission (fun _ o => ∃ canonical, rejection.canonical E = .ok canonical ∧
      o = pending.rejected canonical) (StaleFenced E config pending) trace := by
  rcases runs_check h with ⟨e, -, rfl, -⟩ | ⟨pending', hcheck, h⟩
  · exact .silent unsubmitted_nil
  · cases checkRecordable_eq hbegun hcheck
    exact commitRejection_submission h

/-- Getting the streams ready and building the commit submits nothing. -/
theorem prepared_submission {β : Type} {first : Trace → Outcome → Prop} {fenced : Outcome → Prop}
    {metadata : Metadata} {next : TransactionCommit Empty → Program (Except Error β)}
    {r : Except Error β}
    (hnext : ∀ commit before after, (next commit).Runs after r →
      Submission (fun middle => first (before ++ middle)) fenced after)
    (h : (andThen (tx.ready config) fun _ => andThen (tx.prepare config metadata) next).Runs
      trace r) : Submission first fenced trace := by
  have hprepare : (tx.prepare config metadata).Quiet :=
    .check fun _ _ => (quiet_stampCommitId metadata).bind fun _ => trivial
  rcases runs_andThen h with ⟨e, h, -⟩ | ⟨ready, rest, u, rfl, hready, h⟩
  · exact .silent (.of_quiet (quiet_ready config tx) h)
  have hready := Unsubmitted.of_quiet (quiet_ready config tx) hready
  rcases runs_andThen h with ⟨e, h, -⟩ | ⟨prepared, rest, commit, rfl, hprepared, h⟩
  · exact .silent (hready.append (.of_quiet hprepare h))
  rw [← List.append_assoc]
  exact .prepend (hready.append (.of_quiet hprepare hprepared)) (hnext commit _ rest h)

theorem staleVersions_nil {expected : List (EntityId × Int)}
    (h : tx.staleVersions expected = .ok []) :
    ∀ entry ∈ expected, ∃ stream,
      tx.streams.find? (fun stream => stream.entityId == entry.1) = some stream ∧
        stream.head = entry.2 := by
  induction expected with
  | nil => simp
  | cons entry expected ih =>
    obtain ⟨entityId, head⟩ := entry
    simp only [staleVersions] at h
    split at h
    · cases h
    · rename_i stream hfind
      obtain ⟨stale, hrest, h⟩ := bind_eq_ok.mp h
      split at h
      · rename_i hhead
        cases h
        exact List.forall_mem_cons.mpr ⟨⟨stream, hfind, hhead⟩, ih hrest⟩
      · cases h

theorem staleRejection_none (hdistinct : (tx.streams.map (·.entityId)).Nodup)
    (h : tx.staleRejection config = .ok none) :
    ∀ stream ∈ tx.streams, ∀ head, tx.expected[stream.entityId]? = some head →
      stream.head = head := by
  intro stream hstream head hexpected
  unfold staleRejection at h
  split at h
  · rename_i hempty
    rw [Std.ExtTreeMap.isEmpty_iff.mp hempty] at hexpected
    simp at hexpected
  · simp only [bind_eq_ok] at h
    obtain ⟨-, -, stale, hstale, h⟩ := h
    split at h
    · have hmem := Std.ExtTreeMap.mem_toList_iff_getElem?_eq_some.mpr hexpected
      obtain ⟨found, hfind, hhead⟩ := staleVersions_nil hstale _ hmem
      have heq : found = stream := by
        refine List.inj_on_of_nodup_map hdistinct (List.mem_of_find?_eq_some hfind) hstream ?_
        simpa using List.find?_some hfind
      rw [← heq, hhead]
    · cases h

theorem staleRejection_some (h : tx.staleRejection config = .ok (some rejection)) :
    ∃ stale, tx.staleVersions tx.expected.toList = .ok stale ∧ stale ≠ [] ∧
      rejection = .staleVersion ((config.outcomes.map (·.staleVersionCode)).getD
        Rejection.staleVersionCode) stale := by
  unfold staleRejection at h
  split at h
  · cases h
  · simp only [bind_eq_ok] at h
    obtain ⟨-, -, stale, hstale, h⟩ := h
    split at h
    · cases h
    · rename_i hne
      cases h
      exact ⟨stale, hstale, fun heq => hne heq, rfl⟩

theorem commitWithOutcome_submission {response : Option Bytes} (hbegun : tx.Begun pending)
    (h : (tx.commitWithOutcome E config response).Runs trace r) :
    Submission (fun _ o => tx.Carries E config pending (.accept response) o)
      (StaleFenced E config pending) trace := by
  rcases runs_check h with ⟨e, -, rfl, -⟩ | ⟨rejection, hrejection, h⟩
  · exact .silent unsubmitted_nil
  cases rejection with
  | some rejection =>
    obtain ⟨stale, hstale, hne, rfl⟩ := staleRejection_some hrejection
    refine (reject_submission hbegun h).mono ?_
    rintro before outcome ⟨canonical, hcanonical, rfl⟩
    exact .stale hstale hne hcanonical
  | none =>
    rcases runs_check h with ⟨e, -, rfl, -⟩ | ⟨pending', htake, h⟩
    · exact .silent unsubmitted_nil
    cases takeCommand_eq hbegun htake
    refine prepared_submission (fun commit before after hafter => ?_) h
    refine (submitOutcome_submission hafter).mono ?_
    rintro middle outcome rfl
    refine .accepted ?_ (staleRejection_none hbegun.distinct hrejection)
    cases response <;> rfl

theorem finish_submission {decision : Decision} (hbegun : tx.Begun pending)
    (h : (tx.finish E config decision).Runs trace r) :
    Submission (fun _ o => tx.Carries E config pending decision o)
      (StaleFenced E config pending) trace := by
  cases decision with
  | accept response => exact commitWithOutcome_submission hbegun h
  | reject rejection =>
    refine (reject_submission hbegun h).mono ?_
    rintro before outcome ⟨canonical, hcanonical, rfl⟩
    exact .rejected hcanonical
  | rejectWithEvents rejection =>
    rcases runs_check h with ⟨e, -, rfl, -⟩ | ⟨pending', htake, h⟩
    · exact .silent unsubmitted_nil
    cases takeCommand_eq hbegun htake
    refine prepared_submission (fun commit before after hafter => ?_) h
    refine (commitRejection_submission hafter).mono ?_
    rintro middle outcome ⟨canonical, hcanonical, rfl⟩
    exact .rejectedWithEvents hcanonical

end Transaction

variable [DecidableEq κ]

def Prepare.begin (config : TransactionConfig) (pending : PendingCommand) (prepare : Prepare A) :
    Program (Except Error Decision × Transaction A) :=
  prepare.run config { Transaction.new with command := some pending } []

/-- One attempt: it stops at the pre-check, or runs the caller's steps once. -/
inductive TransactionAttempt (E : Env) (config : TransactionConfig) (pending : PendingCommand)
    (prepare : Prepare A) : Trace → Except Failed (CommandOutcome Unit) → Prop
  | stopped {answer : Except Error (Option Outcome)} {r : Except Failed (CommandOutcome Unit)}
      (hr : ∀ failed, r = .error failed → failed.phase = .deciding) :
      TransactionAttempt E config pending prepare [⟨.outcome pending.commandId, answer⟩] r
  | failed {steps : Trace} {error : Error} {tx : Transaction A} {phase : Phase}
      (hrun : (prepare.begin config pending).Runs steps (.error error, tx))
      (hsteps : Unsubmitted steps) (hphase : phase ≠ .committing) :
      TransactionAttempt E config pending prepare
        (⟨.outcome pending.commandId, .ok none⟩ :: steps) (.error ⟨error, phase⟩)
  | decided {steps finishing : Trace} {decision : Decision} {tx : Transaction A}
      {r : Except Failed (CommandOutcome Unit)}
      (hrun : (prepare.begin config pending).Runs steps (.ok decision, tx))
      (hsteps : Unsubmitted steps)
      (hfinish : (inPhase .committing (tx.finish E config decision)).Runs finishing r)
      (h : Submission (fun _ outcome => tx.Carries E config pending decision outcome)
        (Transaction.StaleFenced E config pending) finishing) :
      TransactionAttempt E config pending prepare
        (⟨.outcome pending.commandId, .ok none⟩ :: (steps ++ finishing)) r

theorem unsubmitted_begin {prepare : Prepare A} {made : Except Error Decision × Transaction A}
    (h : (prepare.begin config pending).Runs trace made) : Unsubmitted trace := by
  have hasks : (prepare.begin config pending).Asks fun a => ∀ q, a ≠ .submit q :=
    (reading_asks (fun _ => Ask.ne_submit_of_quiet) fun _ => Ask.ne_submit_of_ofLoad).run
      config prepare _ _
  exact hasks.of_runs h

theorem preCheck_runs {commandId : CommandId} {digest : String}
    {found : Except Error (Option Outcome)}
    (h : (preCheck commandId digest).Runs trace found) :
    ∃ answer, trace = [⟨.outcome commandId, answer⟩] ∧ (found = .ok none → answer = .ok none) := by
  obtain ⟨before, after, answer, rfl, hask, hfound⟩ := Script.runs_bind.mp h
  obtain ⟨answer, rest, rfl, rfl, rfl⟩ := hask
  refine ⟨answer, ?_⟩
  cases answer with
  | error e =>
    obtain ⟨rfl, rfl⟩ := hfound
    simp
  | ok found' =>
    cases found' with
    | none =>
      obtain ⟨rfl, rfl⟩ := hfound
      simp
    | some stored =>
      rcases runs_check hfound with ⟨e, -, rfl, rfl⟩ | ⟨stored', -, rfl, rfl⟩ <;> simp

theorem attemptTransaction_runs {prepare : Prepare A} {r : Except Failed (CommandOutcome Unit)}
    (h : (attemptTransaction E config pending prepare).Runs trace r) :
    TransactionAttempt E config pending prepare trace r := by
  rcases runs_andThen h with ⟨failed, hcheck, rfl⟩ | ⟨before, rest, found, rfl, hcheck, hfound⟩
  · obtain ⟨before, after, found, rfl, hfound, h⟩ := Script.runs_bind.mp hcheck
    obtain ⟨answer, rfl, -⟩ := preCheck_runs hfound
    cases found with
    | error e =>
      obtain ⟨rfl, ⟨⟩⟩ := h
      exact .stopped fun failed heq => by cases heq; rfl
    | ok found => cases h.2
  obtain ⟨answer, rfl, hanswer⟩ := preCheck_runs (runs_inPhase_ok hcheck)
  cases found with
  | some stored =>
    obtain ⟨rfl, rfl⟩ := hfound
    exact .stopped fun failed heq => nomatch heq
  | none =>
    cases hanswer rfl
    obtain ⟨steps, finishing, made, rfl, hrun, hmade⟩ := Script.runs_bind.mp hfound
    have hsteps := unsubmitted_begin hrun
    obtain ⟨result, tx⟩ := made
    cases result with
    | error error =>
      obtain ⟨rfl, rfl⟩ := hmade
      rw [List.append_nil]
      refine .failed hrun hsteps ?_
      split <;> decide
    | ok decision =>
      have hbegun := ((Transaction.Begun.start pending).run prepare []).of_runs hrun
      obtain ⟨result, hfinish⟩ := runs_inPhase hmade
      rw [List.singleton_append]
      exact .decided hrun hsteps hmade (Transaction.finish_submission hbegun hfinish)

end Transactions

/-- A rejection is written as its code, its message and the attempts it names, a line each. -/
def Env.coded : Env :=
  { Env.plain with
    rejection := fun r => .ok <| r.code ++ "\n" ++ r.message ++ match r.details with
      | some (.object [("attempts", .number attempts)]) => "\n" ++ attempts
      | _ => ""
    readRejection := fun text => match text.toList.splitOn '\n' with
      | [code, message] => .ok ⟨.ofList code, .ofList message, none⟩
      | [code, message, attempts] =>
        .ok ⟨.ofList code, .ofList message,
          some (.object [("attempts", .number (.ofList attempts))])⟩
      | _ => .error "not a rejection" }

namespace counter

def transactions : TransactionConfig := ⟨0, 0, [], some outcomes⟩

def identity : CommandIdentity := ⟨"add", ["a"], .empty⟩

def pending : PendingCommand := ⟨"c", "digest", ⟨"add", ["a"], none⟩, { commandId := some "c" }⟩

theorem freezes : freezeCommand outcomes identity { commandId := some "c" } = .ok pending := by
  rfl

def accepting : Program (Except Error (CommandOutcome Unit)) :=
  executeTransaction Env.coded transactions identity { commandId := some "c" }
    (.decide (.accept none) : Prepare fun _ : Unit => counter)

def recording (outcome : Outcome) : Request := .transaction { streams := [], outcome }

/-- The attempt's commit conflicts, and then the rejection cannot be recorded. -/
def throttled : Trace :=
  [⟨.outcome "c", .ok none⟩,
    ⟨.submit (recording pending.accepted), .error (.conflict "a" "")⟩,
    ⟨.outcomeWithin "c", some (.ok none)⟩,
    ⟨.submit (recording (pending.rejected (.retriesExhausted 1))),
      .error (.transient (.text "throttled"))⟩]

theorem accepting_runs : accepting.Runs throttled (.error (.transient (.text "throttled"))) := by
  unfold accepting executeTransaction
  simp only [transactions, freezes, check]
  exact ⟨.ok none, _, rfl, .error (.conflict "a" ""), _, rfl, some (.ok none), _, rfl,
    .error (.transient (.text "throttled")), _, rfl, rfl, rfl⟩

end counter

end EventStore
