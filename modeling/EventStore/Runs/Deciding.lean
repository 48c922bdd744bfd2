import EventStore.Runs.Loads
import EventStore.Memory.Atomic

/-!
What the store operations commit. Commits from a loaded aggregate, executions with
their retries, and transactions all submit nothing but continuations of the logs they
were decided on, whatever the others do between their calls.
-/
namespace EventStore

open Result Program

variable {κ : Type} {A : κ → Aggregate} {kindOf : EntityId → κ}

namespace World

variable {ι : Type} [DecidableEq ι] {E : Env} {current : Prop} {x : ι → Operation A kindOf}
  {allowed : World ι → Ask → Prop} {i : ι} {w : World ι}

theorem Acts.admitted {c : Commit Empty} {w' : World ι}
    (h : Acts E i w (.submit (.commit c)) (.ok ()) w') (hw : w.Consistent E current x)
    (hevents : c.events ≠ []) :
    w'.log c.entityId = w.log c.entityId ++ c.events ∧
      ∀ first, c.events.head? = some first →
        first.sequence = (w.log c.entityId).length + 1 := by
  generalize hanswer : (.ok () : Except Error Unit) = answer at h
  cases h with
  | submitFails _ _ | submitLost _ _ => cases hanswer
  | submit handle _ =>
    rcases land_cases E handle (some i) (w.started i) (.commit c) w with
      ⟨-, -, hplan⟩ | ⟨-, write, hplan, haccepted, -, happlied⟩
    · obtain ⟨c', hc', -⟩ :=
        (Request.plans_none (hplan hanswer.symm)).written c (by simp [Request.streams]) hevents
      cases hc'
    · have hsound := Request.plan_sound hplan
      obtain rfl := Request.write_of_plan hplan
      have hmem : c ∈ (Request.commit c).write.streams := by simp [Request.write, Write.ofCommit]
      constructor
      · have hwriter : writerOf [c] c.entityId = some c := by simp [writerOf, hevents]
        show logOf (w.land E handle (some i) (w.started i) (.commit c)).2.applied _ = _
        rw [happlied, logOf_append, logOf_singleton hsound]
        simp only [Request.write, Write.ofCommit, hwriter]
        rfl
      · intro first hfirst
        exact Stream.first_of_passes (hw.sound c.entityId) hfirst
          ((hsound.valid c hmem).positive first hfirst) (haccepted.streams c hmem)

theorem submit_operates {q : Request}
    (h : (x i).Submits E current w.applied (w.started i) q) :
    Operates E current x allowed i (fun _ u => Grows i w u) (ask (.submit q)) w := by
  refine operates_ask (by simp) ?_ (by simp) fun t answer u _ _ _ _ _ hu => hu
  rintro t _ ht ⟨⟩
  rw [ht.started]
  exact h.mono ht.applied

section Single

variable {entityId : EntityId} {config : StoreConfig (A (kindOf entityId))}
  {loaded loaded' : Loaded (A (kindOf entityId))} {stamped : Metadata} {commit : Commit Empty}

omit [DecidableEq ι] in
theorem submits_staged {applied : List (Applied ι)} {started : Nat}
    (hx : (x i).projectors = config.commitProjectors) (hid : loaded.entityId = entityId)
    (h : Staged config (logOf applied entityId) loaded stamped loaded' commit)
    (outcome : Option Outcome) :
    (x i).Submits E current applied started (.commit { commit with outcome }) := by
  refine Operation.submits_of_continues (hx ▸ h.continues hid outcome) ?_
  rintro c ⟨⟩
  exact h.written

/-- Submitting a staged commit, with the aggregate after it when it succeeds. -/
theorem submitStaged_operates (hx : (x i).projectors = config.commitProjectors)
    (hid : loaded.entityId = entityId) (hof : loaded.Of (w.log entityId))
    (h : Staged config (w.log entityId) loaded stamped loaded' commit) :
    Operates E current x allowed i (fun r u => r = .ok () → loaded'.Of (u.log entityId))
      (ask (.submit (.commit commit))) w := by
  refine operates_ask (by simp) ?_ (by simp) fun t answer u ht hcons _ _ hact _ => ?_
  · rintro t _ ht ⟨⟩
    exact (submits_staged hx hid h commit.outcome).mono ht.applied
  · rintro rfl
    have hentity : commit.entityId = entityId := h.entityId.trans hid
    obtain ⟨hlog, hplace⟩ := hact.admitted hcons h.written
    rw [hentity] at hlog hplace
    rw [hlog]
    exact h.loaded_of hof (ht.log entityId) hplace

variable (hA : ∀ kind, (A kind).RoundTrips)
  (hallowed : current → ∀ (w : World ι) a, allowed w a → Readable w a)

include hA

theorem commit_operates (hx : (x i).projectors = config.commitProjectors)
    (hid : loaded.entityId = entityId) (hof : loaded.Of (w.log entityId))
    (events : List (A (kindOf entityId)).Event) (metadata : Metadata) :
    Operates E current x allowed i (fun r u => ∀ p, r = .ok p → p.1.entityId = entityId ∧
        p.1.Of (u.log entityId))
      (config.commit loaded events metadata) w := by
  refine .check (by simp) fun _ _ => .check (by simp) fun _ _ => ?_
  split
  · rintro _ ⟨⟩
    exact ⟨hid, hof⟩
  · rename_i hevents
    refine .andThen _ (operates_quiet (quiet_readyProjectors _)) (by simp) fun _ t ht => ?_
    refine (operates_quiet (quiet_stampCommitId metadata)).bind fun stamped t' ht' => ?_
    refine .check (by simp) fun staged hstage => ?_
    have hof' := hof.mono ((ht.trans ht').log entityId)
    have hstaged := StoreConfig.stage_staged (hA _) hof' (by simpa using hevents) hstage
    refine .andThen _ (submitStaged_operates hx hid hof' hstaged) (by simp) fun _ u hu => ?_
    rintro _ ⟨⟩
    exact ⟨hstaged.same.trans hid, hu rfl⟩

theorem commitAll_operates (hx : (x i).projectors = config.commitProjectors)
    (commits : List ((A (kindOf entityId)).State → List (A (kindOf entityId)).Event × Metadata))
    (hid : loaded.entityId = entityId) (hof : loaded.Of (w.log entityId)) :
    Operates E current x allowed i (fun r u => ∀ loaded', r = .ok loaded' →
        loaded'.entityId = entityId ∧ loaded'.Of (u.log entityId))
      (config.commitAll commits loaded) w := by
  induction commits generalizing loaded w with
  | nil =>
    rintro _ ⟨⟩
    exact ⟨hid, hof⟩
  | cons next commits ih =>
    refine .andThen _ (commit_operates hA hx hid hof _ _) (by simp) ?_
    rintro ⟨loaded', events⟩ t ht
    obtain ⟨hid', hof'⟩ := ht _ rfl
    exact ih hid' hof'

include hallowed

theorem session_operates (hx : (x i).projectors = config.commitProjectors)
    (commits : List ((A (kindOf entityId)).State →
      List (A (kindOf entityId)).Event × Metadata)) :
    Operates E current x allowed i (fun r u => ∀ loaded, r = .ok loaded →
        loaded.Of (u.log entityId))
      (andThen (loadWithCatchUp (A (kindOf entityId)) entityId config.catchUpThreshold)
        (config.commitAll commits)) w := by
  refine .andThen _ (loadWithCatchUp_operates hA hallowed entityId _) (by simp) ?_
  intro loaded t ht
  have hloaded := ht.2 loaded rfl
  refine (commitAll_operates hA hx commits hloaded.same hloaded.prefixed).mono fun r u hu => ?_
  exact fun loaded' hr => (hu loaded' hr).2

theorem execute_operates (hx : (x i).projectors = config.commitProjectors)
    (command : (A (kindOf entityId)).Command) (metadata : Metadata) :
    Operates E current x allowed i (fun r u => ∀ p, r = .ok p → p.1.entityId = entityId ∧
        p.1.Of (u.log entityId))
      (config.execute entityId command metadata) w := by
  unfold StoreConfig.execute
  refine .andThen (fun _ _ => True) ?_ (by simp) fun _ t _ => ?_
  · cases config.refuseOutcomes "execute" <;> trivial
  refine .andThen (fun r u => ∀ loaded, r = .ok loaded → LoadedAt current i entityId u loaded)
    ?_ (by simp) fun loaded t' ht' => ?_
  · refine (loadWithCatchUp_operates hA hallowed entityId _).bind fun r u hu => ?_
    cases r with
    | error error => simp
    | ok loaded => simpa using hu.2 loaded rfl
  have hloaded := ht' loaded rfl
  refine .andThen (fun _ u => Grows i t' u) ?_ (by simp) fun _ t'' ht'' => ?_
  · cases StoreConfig.checkUnseen loaded metadata <;> exact .refl i t'
  refine (operates_quiet (quiet_ask rfl)).bind fun services u hu => ?_
  split
  · simp
  · have hof := hloaded.prefixed.mono ((ht''.trans hu).log entityId)
    refine (commit_operates hA hx hloaded.same hof _ metadata).bind fun r v hv => ?_
    cases r with
    | error error => simp
    | ok p =>
      rintro _ ⟨⟩
      exact hv p rfl

end Single

section Outcomes

variable {pending : PendingCommand} {ε : Type}

theorem submitSettled_operates {q : Request}
    (h : (x i).Submits E current w.applied (w.started i) q) (stored : Outcome)
    (events : List SerializedEvent) (typedEvents : List ε) (window : Nat) :
    Operates E current x allowed i (fun _ _ => True)
      (submitSettled E q stored events typedEvents window) w := by
  refine (submit_operates h).bind fun result t ht => ?_
  exact .andThen _ (operates_quiet (quiet_settle _ _ _ _ _)) (by simp) (by simp)

omit [DecidableEq ι] in
theorem submits_bare (i : ι) (applied : List (Applied ι)) (started : Nat) (fences : List ReadFence)
    (outcome : Option Outcome) :
    (x i).Submits E current applied started (.transaction { streams := [], fences, outcome }) :=
  Operation.submits_of_continues (.bare rfl rfl) (by simp)

theorem persistRejection_operates (window : Nat) (rejection : Rejection) :
    Operates E current x allowed i (fun _ _ => True)
      (persistRejection (ε := ε) E pending window rejection) w :=
  .check (by simp) fun _ _ =>
    submitSettled_operates (submits_bare i _ _ [] _) _ _ _ _

section Retry

variable {config : OutcomeConfig} {returns : Retry → Bool}
  {attempt : Program (Except Failed (CommandOutcome ε))}

theorem exhausted_operates (attempts : Nat) (failed : Failed) :
    Operates E current x allowed i (fun _ _ => True)
      (exhausted (ε := ε) E config pending returns attempts failed) w := by
  unfold exhausted
  split
  · trivial
  · exact persistRejection_operates _ _

theorem afterAttempt_operates {next : Failed → Program (Except Error (CommandOutcome ε))}
    (result : Except Failed (CommandOutcome ε))
    (hnext : ∀ failed, Operates E current x allowed i (fun _ _ => True) (next failed) w) :
    Operates E current x allowed i (fun _ _ => True)
      (afterAttempt E config pending next result) w := by
  unfold afterAttempt
  split
  · trivial
  · exact persistRejection_operates _ _
  · split
    · trivial
    · exact hnext _

theorem retried_operates
    (hattempt : ∀ w, Operates E current x allowed i (fun _ _ => True) attempt w)
    (left number : Nat) :
    Operates E current x allowed i (fun _ _ => True)
      (retried E config pending attempt returns left number) w := by
  induction left generalizing w number with
  | zero =>
    refine (hattempt w).bind fun result t _ => afterAttempt_operates result fun failed => ?_
    exact exhausted_operates number failed
  | succ left ih =>
    refine (hattempt w).bind fun result t _ => afterAttempt_operates result fun failed => ?_
    refine (operates_quiet (quiet_deadlinePassed config.retry)).bind fun passed t' _ => ?_
    cases passed with
    | true => exact exhausted_operates number failed
    | false => exact ih (number + 1)

end Retry

theorem inPhase_operates {α : Type} (phase : Phase) {p : Program (Except Error α)}
    (h : Operates E current x allowed i (fun _ _ => True) p w) :
    Operates E current x allowed i (fun _ _ => True) (inPhase phase p) w := by
  refine h.bind fun r t _ => ?_
  cases r <;> trivial

section Attempt

variable {entityId : EntityId} {config : StoreConfig (A (kindOf entityId))}
  {command : (A (kindOf entityId)).Command} {metadata : Metadata}
  {respond : (A (kindOf entityId)).State → List (A (kindOf entityId)).Event →
    Except String (Option Bytes)}
  {outcomes : OutcomeConfig} {loaded : Loaded (A (kindOf entityId))}
  (hA : ∀ kind, (A kind).RoundTrips)
  (hallowed : current → ∀ (w : World ι) a, allowed w a → Readable w a)
  (hx : x i = .executeWithResponse entityId config command metadata respond)
  (hconfig : config.outcomes = some outcomes)
  (hfreeze : StoreConfig.freeze outcomes entityId command metadata = .ok pending)
  (hloaded : LoadedAt current i entityId w loaded)

theorem record_operates {commit : Commit Empty} {outcome : Outcome}
    (h : (x i).Submits E current w.applied (w.started i)
      (.commit { commit with outcome := some outcome }))
    (typedEvents : List (A (kindOf entityId)).Event) :
    Operates E current x allowed i (fun _ _ => True)
      (StoreConfig.record E outcomes commit outcome typedEvents) w :=
  inPhase_operates .committing (submitSettled_operates h _ _ _ _)

omit [DecidableEq ι] in
include hx hconfig hfreeze hloaded in
/-- An outcome without events, decided on the state that was loaded. -/
theorem submits_decided (services : String) {outcome : Outcome}
    (hdecides : StoreConfig.Decides E pending respond loaded.aggregate command services outcome) :
    (x i).Submits E current w.applied (w.started i)
      (.commit { entityId := loaded.entityId, events := [], outcome := some outcome }) := by
  refine ⟨.bare rfl rfl, fun hcurrent => ?_⟩
  rw [hx]
  rintro c ⟨⟩ -
  exact ⟨outcomes, pending, loaded.aggregate, services, outcome, hconfig, hfreeze, hloaded.same,
    rfl, hloaded.now hcurrent, hdecides⟩

include hA

theorem recordEvents_operates (hx : (x i).projectors = config.commitProjectors)
    (hloaded : LoadedAt current i entityId w loaded)
    {events : List (A (kindOf entityId)).Event} (hevents : events ≠ [])
    (outcome : (A (kindOf entityId)).State → Except Error Outcome) :
    Operates E current x allowed i (fun _ _ => True)
      (config.recordEvents E outcomes pending loaded events outcome) w := by
  refine .andThen _ (operates_quiet (asks_inPhase _ (quiet_readyProjectors _))) (by simp)
    fun _ t ht => ?_
  refine (operates_quiet (quiet_stampCommitId _)).bind fun stamped t' ht' => ?_
  refine .check (by simp) fun ⟨next, commit⟩ hstage => .check (by simp) fun o _ => ?_
  have hof := hloaded.prefixed.mono ((ht.trans ht').log entityId)
  have hstaged := StoreConfig.stage_staged (hA _) hof hevents (internally_eq_ok.mp hstage)
  exact record_operates (submits_staged hx hloaded.same hstaged _) events

include hx hconfig hfreeze

include hloaded in
theorem attemptRejected_operates {services : String}
    {failure : (A (kindOf entityId)).Failure}
    (hhandle : (A (kindOf entityId)).handle loaded.aggregate command services = .error failure) :
    Operates E current x allowed i (fun _ _ => True)
      (config.attemptRejected E outcomes pending loaded failure) w := by
  unfold StoreConfig.attemptRejected
  split
  · trivial
  · rename_i rejection hrejection
    refine .check (by simp) fun canonical hcanonical => ?_
    simp only
    split
    · rename_i hnone
      refine record_operates (submits_decided hx hconfig hfreeze hloaded services ?_) []
      rw [StoreConfig.Decides, hhandle]
      exact ⟨List.isEmpty_iff.mp hnone, rejection, canonical, hrejection,
        internally_eq_ok.mp hcanonical, rfl⟩
    · rename_i hsome
      exact recordEvents_operates hA (by rw [hx]; rfl) hloaded (by simpa using hsome) _

include hloaded in
theorem attemptAccepted_operates {services : String}
    {events : List (A (kindOf entityId)).Event}
    (hhandle : (A (kindOf entityId)).handle loaded.aggregate command services = .ok events) :
    Operates E current x allowed i (fun _ _ => True)
      (config.attemptAccepted E outcomes pending respond loaded events) w := by
  unfold StoreConfig.attemptAccepted
  split
  · rename_i hnone
    refine .check (by simp) fun outcome houtcome => ?_
    refine record_operates (submits_decided hx hconfig hfreeze hloaded services ?_) events
    rw [StoreConfig.Decides, hhandle]
    exact ⟨List.isEmpty_iff.mp hnone, internally_eq_ok.mp houtcome⟩
  · rename_i hsome
    exact recordEvents_operates hA (by rw [hx]; rfl) hloaded (by simpa using hsome) _

include hallowed

theorem attemptWithResponse_operates :
    Operates E current x allowed i (fun _ _ => True)
      (config.attemptWithResponse E outcomes pending respond entityId command) w := by
  refine .andThen _ (operates_quiet (asks_inPhase _ (quiet_preCheck _ _))) (by simp) ?_
  intro found t _
  cases found with
  | some stored => trivial
  | none =>
    refine .andThen (fun r u => ∀ loaded, r = .ok loaded → LoadedAt current i entityId u loaded)
      ?_ (by simp) fun loaded t' ht' => ?_
    · refine (loadWithCatchUp_operates hA hallowed entityId _).bind fun r u hu => ?_
      cases r with
      | error error => simp
      | ok loaded => simpa using hu.2 loaded rfl
    split
    · trivial
    · refine (operates_quiet (quiet_ask rfl)).bind fun services u hu => ?_
      have hloaded := (ht' loaded rfl).mono hu
      split
      · rename_i failure hhandle
        exact attemptRejected_operates hA hx hconfig hfreeze hloaded hhandle
      · rename_i events hhandle
        exact attemptAccepted_operates hA hx hconfig hfreeze hloaded hhandle

omit hconfig hfreeze in
theorem executeWithResponse_operates :
    Operates E current x allowed i (fun _ _ => True)
      (config.executeWithResponse E entityId command metadata respond) w := by
  unfold StoreConfig.executeWithResponse
  split
  · trivial
  · rename_i outcomes hconfig
    refine .check (by simp) fun pending hfreeze => ?_
    exact retried_operates
      (fun w => attemptWithResponse_operates hA hallowed hx hconfig hfreeze) _ _

end Attempt

end Outcomes

end World

end EventStore
