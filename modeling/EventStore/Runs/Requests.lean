import EventStore.Runs.Operations

/-!
What the store operations are made of: loads, quiet calls, and submissions of staged commits,
built transactions and requests without events, each possibly with an outcome. A property that
these have, and that composition keeps, is one of every operation.
-/
namespace EventStore

open Result Program

/-- The request was staged, built, or carries no stream; with any outcome. -/
inductive Request.Decided : Request → Prop
  | staged {A : Aggregate} {config : StoreConfig A} {loaded loaded' : Loaded A}
      {events : List A.Event} {stamped : Metadata} {commit : Commit Empty}
      (h : config.stage loaded events stamped = .ok (loaded', commit)) (outcome : Option Outcome) :
      Decided (.commit { commit with outcome })
  | built {κ : Type} {A : κ → Aggregate} {config : TransactionConfig} {tx : Transaction A}
      {stamped : Metadata} {commit : TransactionCommit Empty}
      (h : tx.build config stamped = .ok commit) (outcome : Option Outcome) :
      Decided (.transaction { commit with outcome })
  | bare (entityId : EntityId) (outcome : Option Outcome) :
      Decided (.commit { entityId, events := [], outcome })
  | fenced (fences : List ReadFence) (outcome : Option Outcome) :
      Decided (.transaction { streams := [], fences, outcome })

/-- A property of programs that composition keeps, and that the reading parts of the
store operations have. -/
structure Reading (Φ : (α : Type) → Program α → Prop) : Prop where
  bind : ∀ {α β : Type} {p : Program α} {f : α → Program β},
    Φ α p → (∀ a, Φ β (f a)) → Φ β (p.bind f)
  quiet : ∀ {α : Type} {p : Program α}, p.Quiet → Φ α p
  load : ∀ (A : Aggregate) (entityId : EntityId) (threshold : Nat),
    Φ _ (loadWithCatchUp A entityId threshold)

/-- Such a property that the submission of a decided request has too. -/
structure Composed (Φ : (α : Type) → Program α → Prop) : Prop extends Reading Φ where
  submit : ∀ {q : Request}, q.Decided → Φ _ (ask (.submit q))

namespace Reading

variable {Φ : (α : Type) → Program α → Prop} (hΦ : Reading Φ)

include hΦ

theorem done {α : Type} (a : α) : Φ α (.done a) := hΦ.quiet trivial

theorem andThen {ε α β : Type} {p : Program (Except ε α)} {f : α → Program (Except ε β)}
    (h : Φ _ p) (hf : ∀ a, Φ _ (f a)) : Φ _ (andThen p f) := by
  refine hΦ.bind h fun result => ?_
  cases result with
  | error e => exact hΦ.done _
  | ok a => exact hf a

theorem check {ε α β : Type} {x : Except ε α} {f : α → Program (Except ε β)}
    (hf : ∀ a, x = .ok a → Φ _ (f a)) : Φ _ (check x f) := by
  cases x with
  | error e => exact hΦ.done _
  | ok a => exact hf a rfl

theorem inPhase {α : Type} (phase : Phase) {p : Program (Except Error α)} (h : Φ _ p) :
    Φ _ (inPhase phase p) := by
  refine hΦ.bind h fun result => ?_
  cases result <;> exact hΦ.done _

section Callers

variable {κ : Type} {A : κ → Aggregate}

theorem read (config : TransactionConfig) (tx : Transaction A) (kind : κ)
    (entityId : EntityId) : Φ _ (tx.read config kind entityId) := by
  unfold Transaction.read
  split
  · exact hΦ.done _
  · refine hΦ.bind (hΦ.load (A kind) entityId _) fun result => ?_
    cases result with
    | error error => exact hΦ.done _
    | ok loaded =>
      simp only
      split <;> exact hΦ.done _

theorem run [DecidableEq κ] (config : TransactionConfig) (prepare : Prepare A)
    (tx : Transaction A) (loads : List ((kind : κ) × Loaded (A kind))) :
    Φ _ (prepare.run config tx loads) := by
  induction prepare generalizing tx loads with
  | decide decision | fail error => exact hΦ.done _
  | read kind entityId next ih =>
    exact hΦ.bind (hΦ.read config tx kind entityId) fun result => ih _ _ _
  | load kind entityId next ih =>
    simp only [Prepare.run]
    refine hΦ.bind (hΦ.load (A kind) entityId _) fun result => ?_
    cases result with
    | error error => exact ih _ _ _
    | ok loaded => exact ih _ _ _
  | readLoaded index next ih =>
    simp only [Prepare.run]
    split
    · exact ih _ _ _
    · split <;> exact ih _ _ _
  | append kind index events next ih | fence added next ih | expect entityId head next ih =>
    exact ih _ _ _
  | consult next ih => exact hΦ.bind (hΦ.quiet (quiet_ask rfl)) fun services => ih _ _ _

end Callers

end Reading

namespace Composed

variable {Φ : (α : Type) → Program α → Prop} (hΦ : Composed Φ)

include hΦ

section Commands

variable {A : Aggregate}

theorem submitSettled {ε : Type} (E : Env) {q : Request} (h : q.Decided) (stored : Outcome)
    (events : List SerializedEvent) (typedEvents : List ε) (window : Nat) :
    Φ _ (submitSettled E q stored events typedEvents window) :=
  hΦ.bind (hΦ.submit h) fun _ =>
    hΦ.andThen (hΦ.quiet (quiet_settle _ _ _ _ _)) fun _ => hΦ.done _

theorem persistRejection {ε : Type} (E : Env) (pending : PendingCommand) (window : Nat)
    (rejection : Rejection) :
    Φ (Except Error (CommandOutcome ε)) (persistRejection E pending window rejection) :=
  hΦ.check fun _ _ => hΦ.submitSettled E (.fenced [] _) _ _ _ _

theorem afterAttempt {ε : Type} (E : Env) (config : OutcomeConfig)
    (pending : PendingCommand) {next : Failed → Program (Except Error (CommandOutcome ε))}
    (hnext : ∀ failed, Φ _ (next failed)) (result : Except Failed (CommandOutcome ε)) :
    Φ _ (afterAttempt E config pending next result) := by
  unfold EventStore.afterAttempt
  split
  · exact hΦ.done _
  · exact hΦ.persistRejection E pending _ _
  · split
    · exact hΦ.done _
    · exact hnext _

theorem exhausted {ε : Type} (E : Env) (config : OutcomeConfig) (pending : PendingCommand)
    (returns : Retry → Bool) (attempts : Nat) (failed : Failed) :
    Φ (Except Error (CommandOutcome ε)) (exhausted E config pending returns attempts failed) := by
  unfold EventStore.exhausted
  split
  · exact hΦ.done _
  · exact hΦ.persistRejection E pending _ _

theorem retried {ε : Type} (E : Env) (config : OutcomeConfig) (pending : PendingCommand)
    {attempt : Program (Except Failed (CommandOutcome ε))} (hattempt : Φ _ attempt)
    (returns : Retry → Bool) (left number : Nat) :
    Φ _ (retried E config pending attempt returns left number) := by
  induction left generalizing number with
  | zero =>
    exact hΦ.bind hattempt fun _ =>
      hΦ.afterAttempt E config pending (hΦ.exhausted E config pending returns _) _
  | succ left ih =>
    refine hΦ.bind hattempt fun _ => hΦ.afterAttempt E config pending (fun failed => ?_) _
    refine hΦ.bind (hΦ.quiet (quiet_deadlinePassed _)) fun passed => ?_
    cases passed with
    | true => exact hΦ.exhausted E config pending returns _ _
    | false => exact ih _

theorem commit (config : StoreConfig A) (loaded : Loaded A) (events : List A.Event)
    (metadata : Metadata) : Φ _ (config.commit loaded events metadata) := by
  refine hΦ.check fun _ _ => hΦ.check fun _ _ => ?_
  split
  · exact hΦ.done _
  · refine hΦ.andThen (hΦ.quiet (quiet_readyProjectors _)) fun _ => ?_
    refine hΦ.bind (hΦ.quiet (quiet_stampCommitId metadata)) fun stamped => ?_
    refine hΦ.check fun staged hstage => hΦ.andThen (hΦ.submit ?_) fun _ => hΦ.done _
    exact .staged hstage staged.2.outcome

theorem commitAll (config : StoreConfig A)
    (commits : List (A.State → List A.Event × Metadata)) (loaded : Loaded A) :
    Φ _ (config.commitAll commits loaded) := by
  induction commits generalizing loaded with
  | nil => exact hΦ.done _
  | cons next commits ih => exact hΦ.andThen (hΦ.commit config loaded _ _) fun result => ih result.1

theorem execute (config : StoreConfig A) (entityId : EntityId) (command : A.Command)
    (metadata : Metadata) : Φ _ (config.execute entityId command metadata) := by
  refine hΦ.andThen (hΦ.bind (hΦ.done _) ?_) fun _ => ?_
  · rintro (error | value) <;> exact hΦ.done _
  refine hΦ.andThen (hΦ.bind (hΦ.load A entityId _) ?_) fun loaded => ?_
  · rintro (error | value) <;> exact hΦ.done _
  refine hΦ.andThen (hΦ.bind (hΦ.done _) ?_) fun _ => ?_
  · rintro (error | value) <;> exact hΦ.done _
  refine hΦ.bind (hΦ.quiet (quiet_ask rfl)) fun services => ?_
  split
  · exact hΦ.done _
  · refine hΦ.bind (hΦ.commit config loaded _ metadata) ?_
    rintro (error | value) <;> exact hΦ.done _

theorem record (E : Env) (outcomes : OutcomeConfig) {commit : Commit Empty}
    (outcome : Outcome) (h : (Request.commit { commit with outcome := some outcome }).Decided)
    (typedEvents : List A.Event) :
    Φ _ (StoreConfig.record E outcomes commit outcome typedEvents) :=
  hΦ.inPhase _ (hΦ.submitSettled E h _ _ _ _)

theorem recordEvents (E : Env) (config : StoreConfig A) (outcomes : OutcomeConfig)
    (pending : PendingCommand) (loaded : Loaded A) (events : List A.Event)
    (outcome : A.State → Except Error Outcome) :
    Φ _ (config.recordEvents E outcomes pending loaded events outcome) := by
  refine hΦ.andThen (hΦ.inPhase _ (hΦ.quiet (quiet_readyProjectors _))) fun _ => ?_
  refine hΦ.bind (hΦ.quiet (quiet_stampCommitId _)) fun stamped => ?_
  refine hΦ.check fun staged hstage => hΦ.check fun outcome _ => ?_
  exact hΦ.record E outcomes outcome (.staged (internally_eq_ok.mp hstage) _) _

theorem attemptWithResponse (E : Env) (config : StoreConfig A) (outcomes : OutcomeConfig)
    (pending : PendingCommand)
    (respond : A.State → List A.Event → Except String (Option Bytes)) (entityId : EntityId)
    (command : A.Command) :
    Φ _ (config.attemptWithResponse E outcomes pending respond entityId command) := by
  refine hΦ.andThen (hΦ.inPhase _ (hΦ.quiet (quiet_preCheck _ _))) fun found => ?_
  cases found with
  | some stored => exact hΦ.done _
  | none =>
    refine hΦ.andThen (hΦ.inPhase _ (hΦ.load A entityId _)) fun loaded => ?_
    split
    · exact hΦ.done _
    · refine hΦ.bind (hΦ.quiet (quiet_ask rfl)) fun services => ?_
      split
      · unfold StoreConfig.attemptRejected
        split
        · exact hΦ.done _
        · refine hΦ.check fun rejection _ => ?_
          simp only
          split
          · exact hΦ.record E outcomes _ (.bare _ _) _
          · exact hΦ.recordEvents E config outcomes pending loaded _ _
      · unfold StoreConfig.attemptAccepted
        split
        · exact hΦ.check fun outcome _ => hΦ.record E outcomes _ (.bare _ _) _
        · exact hΦ.recordEvents E config outcomes pending loaded _ _

theorem executeWithResponse (E : Env) (config : StoreConfig A) (entityId : EntityId)
    (command : A.Command) (metadata : Metadata)
    (respond : A.State → List A.Event → Except String (Option Bytes)) :
    Φ _ (config.executeWithResponse E entityId command metadata respond) := by
  unfold StoreConfig.executeWithResponse
  split
  · exact hΦ.done _
  · exact hΦ.check fun pending _ => hΦ.retried E _ pending
      (hΦ.attemptWithResponse E config _ pending respond entityId command) _ _ _

end Commands

section Transactions

variable {κ : Type} {A : κ → Aggregate}

theorem prepared {β : Type} (config : TransactionConfig) (tx : Transaction A)
    (metadata : Metadata) {next : TransactionCommit Empty → Program (Except Error β)}
    (h : ∀ stamped commit, tx.build config stamped = .ok commit → Φ _ (next commit)) :
    Φ _ (Program.andThen (tx.ready config) fun _ =>
      Program.andThen (tx.prepare config metadata) next) := by
  refine hΦ.andThen (hΦ.quiet (quiet_ready config tx)) fun _ => ?_
  unfold Transaction.prepare
  cases refuse tx.poisoned Error.transactionPoisoned with
  | error error => exact hΦ.done _
  | ok u =>
    change Φ _ (((stampCommitId metadata).bind fun stamped =>
      Script.done (tx.build config stamped)).bind _)
    rw [Script.bind_assoc]
    refine hΦ.bind (hΦ.quiet (quiet_stampCommitId metadata)) fun stamped => ?_
    cases hbuild : tx.build config stamped with
    | error error => exact hΦ.done _
    | ok commit => exact h stamped commit hbuild

theorem transactionCommit (config : TransactionConfig) (tx : Transaction A)
    (metadata : Metadata) : Φ _ (tx.commit config metadata) := by
  refine hΦ.check fun _ _ => hΦ.prepared config tx metadata fun stamped commit h => ?_
  exact hΦ.andThen (hΦ.submit (.built h commit.outcome)) fun _ => hΦ.done _

theorem submitOutcome (E : Env) (config : TransactionConfig) (pending : PendingCommand)
    (commit : TransactionCommit Empty) (outcome : Outcome)
    (h : (Request.transaction { commit with outcome := some outcome }).Decided) :
    Φ _ (Transaction.submitOutcome E config pending commit outcome) := by
  refine hΦ.bind (hΦ.submit h) fun result => ?_
  split
  · exact hΦ.persistRejection E pending _ _
  · exact hΦ.andThen (hΦ.quiet (quiet_settle _ _ _ _ _)) fun _ => hΦ.done _

theorem reject (E : Env) (config : TransactionConfig) (tx : Transaction A)
    (rejection : Rejection) : Φ _ (tx.reject E config rejection) :=
  hΦ.check fun pending _ => hΦ.check fun _ _ =>
    hΦ.submitOutcome E config pending _ _ (.fenced _ _)

theorem finish (E : Env) (config : TransactionConfig) (tx : Transaction A)
    (decision : Decision) : Φ _ (tx.finish E config decision) := by
  cases decision with
  | accept response =>
    refine hΦ.check fun stale _ => ?_
    cases stale with
    | some rejection => exact hΦ.reject E config tx rejection
    | none =>
      refine hΦ.check fun pending _ => hΦ.prepared config tx _ fun _ commit h => ?_
      exact hΦ.submitOutcome E config pending commit _ (.built h _)
  | reject rejection => exact hΦ.reject E config tx rejection
  | rejectWithEvents rejection =>
    refine hΦ.check fun pending _ => hΦ.prepared config tx _ fun _ commit h => ?_
    exact hΦ.check fun _ _ => hΦ.submitOutcome E config pending commit _ (.built h _)

theorem executeTransaction [DecidableEq κ] (E : Env) (config : TransactionConfig)
    (identity : CommandIdentity) (metadata : Metadata) (prepare : Prepare A) :
    Φ _ (executeTransaction E config identity metadata prepare) := by
  unfold EventStore.executeTransaction
  split
  · exact hΦ.done _
  · refine hΦ.check fun pending _ => hΦ.retried E _ pending ?_ _ _ _
    refine hΦ.andThen (hΦ.inPhase _ (hΦ.quiet (quiet_preCheck _ _))) fun found => ?_
    cases found with
    | some stored => exact hΦ.done _
    | none =>
      refine hΦ.bind (hΦ.run config prepare _ _) fun result => ?_
      obtain ⟨result, tx⟩ := result
      cases result with
      | error error => exact hΦ.done _
      | ok decision => exact hΦ.inPhase _ (hΦ.finish E config tx decision)

variable {kindOf : EntityId → κ}

/-- Every store operation is composed of those parts, or compacts. -/
theorem operation [DecidableEq κ] (E : Env) (x : Operation A kindOf)
    (hcompact : ∀ entityId through, x = .compact entityId through →
      Φ _ (ask (.compactBelow entityId through))) : Φ _ (x.program E) := by
  cases x with
  | load entityId threshold =>
    refine hΦ.bind (hΦ.load _ entityId threshold) fun result => ?_
    cases result <;> exact hΦ.done _
  | session entityId config commits =>
    refine hΦ.bind (hΦ.andThen (hΦ.load _ entityId _) fun loaded =>
      hΦ.commitAll config commits loaded) fun result => ?_
    cases result <;> exact hΦ.done _
  | execute entityId config command metadata =>
    refine hΦ.bind (hΦ.execute config entityId command metadata) fun result => ?_
    cases result <;> exact hΦ.done _
  | executeWithResponse entityId config command metadata respond =>
    exact hΦ.bind (hΦ.executeWithResponse E config entityId command metadata respond)
      fun _ => hΦ.done _
  | transact config metadata prepare =>
    refine hΦ.bind (hΦ.run config prepare _ _) fun result => ?_
    obtain ⟨result, tx⟩ := result
    cases result with
    | error error => exact hΦ.done _
    | ok decision => exact hΦ.bind (hΦ.transactionCommit config tx metadata) fun _ => hΦ.done _
  | executeTransaction config identity metadata prepare =>
    exact hΦ.bind (hΦ.executeTransaction E config identity metadata prepare) fun _ => hΦ.done _
  | compact entityId through =>
    exact hΦ.bind (hcompact entityId through rfl) fun _ => hΦ.done _

end Transactions

end Composed

section Loads

def Ask.ofLoad : Ask → Bool
  | .span _ | .snapshot _ | .eventsAfter _ _ | .putSnapshot _ => true
  | _ => false

variable {P : Ask → Prop} (hP : ∀ a : Ask, a.ofLoad = true → P a)

include hP

theorem asks_loadOnce (A : Aggregate) (entityId : EntityId) : (loadOnce A entityId).Asks P := by
  refine .andThen (asks_ask (hP _ rfl)) fun snapshot => .check fun loaded _ => ?_
  exact .andThen (asks_ask (hP _ rfl)) fun events => .check fun _ _ => trivial

theorem asks_loadRetried (A : Aggregate) (entityId : EntityId) (left : Nat) :
    (loadRetried A entityId left).Asks P := by
  induction left with
  | zero => exact asks_loadOnce hP A entityId
  | succ left ih =>
    refine (asks_loadOnce hP A entityId).bind fun result => ?_
    cases result with
    | error error =>
      simp only
      split
      · exact ih
      · trivial
    | ok loaded => trivial

theorem asks_catchUpSnapshot {A : Aggregate} (loaded : Loaded A) :
    (catchUpSnapshot loaded).Asks P := by
  unfold catchUpSnapshot
  split
  · trivial
  · simp only
    split
    · refine (asks_ask (hP _ rfl)).bind fun stored => ?_
      split <;> trivial
    · trivial

theorem asks_load (A : Aggregate) (entityId : EntityId) (threshold : Nat) :
    (loadWithCatchUp A entityId threshold).Asks P := by
  unfold loadWithCatchUp
  refine (asks_ask (hP _ rfl)).bind fun _ => ?_
  refine .andThen (asks_loadRetried hP A entityId _) fun replayed => ?_
  simp only
  split
  · exact (asks_catchUpSnapshot hP _).bind fun _ => trivial
  · trivial

end Loads

theorem Ask.ne_submit_of_ofLoad {a : Ask} (h : a.ofLoad = true) (q : Request) :
    a ≠ .submit q := by
  rintro rfl
  cases h

section Calls

variable {P : Ask → Prop} (hquiet : ∀ a : Ask, a.quiet = true → P a)
  (hload : ∀ a : Ask, a.ofLoad = true → P a)

include hquiet hload

theorem reading_asks : Reading fun _ p => p.Asks P where
  bind h hf := h.bind hf
  quiet h := h.mono hquiet
  load := asks_load hload

theorem composed_asks (hsubmit : ∀ q : Request, q.Decided → P (.submit q)) :
    Composed fun _ p => p.Asks P where
  toReading := reading_asks hquiet hload
  submit h := asks_ask (hsubmit _ h)

end Calls

def Ask.Decided (a : Ask) : Prop := ∀ q, a = .submit q → q.Decided

/-- Every request a store operation submits is a decided one. -/
theorem Operation.decided {κ : Type} {A : κ → Aggregate} {kindOf : EntityId → κ} [DecidableEq κ]
    (E : Env) (x : Operation A kindOf) : (x.program E).Asks Ask.Decided := by
  refine (composed_asks (fun a h q heq => ?_) (fun a h q heq => ?_) fun q h q' heq => ?_).operation
    E x fun entityId through _ => asks_ask fun q heq => nomatch heq
  · exact absurd heq (Ask.ne_submit_of_quiet h q)
  · exact absurd heq (Ask.ne_submit_of_ofLoad h q)
  · cases heq
    exact h

end EventStore
