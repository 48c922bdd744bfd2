import EventStore.Runs.Race
import EventStore.Runs.Duplicates
import EventStore.Runs.Quiet

/-!
What an execution answers, whatever the others do. Each step has its own account: what it learned
of the outcome row, that it is no duplicate unless a load saw one, and that a refused program ends
with the row or with a storage failure.
-/
namespace EventStore

open Result Program

namespace World

variable {ι : Type} [DecidableEq ι] (E : Env) (id : CommandId) (permitted : Outcome → Prop)
  (allowed : World ι → Ask → Prop) (i : ι)

abbrev Races {α : Type} (post : α → World ι → Prop) (p : Program α) (w : World ι) : Prop :=
  Script.Safe (ActsWhen E allowed i) (Keeps i) (Recorded id permitted)
    (Guarantees id permitted i) post p w

def Unseen : Prop :=
  ∀ w entityId after, allowed w (.eventsAfter entityId after) →
    ∀ event ∈ w.stores.eventsAfter entityId after, event.metadata.commandId ≠ some id

def Agreed (digest : String) : Prop := ∀ o, permitted o → o.digest = digest

/-- A result is a stored row, and after a refusal the row or a storage failure. -/
structure Answered (plain : Prop) (i : ι) (digest : String) (result : Except Error Outcome)
    (w : World ι) : Prop where
  stored : ∀ o, result = .ok o → w.row id = some o
  unique : plain → NotDuplicate result
  settled : Agreed permitted digest → w.refused i = true →
    ∀ e, result = .error e → e.isStorageFailure = true

variable {E id permitted allowed i} {plain : Prop} {digest : String}

omit [DecidableEq ι] in
theorem Answered.stable {result : Except Error Outcome} {w w' : World ι}
    (h : Answered id permitted plain i digest result w) (hkeeps : Keeps i w w') :
    Answered id permitted plain i digest result w' :=
  ⟨fun o ho => hkeeps.rows id o (h.stored o ho), h.unique,
    fun hagreed hrefused => h.settled hagreed (hkeeps.refused ▸ hrefused)⟩

variable {error : Error}

theorem notDuplicate_of_isStorageFailure (h : error.isStorageFailure = true) :
    error.isDuplicateCommand = false := by
  cases error <;> simp_all [Error.isStorageFailure, Error.isDuplicateCommand]

theorem races_ask {a : Ask} (ha : ∀ q, a ≠ .submit q) {post : Answer a → World ι → Prop}
    {w : World ι}
    (h : ∀ t answer u, Keeps i w t → t.Recorded id permitted → allowed t a →
      Acts E i t a answer u → u.refused i = w.refused i → post answer u) :
    Races E id permitted allowed i post (ask a) w := by
  refine Script.Safe.ask fun t hkeeps hrec answer u hact => ?_
  refine ⟨hact.2.guarantees hrec fun q hq => absurd hq (ha q), ?_⟩
  refine h t answer u hkeeps hrec hact.1 hact.2 ?_
  rw [hact.2.refused_own ha, hkeeps.refused]

variable {b : Bool}

theorem races_quiet {α : Type} {p : Program α} {w : World ι}
    (hp : p.Asks fun a => ∀ q, a ≠ .submit q) (hb : w.refused i = b) :
    Races E id permitted allowed i (fun _ u => u.refused i = b) p w :=
  Script.Safe.of_asks hp hb (fun _ _ ht hu => hu.refused.trans ht) fun _ _ _ _ ha hrec ht h =>
    ⟨h.2.guarantees hrec fun q hq => absurd hq (ha q), (h.2.refused_own ha).trans ht⟩

section Load

variable (A : Aggregate)

variable (id allowed i) in
/-- A load leaves refusals as they were, and no sign of a command its reads did not see. -/
structure LoadedUnseen (b : Bool) (result : Except Error (Loaded A)) (w : World ι) : Prop where
  refused : w.refused i = b
  unique : NotDuplicate result
  unseen : Unseen id allowed → ∀ loaded, result = .ok loaded → id ∉ loaded.seenCommandIds

variable {w : World ι} {b : Bool}

theorem loadOnce_races (entityId : EntityId) (hb : w.refused i = b) :
    Races E id permitted allowed i (fun r => LoadedUnseen id allowed i A b (r.map Prod.fst))
      (loadOnce A entityId) w := by
  refine .andThen (fun r u => u.refused i = b ∧ NotDuplicate r) ?_ ?_ ?_
  · refine races_ask (by simp) fun t answer u _ _ _ hact hu => ⟨hu.trans hb, ?_⟩
    cases hact with
    | snapshot => simp
    | snapshotFails _ h => simpa using notDuplicate_of_isStorageFailure h
  · exact fun e t ⟨ht, he⟩ => ⟨ht, by simpa using he, by rintro _ _ ⟨⟩⟩
  · rintro snapshot t ⟨ht, -⟩
    refine .check (fun e he => ⟨ht, ?_, by rintro _ _ ⟨⟩⟩) fun loaded hloaded => ?_
    · have := start_notDuplicate A entityId snapshot e he
      simpa using this
    refine .andThen (fun r u => u.refused i = b ∧ NotDuplicate r ∧
      ∀ events, r = .ok events → Unseen id allowed →
        ∀ event ∈ events, event.metadata.commandId ≠ some id) ?_ ?_ ?_
    · refine races_ask (by simp) fun t' answer u _ _ hallowed hact hu => ⟨hu.trans ht, ?_⟩
      cases hact with
      | eventsAfter =>
        refine ⟨by simp, ?_⟩
        rintro _ ⟨⟩ hunseen event hevent
        exact hunseen t' _ _ hallowed event hevent
      | eventsAfterFails _ _ h => exact ⟨by simpa using notDuplicate_of_isStorageFailure h, by simp⟩
    · exact fun e t ⟨ht, he, _⟩ => ⟨ht, by simpa using he, by rintro _ _ ⟨⟩⟩
    · rintro events t' ⟨ht', -, hevents⟩
      refine .check (fun e he => ⟨ht', ?_, by rintro _ _ ⟨⟩⟩)
        fun loaded' hloaded' => ⟨ht', by simp, ?_⟩
      · have := replayAll_notDuplicate A loaded events e he
        simpa using this
      · rintro hunseen _ ⟨⟩ hmem
        rcases mem_seen_replayAll hloaded' hmem with hseen | ⟨event, hevent, hid⟩
        · simp [seen_start hloaded] at hseen
        · exact hevents events rfl hunseen event hevent hid

theorem loadWithCatchUp_races (entityId : EntityId) (threshold : Nat) (hb : w.refused i = b) :
    Races E id permitted allowed i (LoadedUnseen id allowed i A b)
      (loadWithCatchUp A entityId threshold) w := by
  refine safe_load (races_quiet (asks_ask (by simp)) hb)
    (fun t ht => loadOnce_races A entityId ht) (fun _ _ h => h.refused) ?_ threshold
  intro loaded payload t h _
  refine (races_quiet (asks_ask (by simp)) h.refused).mono fun stored u hu => ?_
  refine ⟨⟨hu, by simp, h.unseen⟩, fun _ => ⟨hu, by simp, ?_⟩⟩
  rintro hunseen _ ⟨⟩
  exact h.unseen hunseen loaded rfl

end Load

variable {stored o : Outcome}

section Rows

variable {w : World ι}

omit [DecidableEq ι] in
theorem outcome_eq {id : CommandId} (hid : checkCommandId id = .ok ()) (w : World ι) :
    w.stores.outcome id = .ok (w.row id) := by
  simp [Stores.outcome, hid, row, bind, Except.bind, pure, Except.pure]

theorem sameCommand_cases (stored : Outcome) (digest : String) :
    (stored.digest = digest ∧ sameCommand stored digest = .ok stored) ∨
      stored.digest ≠ digest ∧
        sameCommand stored digest = .error (.idempotencyKeyReuse stored.commandId stored) := by
  by_cases h : stored.digest = digest
  · exact .inl ⟨h, by simp [sameCommand, h]⟩
  · exact .inr ⟨h, by simp [sameCommand, h]⟩

variable (id permitted i digest) in
structure PreChecked (result : Except Error (Option Outcome)) (w : World ι) : Prop where
  found : ∀ o, result = .ok (some o) → w.row id = some o ∧ permitted o
  absent : result = .ok none → w.refused i = false
  unique : NotDuplicate result
  settled : Agreed permitted digest → w.refused i = true →
    ∀ e, result = .error e → e.isStorageFailure = true

theorem preCheck_races (hid : checkCommandId id = .ok ()) :
    Races E id permitted allowed i (PreChecked id permitted i digest) (preCheck id digest) w := by
  refine .andThen (PreChecked id permitted i digest) ?_ ?_ ?_
  · refine races_ask (by simp) fun t answer u hkeeps hrec _ hact hu => ?_
    cases hact with
    | outcome =>
      rw [outcome_eq hid]
      refine ⟨?_, ?_, by simp, by simp⟩
      · intro o ho
        have hrow : t.row id = some o := by simpa using ho
        exact ⟨hrow, hrec.stored o hrow⟩
      intro hnone
      rw [Bool.eq_false_iff]
      intro hrefused
      obtain ⟨o, ho⟩ := hrec.refused i hrefused
      simp [ho] at hnone
    | outcomeFails _ h =>
      refine ⟨by simp, by simp, by simpa using notDuplicate_of_isStorageFailure h, ?_⟩
      rintro - - _ ⟨⟩
      exact h
  · exact fun e t h => h
  · intro found t h
    cases found with
    | none => exact h
    | some stored =>
      refine .check ?_ ?_
      all_goals rcases sameCommand_cases stored digest with ⟨hd, hs⟩ | ⟨hd, hs⟩ <;> rw [hs]
      · simp
      · rintro _ ⟨⟩
        refine ⟨by simp, by simp, by simp [Error.isDuplicateCommand], fun hagreed => ?_⟩
        exact absurd (hagreed stored (h.found stored rfl).2) hd
      · rintro _ ⟨⟩
        exact ⟨by simpa using h.found stored rfl, by simp, by simp, by simp⟩
      · simp

variable (id permitted i) in
structure Read (result : Option (Except Error (Option Outcome))) (w : World ι) : Prop where
  found : ∀ o, result = some (.ok (some o)) → w.row id = some o ∧ permitted o
  absent : result = some (.ok none) → w.refused i = false
  failed : ∀ e, result = some (.error e) → e.isStorageFailure = true

theorem outcomeWithin_races (hid : checkCommandId id = .ok ()) :
    Races E id permitted allowed i
      (fun r u => Read id permitted i r u ∧ u.refused i = w.refused i)
      (ask (.outcomeWithin id)) w := by
  refine races_ask (by simp) fun t answer u _ hrec _ hact hu => ⟨?_, hu⟩
  cases hact with
  | outcomeWithin =>
    rw [outcome_eq hid]
    refine ⟨?_, ?_, by simp⟩
    · intro o ho
      have hrow : t.row id = some o := by simpa using ho
      exact ⟨hrow, hrec.stored o hrow⟩
    · intro hnone
      rw [Bool.eq_false_iff]
      intro hrefused
      obtain ⟨o, ho⟩ := hrec.refused i hrefused
      simp [ho] at hnone
  | outcomeWithinFails _ h =>
    refine ⟨by simp, by simp, ?_⟩
    rintro _ ⟨⟩
    exact h
  | stalls => exact ⟨by simp, by simp, by simp⟩

def PolledRow (id : CommandId) (permitted : Outcome → Prop) (w : World ι) : Polled → Prop
  | .found o => w.row id = some o ∧ permitted o
  | .corrupt error => error.isStorageFailure = true
  | _ => True

omit [DecidableEq ι] in
theorem Read.polledRow {answer : Option (Except Error (Option Outcome))} {polled : Polled}
    (h : Read id permitted i answer w) (hpolled : polledBy answer = some polled) :
    PolledRow id permitted w polled := by
  unfold polledBy at hpolled
  split at hpolled <;> cases hpolled
  · trivial
  · exact h.found _ rfl
  · rfl
  · trivial

theorem pollForRow_races (hid : checkCommandId id = .ok ()) (window reads waited : Nat)
    (hb : w.refused i = b) :
    Races E id permitted allowed i
      (fun polled u => u.refused i = b ∧ PolledRow id permitted u polled)
      (pollForRow id window reads waited) w := by
  induction hn : window - waited using Nat.strong_induction_on generalizing w reads waited with
  | _ n ih =>
    rw [pollForRow]
    refine (outcomeWithin_races hid).bind fun answer t ht => ?_
    have hb' := ht.2.trans hb
    cases hpolled : polledBy answer with
    | some polled => exact ⟨hb', ht.1.polledRow hpolled⟩
    | none =>
      dsimp only
      split
      · exact ⟨hb', trivial⟩
      · have := pollDelay_pos reads
        exact ih _ (by omega) _ _ hb' rfl

/-- The row a settled commit reports: its own, or the one recorded before. -/
def settledRow (stored : Outcome) : Settled → Outcome
  | .committed => stored
  | .replayed outcome => outcome

omit [DecidableEq ι] in
theorem answered_error (hunique : error.isDuplicateCommand = false)
    (hsettled : Agreed permitted digest → w.refused i = true → error.isStorageFailure = true) :
    Answered id permitted plain i digest (.error error) w := by
  refine ⟨by simp, fun _ => by simpa using hunique, ?_⟩
  rintro hagreed hrefused _ ⟨⟩
  exact hsettled hagreed hrefused

omit [DecidableEq ι] in
theorem answered_ok (h : w.row id = some o) : Answered id permitted plain i digest (.ok o) w := by
  refine ⟨?_, fun _ => by simp, by simp⟩
  rintro _ ⟨⟩
  exact h

omit [DecidableEq ι] in
theorem answered_replayedAs (h : w.row id = some o ∧ permitted o) :
    Answered id permitted plain i digest ((replayedAs o digest).map (settledRow stored)) w := by
  rcases sameCommand_cases o digest with ⟨-, hs⟩ | ⟨hd, hs⟩
  · simp only [replayedAs, hs]
    exact answered_ok h.1
  · simp only [replayedAs, hs]
    exact answered_error rfl fun hagreed => absurd (hagreed o h.2) hd

theorem settle_races (hid : checkCommandId id = .ok ()) (window : Nat) {result : Except Error Unit}
    (hstored : result = .ok () → w.row id = some stored)
    (hrefused : Agreed permitted digest → w.refused i = true →
      ∃ c, result = .error (.outcomeConflict c)) (hunique : NotDuplicate result) :
    Races E id permitted allowed i
      (fun r => Answered id permitted plain i digest (r.map (settledRow stored)))
      (settle E id digest window result) w := by
  cases result with
  | ok _ => exact answered_ok (hstored rfl)
  | error error =>
    by_cases hconflict : ∃ c, error = .outcomeConflict c
    · obtain ⟨c, rfl⟩ := hconflict
      refine (outcomeWithin_races hid).bind fun answer t ht => ?_
      unfold settleConflict
      split
      · exact answered_replayedAs (ht.1.found _ rfl)
      · refine answered_error rfl fun _ hr => ?_
        simp [ht.1.absent rfl] at hr
      · have := ht.1.failed _ rfl
        exact answered_error (notDuplicate_of_isStorageFailure this) fun _ _ => this
      · exact answered_error rfl fun _ _ => rfl
    have hnot : Agreed permitted digest → ¬w.refused i = true := by
      intro hagreed hr
      obtain ⟨c, hc⟩ := hrefused hagreed hr
      exact hconflict ⟨c, Except.error.inj hc⟩
    by_cases hindeterminate : ∃ source, error = .indeterminate source
    · obtain ⟨source, rfl⟩ := hindeterminate
      refine (pollForRow_races hid window 0 0 rfl).bind fun polled t ht => ?_
      rw [← ht.1] at hnot
      unfold settlePolled
      split
      · exact answered_replayedAs ht.2
      · exact answered_error (notDuplicate_of_isStorageFailure ht.2) fun _ _ => ht.2
      all_goals exact answered_error rfl fun hagreed hr => absurd hr (hnot hagreed)
    have hdup : error.isDuplicateCommand = false := by simpa using hunique
    rw [settle, settling_error E id digest (not_exists.mp hconflict)
      (not_exists.mp hindeterminate)]
    by_cases hlost : mayHaveLostTheRace error = true
    · rw [if_pos hlost]
      refine (outcomeWithin_races hid).bind fun answer t ht => ?_
      rw [← ht.2] at hnot
      unfold settleRace
      split
      · exact answered_replayedAs (ht.1.found _ rfl)
      · exact answered_error rfl fun _ _ => rfl
      · exact answered_error hdup fun hagreed hr => absurd hr (hnot hagreed)
    · rw [if_neg hlost]
      exact answered_error hdup fun hagreed hr => absurd hr (hnot hagreed)

end Rows

section Commands

variable {w : World ι} {pending : PendingCommand} {ε : Type}

variable (id permitted) in
structure Enters (pending : PendingCommand) : Prop where
  commandId : pending.commandId = id
  valid : checkCommandId id = .ok ()
  permitted : ∀ o, o.commandId = id → o.digest = pending.digest → permitted o

variable {q : Request}

theorem Enters.records (h : Enters id permitted pending) (hq : q.outcome = some o)
    (hid : o.commandId = pending.commandId) (hdigest : o.digest = pending.digest) :
    q.Records id permitted :=
  ⟨o, hq, hid.trans h.commandId, fun _ => h.permitted _ (hid.trans h.commandId) hdigest⟩

variable (permitted i digest) in
structure Submitted (q : Request) (result : Except Error Unit) (w : World ι) : Prop where
  row : ∀ o, result = .ok () → q.storedOutcome = some o → w.row o.commandId = some o
  refused : Agreed permitted digest → w.refused i = true →
    ∃ c, result = .error (.outcomeConflict c)
  unique : NotDuplicate result

theorem submit_races (digest : String) (hq : q.Records id permitted)
    (hb : Agreed permitted digest → w.refused i = false) :
    Races E id permitted allowed i (Submitted permitted i digest q) (ask (.submit q)) w := by
  refine Script.Safe.ask fun t hkeeps hrec answer u hact => ?_
  refine ⟨hact.2.guarantees hrec fun q' hq' => by cases hq'; exact hq, ?_, ?_, hact.2.notDuplicate⟩
  · rintro o rfl ho
    exact hact.2.row_of_ok ho
  · intro hagreed hr
    rcases hact.2.refused_recorded hq hr with hr | ⟨hc, -⟩
    · rw [hkeeps.refused, hb hagreed] at hr
      cases hr
    · exact hc

def reported : Except Failed (CommandOutcome ε) → Except Error Outcome
  | .error failed => .error failed.error
  | .ok outcome => .ok outcome.outcome

theorem submitSettled_races (hp : Enters id permitted pending) (events : List SerializedEvent)
    (typedEvents : List ε) (window : Nat) (hq : q.Records id permitted)
    (hstored : q.storedOutcome = some stored) (hid : stored.commandId = pending.commandId)
    (hdigest : stored.digest = pending.digest)
    (hb : Agreed permitted pending.digest → w.refused i = false) :
    Races E id permitted allowed i
      (fun r => Answered id permitted plain i pending.digest (r.map (·.outcome)))
      (submitSettled E q stored events typedEvents window) w := by
  refine (submit_races _ hq hb).bind fun result t ht => ?_
  rw [hid, hp.commandId, hdigest]
  have hrow : result = .ok () → t.row id = some stored := by
    intro hok
    have := ht.row stored hok hstored
    rwa [hid, hp.commandId] at this
  refine .andThen
    (fun r => Answered id permitted plain i pending.digest (r.map (settledRow stored)))
    (settle_races hp.valid window hrow ht.refused ht.unique) ?_ ?_
  · exact fun e t h => h
  · intro settled t h
    cases settled <;> exact h

theorem persistRejection_races (hp : Enters id permitted pending) (window : Nat)
    (rejection : Rejection) (hb : Agreed permitted pending.digest → w.refused i = false) :
    Races E id permitted allowed i
      (fun r => Answered id permitted plain i pending.digest (r.map (·.outcome)))
      (persistRejection (ε := ε) E pending window rejection) w := by
  refine .check (fun e he => ?_) fun rejection _ => ?_
  · refine answered_error (canonical_notDuplicate E rejection e he) fun hagreed hr => ?_
    simp [hb hagreed] at hr
  · exact submitSettled_races hp [] [] window (hp.records rfl rfl rfl) rfl rfl rfl hb

theorem inPhase_races (phase : Phase) {p : Program (Except Error (CommandOutcome ε))}
    (h : Races E id permitted allowed i
      (fun r => Answered id permitted plain i digest (r.map (·.outcome))) p w) :
    Races E id permitted allowed i (fun r => Answered id permitted plain i digest (reported r))
      (inPhase phase p) w := by
  refine h.bind fun r t ht => ?_
  cases r <;> exact ht

theorem retry_of_isStorageFailure {failed : Failed} (h : failed.error.isStorageFailure = true) :
    failed.retry = .transient ∨ failed.retry = .never := by
  obtain ⟨error, phase⟩ := failed
  cases error <;> simp_all [Error.isStorageFailure] <;> cases phase <;>
    simp [Failed.retry, Retry.of, Retry.ofDecision]

section Retry

variable {config : OutcomeConfig} {returns : Retry → Bool}
  {attempt : Program (Except Failed (CommandOutcome ε))}

theorem exhausted_races (hp : Enters id permitted pending) (hreturns : returns .transient = true)
    (attempts : Nat) {failed : Failed} (hretry : failed.retry ≠ .never)
    (h : Answered id permitted plain i pending.digest (.error failed.error) w) :
    Races E id permitted allowed i
      (fun r => Answered id permitted plain i pending.digest (r.map (·.outcome)))
      (exhausted (ε := ε) E config pending returns attempts failed) w := by
  unfold exhausted
  split
  · exact h
  · rename_i hnot
    refine persistRejection_races hp _ _ fun hagreed => ?_
    rw [Bool.eq_false_iff]
    intro hr
    rcases retry_of_isStorageFailure (h.settled hagreed hr _ rfl) with hf | hf
    · simp [hf, hreturns] at hnot
    · exact hretry hf

theorem afterAttempt_races (hp : Enters id permitted pending)
    {next : Failed → Program (Except Error (CommandOutcome ε))}
    {result : Except Failed (CommandOutcome ε)}
    (h : Answered id permitted plain i pending.digest (reported result) w)
    (hnext : ∀ failed, failed.retry ≠ .never →
      Answered id permitted plain i pending.digest (.error failed.error) w →
      Races E id permitted allowed i
        (fun r => Answered id permitted plain i pending.digest (r.map (·.outcome)))
        (next failed) w) :
    Races E id permitted allowed i
      (fun r => Answered id permitted plain i pending.digest (r.map (·.outcome)))
      (afterAttempt E config pending next result) w := by
  unfold afterAttempt
  split
  · exact h
  · refine persistRejection_races hp _ _ fun hagreed => ?_
    rw [Bool.eq_false_iff]
    intro hr
    have := h.settled hagreed hr _ rfl
    cases this
  · split
    · exact h
    · rename_i hnever
      exact hnext _ hnever h

/-- A call-free property of the program's result survives quiet calls. -/
theorem races_after_quiet {α β : Type} {p : Program α} {f : α → Program β}
    {post : β → World ι → Prop} {result : Except Error Outcome}
    (hp : p.Asks fun a => ∀ q, a ≠ .submit q)
    (h : Answered id permitted plain i digest result w)
    (hf : ∀ a t, Answered id permitted plain i digest result t →
      Races E id permitted allowed i post (f a) t) :
    Races E id permitted allowed i post (p.bind f) w := by
  have hkeep : Races E id permitted allowed i
      (fun _ u => Answered id permitted plain i digest result u) p w := by
    refine Script.Safe.of_asks hp h (fun _ _ ht hu => ht.stable hu)
      fun t a answer u ha hrec ht hu => ?_
    have hg := hu.2.guarantees hrec fun q hq => absurd hq (ha q)
    exact ⟨hg, ht.stable ⟨hg.rows, hu.2.refused_own ha⟩⟩
  exact hkeep.bind hf

theorem retried_races (hp : Enters id permitted pending) (hreturns : returns .transient = true)
    (hattempt : ∀ w, Races E id permitted allowed i
      (fun r => Answered id permitted plain i pending.digest (reported r)) attempt w)
    (left number : Nat) :
    Races E id permitted allowed i
      (fun r => Answered id permitted plain i pending.digest (r.map (·.outcome)))
      (retried E config pending attempt returns left number) w := by
  induction left generalizing w number with
  | zero =>
    refine (hattempt w).bind fun result t ht => afterAttempt_races hp ht fun failed hretry h => ?_
    exact exhausted_races hp hreturns number hretry h
  | succ left ih =>
    refine (hattempt w).bind fun result t ht => afterAttempt_races hp ht fun failed hretry h => ?_
    refine races_after_quiet ((quiet_deadlinePassed config.retry).mono
      fun _ => Ask.ne_submit_of_quiet) h fun passed t' h' => ?_
    cases passed with
    | true => exact exhausted_races hp hreturns number hretry h'
    | false => exact ih (number + 1)

end Retry

theorem readyProjectors_races (projectors : List CommitProjector) (hb : w.refused i = b) :
    Races E id permitted allowed i (fun r u => u.refused i = b ∧ NotDuplicate r)
      (readyProjectors projectors) w := by
  unfold readyProjectors
  split
  · exact ⟨hb, by simp⟩
  · refine races_ask (by simp) fun t answer u _ _ _ hact hu => ⟨hu.trans hb, ?_⟩
    cases hact with
    | declareHistory => simp
    | declareHistoryFails _ h => simpa using notDuplicate_of_isStorageFailure h

/-- A program's result in a phase: its error tagged, its value as it is. -/
theorem safe_inPhase {α : Type} (phase : Phase) {p : Program (Except Error α)}
    {post : Except Error α → World ι → Prop}
    (h : Races E id permitted allowed i post p w) :
    Races E id permitted allowed i
      (fun r u => match r with
        | .error failed => post (.error failed.error) u
        | .ok a => post (.ok a) u)
      (inPhase phase p) w := by
  refine h.bind fun r t ht => ?_
  cases r <;> exact ht

omit [DecidableEq ι] in
theorem answered_early (hb : w.refused i = false) (hunique : error.isDuplicateCommand = false) :
    Answered id permitted plain i digest (.error error) w :=
  answered_error hunique fun _ hr => by simp [hb] at hr

section Single

variable {A : Aggregate} {config : StoreConfig A} {outcomes : OutcomeConfig}

theorem record_races (hp : Enters id permitted pending) (commit : Commit Empty)
    {outcome : Outcome} (typedEvents : List A.Event)
    (hid : outcome.commandId = pending.commandId) (hdigest : outcome.digest = pending.digest)
    (hb : w.refused i = false) :
    Races E id permitted allowed i
      (fun r => Answered id permitted plain i pending.digest (reported r))
      (StoreConfig.record E outcomes commit outcome typedEvents) w :=
  inPhase_races .committing (submitSettled_races hp _ _ _ (hp.records rfl hid hdigest) rfl hid
    hdigest fun _ => hb)

theorem recordEvents_races (hp : Enters id permitted pending) (loaded : Loaded A)
    (events : List A.Event) {outcome : A.State → Except Error Outcome}
    (houtcome : ∀ state, NotDuplicate (outcome state) ∧ ∀ o, outcome state = .ok o →
      o.commandId = pending.commandId ∧ o.digest = pending.digest)
    (hb : w.refused i = false) :
    Races E id permitted allowed i
      (fun r => Answered id permitted plain i pending.digest (reported r))
      (config.recordEvents E outcomes pending loaded events outcome) w := by
  refine .andThen _ (safe_inPhase .internal (readyProjectors_races _ hb)) ?_ ?_
  · exact fun e t h => answered_early h.1 (by simpa using h.2)
  · intro _ t h
    refine (races_quiet ((quiet_stampCommitId _).mono fun _ => Ask.ne_submit_of_quiet) h.1).bind
      fun stamped t' ht' => ?_
    refine .check (fun e he => ?_) fun staged _ => .check (fun e he => ?_) fun o ho => ?_
    · obtain ⟨error, herror, rfl⟩ := internally_eq_error.mp he
      exact answered_early ht' (stage_notDuplicate config loaded events stamped error herror)
    · obtain ⟨error, herror, rfl⟩ := internally_eq_error.mp he
      exact answered_early ht' ((houtcome _).1 error herror)
    · obtain ⟨hid, hdigest⟩ := (houtcome _).2 o (internally_eq_ok.mp ho)
      exact record_races hp _ _ hid hdigest ht'

theorem attemptRejected_races (hp : Enters id permitted pending) (loaded : Loaded A)
    (failure : A.Failure) (hb : w.refused i = false) :
    Races E id permitted allowed i
      (fun r => Answered id permitted plain i pending.digest (reported r))
      (config.attemptRejected E outcomes pending loaded failure) w := by
  unfold StoreConfig.attemptRejected
  split
  · exact answered_early hb rfl
  · rename_i rejection _
    refine .check (fun e he => ?_) fun canonical _ => ?_
    · obtain ⟨error, herror, rfl⟩ := internally_eq_error.mp he
      exact answered_early hb (canonical_notDuplicate E rejection error herror)
    · simp only
      split
      · exact record_races hp _ _ rfl rfl hb
      · refine recordEvents_races hp loaded _ (fun state => ⟨by simp, ?_⟩) hb
        rintro _ ⟨⟩
        exact ⟨rfl, rfl⟩

variable {respond : A.State → List A.Event → Except String (Option Bytes)}

theorem acceptedOutcome_spec (state : A.State) (events : List A.Event) :
    NotDuplicate (StoreConfig.acceptedOutcome pending respond state events) ∧
      ∀ o, StoreConfig.acceptedOutcome pending respond state events = .ok o →
        o.commandId = pending.commandId ∧ o.digest = pending.digest := by
  unfold StoreConfig.acceptedOutcome
  split
  · exact ⟨by simp [Error.isDuplicateCommand], by simp⟩
  all_goals
    refine ⟨by simp, ?_⟩
    rintro _ ⟨⟩
    exact ⟨rfl, rfl⟩

theorem attemptAccepted_races (hp : Enters id permitted pending) (loaded : Loaded A)
    (events : List A.Event) (hb : w.refused i = false) :
    Races E id permitted allowed i
      (fun r => Answered id permitted plain i pending.digest (reported r))
      (config.attemptAccepted E outcomes pending respond loaded events) w := by
  unfold StoreConfig.attemptAccepted
  split
  · refine .check (fun e he => ?_) fun o ho => ?_
    · obtain ⟨error, herror, rfl⟩ := internally_eq_error.mp he
      exact answered_early hb ((acceptedOutcome_spec _ _).1 error herror)
    · obtain ⟨hid, hdigest⟩ := (acceptedOutcome_spec _ _).2 o (internally_eq_ok.mp ho)
      exact record_races hp _ _ hid hdigest hb
  · exact recordEvents_races hp loaded events (fun state => acceptedOutcome_spec state events) hb

theorem hasSeen_eq_false {loaded : Loaded A} {c : CommandId} (h : c ∉ loaded.seenCommandIds) :
    loaded.hasSeen c = false := by
  simp [Loaded.hasSeen, h]

theorem attemptWithResponse_races (hp : Enters id permitted pending)
    (hplain : plain → Unseen id allowed) (entityId : EntityId) (command : A.Command) :
    Races E id permitted allowed i
      (fun r => Answered id permitted plain i pending.digest (reported r))
      (config.attemptWithResponse E outcomes pending respond entityId command) w := by
  unfold StoreConfig.attemptWithResponse
  rw [hp.commandId]
  refine .andThen _ (safe_inPhase .deciding (preCheck_races hp.valid)) ?_ ?_
  · exact fun e t h => answered_error (by simpa using h.unique) fun hagreed hr =>
      h.settled hagreed hr _ rfl
  · intro found t h
    cases found with
    | some stored => exact answered_ok (h.found stored rfl).1
    | none =>
      refine .andThen _ (safe_inPhase .deciding
        (loadWithCatchUp_races A entityId config.catchUpThreshold (h.absent rfl))) ?_ ?_
      · exact fun e t h => answered_early h.refused (by simpa using h.unique)
      · intro loaded t h
        split
        · rename_i hseen
          refine ⟨by simp [reported], fun hp => ?_, fun _ hr => by simp [h.refused] at hr⟩
          simp [hasSeen_eq_false (h.unseen (hplain hp) loaded rfl)] at hseen
        · refine (races_quiet (asks_ask (by simp)) h.refused).bind fun services t' ht' => ?_
          split
          · exact attemptRejected_races hp loaded _ ht'
          · exact attemptAccepted_races hp loaded _ ht'

end Single

end Commands

end World

end EventStore
