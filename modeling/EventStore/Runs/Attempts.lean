import EventStore.Lib.Traces
import EventStore.Runs.Requests

/-!
What fence-aware retry makes of its attempts, over every sequence of answers. An attempt submits
at most one request, and one more only after a failed caller fence; what follows the last attempt
is its result, or the recording of a rejection that its failure explains.
-/
namespace EventStore

open Result Program

abbrev Trace := List (Script.Exchange Ask Answer)

namespace Program

variable {ε α β : Type} {p : Program (Except ε α)} {f : α → Program (Except ε β)} {trace : Trace}

theorem runs_andThen {result : Except ε β} (h : (andThen p f).Runs trace result) :
    (∃ e, p.Runs trace (.error e) ∧ result = .error e) ∨
      ∃ before after a, trace = before ++ after ∧ p.Runs before (.ok a) ∧
        (f a).Runs after result := by
  obtain ⟨before, after, x, rfl, hp, hx⟩ := Script.runs_bind.mp h
  cases x with
  | error e =>
    obtain ⟨rfl, rfl⟩ := hx
    exact .inl ⟨e, by simpa using hp, rfl⟩
  | ok a => exact .inr ⟨before, after, a, rfl, hp, hx⟩

theorem runs_check {x : Except ε α} {result : Except ε β} (h : (check x f).Runs trace result) :
    (∃ e, x = .error e ∧ trace = [] ∧ result = .error e) ∨
      ∃ a, x = .ok a ∧ (f a).Runs trace result := by
  cases x with
  | error e => exact .inl ⟨e, rfl, h⟩
  | ok a => exact .inr ⟨a, rfl, h⟩

theorem runs_inPhase {phase : Phase} {p : Program (Except Error α)} {result : Except Failed α}
    (h : (inPhase phase p).Runs trace result) : ∃ r, p.Runs trace r := by
  obtain ⟨before, after, r, rfl, hp, hr⟩ := Script.runs_bind.mp h
  refine ⟨r, ?_⟩
  cases r <;> obtain ⟨rfl, -⟩ := hr <;> simpa using hp

theorem runs_inPhase_ok {phase : Phase} {p : Program (Except Error α)} {a : α}
    (h : (inPhase phase p).Runs trace (.ok a)) : p.Runs trace (.ok a) := by
  obtain ⟨before, after, r, rfl, hp, hr⟩ := Script.runs_bind.mp h
  cases r with
  | error e => cases hr.2
  | ok a' =>
    obtain ⟨rfl, ⟨⟩⟩ := hr
    simpa using hp

theorem atMost_andThen {kind : Ask → Bool} {m n : Nat} (h : p.AsksAtMost kind m)
    (hf : ∀ a, (f a).AsksAtMost kind n) : (andThen p f).AsksAtMost kind (m + n) := by
  refine h.bind fun result => ?_
  cases result with
  | error e => exact .done kind n _
  | ok a => exact hf a

end Program

section Submission

def Unsubmitted (trace : Trace) : Prop := ∀ x ∈ trace, ∀ q, x.ask ≠ .submit q

theorem unsubmitted_nil : Unsubmitted [] := by simp [Unsubmitted]

theorem Unsubmitted.append {a b : Trace} (ha : Unsubmitted a) (hb : Unsubmitted b) :
    Unsubmitted (a ++ b) := by
  intro x hx
  rcases List.mem_append.mp hx with hx | hx
  · exact ha x hx
  · exact hb x hx

theorem Unsubmitted.of_quiet {α : Type} {p : Program α} (h : p.Quiet) {trace : Trace} {a : α}
    (hrun : p.Runs trace a) : Unsubmitted trace :=
  fun x hx => Ask.ne_submit_of_quiet (h.of_runs hrun x hx)

/-- Nothing, one request, or one more after a failed caller fence. -/
inductive Submission (first : Trace → Outcome → Prop) (fenced : Outcome → Prop) : Trace → Prop
  | silent {trace : Trace} (h : Unsubmitted trace) : Submission first fenced trace
  | once {before after : Trace} {q : Request} {answer : Except Error Unit} {outcome : Outcome}
      (hbefore : Unsubmitted before) (hafter : Unsubmitted after)
      (hq : q.outcome = some outcome) (h : first before outcome) :
      Submission first fenced (before ++ ⟨.submit q, answer⟩ :: after)
  | again {before after : Trace} {q q' : Request} {answer : Except Error Unit}
      {entityId : EntityId} {head : Int} {outcome outcome' : Outcome}
      (hbefore : Unsubmitted before) (hafter : Unsubmitted after)
      (hq : q.outcome = some outcome) (h : first before outcome)
      (hq' : q'.outcome = some outcome') (h' : fenced outcome') :
      Submission first fenced (before ++
        ⟨.submit q, .error (.fenceConflict entityId head .caller)⟩ ::
        ⟨.submit q', answer⟩ :: after)

variable {first first' : Trace → Outcome → Prop} {fenced : Outcome → Prop}

theorem Submission.mono {trace : Trace} (h : Submission first fenced trace)
    (himp : ∀ before outcome, first before outcome → first' before outcome) :
    Submission first' fenced trace := by
  cases h with
  | silent h => exact .silent h
  | once hbefore hafter hq h => exact .once hbefore hafter hq (himp _ _ h)
  | again hbefore hafter hq h hq' h' => exact .again hbefore hafter hq (himp _ _ h) hq' h'

theorem Submission.prepend {start trace : Trace} (hstart : Unsubmitted start)
    (h : Submission (fun before => first (start ++ before)) fenced trace) :
    Submission first fenced (start ++ trace) := by
  cases h with
  | silent h => exact .silent (hstart.append h)
  | once hbefore hafter hq h =>
    rw [← List.append_assoc]
    exact .once (hstart.append hbefore) hafter hq h
  | again hbefore hafter hq h hq' h' =>
    rw [← List.append_assoc]
    exact .again (hstart.append hbefore) hafter hq h hq' h'

end Submission

section Loop

/-- A failure that the streams' heads explain: a conflict, a gap, or a fence that the
engine added. -/
def Error.isStale : Error → Bool
  | .conflict _ _ | .sequenceGap _ _ _ | .fenceConflict _ _ .engine => true
  | _ => false

theorem retryOf_eq_conflict {error : Error} :
    Retry.of error = .conflict ↔ error.isStale = true := by
  cases error with
  | fenceConflict entityId head provenance => cases provenance <;> simp [Retry.of, Error.isStale]
  | _ => simp [Retry.of, Error.isStale]

theorem retry_eq_conflict {failed : Failed} :
    failed.retry = .conflict ↔ failed.phase = .committing ∧ failed.error.isStale = true := by
  obtain ⟨error, phase⟩ := failed
  cases phase with
  | internal => simp [Failed.retry]
  | deciding =>
    simp only [Failed.retry, Retry.ofDecision]
    split <;> simp_all
  | committing => simp [Failed.retry, retryOf_eq_conflict]

variable {ε : Type} (E : Env) (config : OutcomeConfig) (pending : PendingCommand)

inductive Ending (number : Nat) : Except Failed (CommandOutcome ε) → Trace →
    Except Error (CommandOutcome ε) → Prop
  | returned (outcome : CommandOutcome ε) : Ending number (.ok outcome) [] (.ok outcome)
  | failed {failed : Failed} {wait : Trace}
      (hrow : ∀ row, failed.error ≠ .journalRowTooLarge row) (hretry : failed.retry ≠ .conflict)
      (hwait : Unsubmitted wait) : Ending number (.error failed) wait (.error failed.error)
  | oversized {row : RowTooLarge} {phase : Phase} {recording : Trace}
      {result : Except Error (CommandOutcome ε)}
      (h : (persistRejection E pending config.recoveryWait row.toRejection).Runs
        recording result) :
      Ending number (.error ⟨.journalRowTooLarge row, phase⟩) recording result
  | exhausted {failed : Failed} {wait recording : Trace}
      {result : Except Error (CommandOutcome ε)} (hphase : failed.phase = .committing)
      (hstale : failed.error.isStale = true) (hwait : Unsubmitted wait)
      (h : (persistRejection E pending config.recoveryWait
        (config.staleFence (.retriesExhausted number))).Runs recording result) :
      Ending number (.error failed) (wait ++ recording) result

structure Retrial where
  trace : Trace
  failed : Failed
  wait : Trace

/-- Attempts that were retried, the last one, and what followed it, within the policy. -/
def Course (attempted : Trace → Except Failed (CommandOutcome ε) → Prop) (trace : Trace)
    (result : Except Error (CommandOutcome ε)) : Prop :=
  ∃ (retrials : List Retrial) (last : Trace) (r : Except Failed (CommandOutcome ε))
    (ending : Trace),
    trace = retrials.flatMap (fun retrial => retrial.trace ++ retrial.wait) ++ (last ++ ending) ∧
    retrials.length + 1 ≤ max 1 config.retry.maxAttempts ∧
    (∀ retrial ∈ retrials, attempted retrial.trace (.error retrial.failed) ∧
      retrial.failed.retry ≠ .never ∧ Unsubmitted retrial.wait) ∧
    attempted last r ∧ Ending E config pending (retrials.length + 1) r ending result

variable {E config pending} {attempt : Program (Except Failed (CommandOutcome ε))}
  {returns : Retry → Bool} {trace : Trace} {result : Except Error (CommandOutcome ε)}

theorem afterAttempt_runs {next : Failed → Program (Except Error (CommandOutcome ε))}
    {r : Except Failed (CommandOutcome ε)} (number : Nat)
    (h : (afterAttempt E config pending next r).Runs trace result) :
    Ending E config pending number r trace result ∨
      ∃ failed, r = .error failed ∧ (∀ row, failed.error ≠ .journalRowTooLarge row) ∧
        failed.retry ≠ .never ∧ (next failed).Runs trace result := by
  unfold afterAttempt at h
  split at h
  · obtain ⟨rfl, rfl⟩ := h
    exact .inl (.returned _)
  · exact .inl (.oversized h)
  · rename_i failed hrow
    have hrow : ∀ row, failed.error ≠ .journalRowTooLarge row := fun row heq =>
      hrow row failed.phase (by rw [← heq])
    split at h
    · rename_i hnever
      obtain ⟨rfl, rfl⟩ := h
      exact .inl (.failed hrow (by simp [hnever]) unsubmitted_nil)
    · rename_i hretry
      exact .inr ⟨failed, rfl, hrow, hretry, h⟩

theorem exhausted_runs {number : Nat} {failed : Failed} {wait : Trace}
    (hreturns : ∀ retry, retry ≠ .never → (returns retry = true ↔ retry = .transient))
    (hrow : ∀ row, failed.error ≠ .journalRowTooLarge row) (hretry : failed.retry ≠ .never)
    (hwait : Unsubmitted wait)
    (h : (exhausted E config pending returns number failed).Runs trace result) :
    Ending E config pending number (.error failed) (wait ++ trace) result := by
  unfold exhausted at h
  split at h
  · rename_i hreturn
    obtain ⟨rfl, rfl⟩ := h
    have htransient := (hreturns _ hretry).mp hreturn
    rw [List.append_nil]
    exact .failed hrow (by simp [htransient]) hwait
  · rename_i hrecord
    have hconflict : failed.retry = .conflict := by
      cases hcase : failed.retry with
      | never => exact absurd hcase hretry
      | transient => exact absurd ((hreturns _ hretry).mpr hcase) hrecord
      | conflict => rfl
    obtain ⟨hphase, hstale⟩ := retry_eq_conflict.mp hconflict
    exact .exhausted hphase hstale hwait h

/-- Every run of the retry loop is a course; by induction on the attempts left. -/
theorem retried_runs
    (hreturns : ∀ retry, retry ≠ .never → (returns retry = true ↔ retry = .transient))
    {left number : Nat}
    (h : (retried E config pending attempt returns left number).Runs trace result) :
    ∃ (retrials : List Retrial) (last : Trace) (r : Except Failed (CommandOutcome ε))
      (ending : Trace),
      trace = retrials.flatMap (fun retrial => retrial.trace ++ retrial.wait) ++
        (last ++ ending) ∧
      retrials.length ≤ left ∧
      (∀ retrial ∈ retrials, attempt.Runs retrial.trace (.error retrial.failed) ∧
        retrial.failed.retry ≠ .never ∧ Unsubmitted retrial.wait) ∧
      attempt.Runs last r ∧
      Ending E config pending (number + retrials.length) r ending result := by
  induction left generalizing number trace with
  | zero =>
    obtain ⟨last, ending, r, rfl, hlast, hr⟩ := Script.runs_bind.mp h
    refine ⟨[], last, r, ending, rfl, Nat.le_refl 0, by simp, hlast, ?_⟩
    rcases afterAttempt_runs number hr with hend | ⟨failed, rfl, hrow, hretry, hr⟩
    · exact hend
    · exact exhausted_runs hreturns hrow hretry unsubmitted_nil hr
  | succ left ih =>
    obtain ⟨last, rest, r, rfl, hlast, hr⟩ := Script.runs_bind.mp h
    rcases afterAttempt_runs number hr with hend | ⟨failed, rfl, hrow, hretry, hr⟩
    · exact ⟨[], last, r, rest, rfl, Nat.zero_le _, by simp, hlast, hend⟩
    · obtain ⟨wait, rest, passed, rfl, hwait, hr⟩ := Script.runs_bind.mp hr
      have hunsubmitted := Unsubmitted.of_quiet (quiet_deadlinePassed _) hwait
      cases passed with
      | true =>
        exact ⟨[], last, _, _, rfl, Nat.zero_le _, by simp, hlast,
          exhausted_runs hreturns hrow hretry hunsubmitted hr⟩
      | false =>
        obtain ⟨retrials, last', r, ending, rfl, hle, hretrials, hlast', hend⟩ := ih hr
        refine ⟨⟨last, failed, wait⟩ :: retrials, last', r, ending, by simp,
          by simpa using hle, ?_, hlast', ?_⟩
        · simpa using ⟨⟨hlast, hretry, hunsubmitted⟩, hretrials⟩
        · simpa [Nat.add_comm, Nat.add_left_comm] using hend

theorem fenceAwareRetry_runs
    (hreturns : ∀ retry, retry ≠ .never → (returns retry = true ↔ retry = .transient))
    {attempted : Trace → Except Failed (CommandOutcome ε) → Prop}
    (hattempt : ∀ trace r, attempt.Runs trace r → attempted trace r)
    (h : (fenceAwareRetry E config pending attempt returns).Runs trace result) :
    Course E config pending attempted trace result := by
  obtain ⟨retrials, last, r, ending, htrace, hle, hretrials, hlast, hend⟩ :=
    retried_runs hreturns h
  refine ⟨retrials, last, r, ending, htrace, by omega, fun retrial hretrial => ?_,
    hattempt _ _ hlast, by simpa [Nat.add_comm] using hend⟩
  obtain ⟨hrun, hrest⟩ := hretrials retrial hretrial
  exact ⟨hattempt _ _ hrun, hrest⟩

section Counting

variable {kind : Ask → Bool} (hsubmit : ∀ q, kind (.submit q) = false)
  (hwithin : ∀ id, kind (.outcomeWithin id) = false) (hdeadline : kind .pastDeadline = false)

include hsubmit hwithin

theorem persistRejection_asks (window : Nat) (rejection : Rejection) :
    (persistRejection (ε := ε) E pending window rejection).Asks fun a => kind a = false := by
  refine .check fun rejection _ => (asks_ask (hsubmit _)).bind fun answer => ?_
  exact .andThen (asks_settle (hwithin _) _ _ _ _) fun _ => trivial

theorem exhausted_asks (number : Nat) (failed : Failed) :
    (exhausted (ε := ε) E config pending returns number failed).Asks fun a => kind a = false := by
  unfold exhausted
  split
  · trivial
  · exact persistRejection_asks hsubmit hwithin _ _

theorem afterAttempt_atMost {next : Failed → Program (Except Error (CommandOutcome ε))} {n : Nat}
    (hnext : ∀ failed, (next failed).AsksAtMost kind n) (r : Except Failed (CommandOutcome ε)) :
    (afterAttempt E config pending next r).AsksAtMost kind n := by
  have hzero : ∀ {p : Program (Except Error (CommandOutcome ε))},
      (p.Asks fun a => kind a = false) → p.AsksAtMost kind n :=
    fun h => h.atMost.mono (Nat.zero_le n)
  unfold afterAttempt
  split
  · exact .done kind n _
  · exact hzero (persistRejection_asks hsubmit hwithin _ _)
  · split
    · exact .done kind n _
    · exact hnext _

include hdeadline

/-- A loop of attempts that each make a call at most once makes it at most once for each
attempt. -/
theorem retried_atMost (hattempt : attempt.AsksAtMost kind 1) (left number : Nat) :
    (retried E config pending attempt returns left number).AsksAtMost kind (left + 1) := by
  induction left generalizing number with
  | zero =>
    refine (hattempt.bind (n := 0) fun r =>
      afterAttempt_atMost hsubmit hwithin (fun failed => ?_) r).mono
      (by omega)
    exact (exhausted_asks hsubmit hwithin _ _).atMost
  | succ left ih =>
    refine (hattempt.bind (n := left + 1) fun r =>
      afterAttempt_atMost hsubmit hwithin (fun failed => ?_) r).mono (by omega)
    have hwait : (deadlinePassed config.retry).Asks fun a => kind a = false := by
      unfold deadlinePassed
      split
      · trivial
      · exact asks_ask hdeadline
    refine (hwait.atMost.bind (n := left + 1) fun passed => ?_).mono (by omega)
    cases passed with
    | true => exact (exhausted_asks hsubmit hwithin _ _).atMost.mono (Nat.zero_le _)
    | false => exact ih (number + 1)

theorem fenceAwareRetry_atMost (hattempt : attempt.AsksAtMost kind 1) :
    (fenceAwareRetry E config pending attempt returns).AsksAtMost kind
      (max 1 config.retry.maxAttempts) :=
  (retried_atMost hsubmit hwithin hdeadline hattempt _ 1).mono (by omega)

end Counting

end Loop

end EventStore
