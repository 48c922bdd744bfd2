import EventStore.Core.Waiting

/-!
Recovery of a commit whose result is unknown: reads and sleeps until the sleeps add up to the
window. The sum of the window and the grace period is the only operation that can overflow.
-/
namespace EventStore.Recovery

def polls (steps : List TimeSpan) : List Action :=
  steps.flatMap fun step => [.read, .sleep step]

def total (steps : List TimeSpan) : Nat := (steps.map (·.nanos)).sum

@[simp] theorem polls_concat (steps : List TimeSpan) (step : TimeSpan) :
    polls (steps ++ [step]) = polls steps ++ [.read, .sleep step] := by
  simp [polls]

@[simp] theorem total_concat (steps : List TimeSpan) (step : TimeSpan) :
    total (steps ++ [step]) = total steps + step.nanos := by
  simp [total]

@[simp] theorem count_polls (steps : List TimeSpan) : (polls steps).count .read = steps.length := by
  induction steps with
  | nil => rfl
  | cons step steps ih =>
    have hcons : polls (step :: steps) = .read :: .sleep step :: polls steps := rfl
    rw [hcons, List.count_cons_self, List.count_cons_of_ne (by simp), ih, List.length_cons]

/-- Reads that found no row, each with a sleep that ended in time. -/
def Absent (timing : Timing) (count : Nat) : Prop :=
  ∀ n < count, timing.read n = some (.ok none) ∧ timing.slept n = true

theorem Absent.last {timing : Timing} {count n : Nat} {outcome : Outcome}
    (h : Absent timing count) (hn : n < count + 1)
    (hread : timing.read n = some (.ok (some outcome))) : n = count := by
  by_contra hne
  have hnone := (h n (by omega)).1
  rw [hread] at hnone
  cases hnone

structure Polling (timing : Timing) (window : TimeSpan) (steps : List TimeSpan) (s : PollState) :
    Prop where
  actions : s.actions = polls steps
  reads : s.reads = steps.length
  waited : s.waited.nanos = total steps
  within : total steps ≤ window.nanos
  delay_pos : 0 < s.delay.nanos
  delay_le : s.delay.nanos ≤ 10 ^ 9
  absent : Absent timing steps.length

inductive Ends (timing : Timing) (window : TimeSpan) (steps : List TimeSpan) :
    Polled × List Action → Prop
  | found {outcome : Outcome} (h : timing.read steps.length = some (.ok (some outcome))) :
      Ends timing window steps (.found outcome, polls steps ++ [.read])
  | absent (h : timing.read steps.length = some (.ok none)) (htotal : total steps = window.nanos) :
      Ends timing window steps (.absent, polls steps ++ [.read])
  | failed {error : Error} {polled : Polled}
      (h : timing.read steps.length = some (.error error)) :
      Ends timing window steps (polled, polls steps ++ [.read])
  | late (h : timing.read steps.length = none) :
      Ends timing window steps (.unreadable none, polls steps ++ [.read])
  | interrupted {step : TimeSpan} (h : timing.read steps.length = some (.ok none))
      (hslept : timing.slept steps.length = false) :
      Ends timing window steps (.unreadable none, polls steps ++ [.read, .sleep step])

variable {fuel : Nat}

section Loop

variable {timing : Timing} {window : TimeSpan} {steps : List TimeSpan} {s : PollState}

/-- A sleep inside the window neither overflows nor leaves it. -/
theorem Polling.sleep (h : Polling timing window steps s) (hopen : ¬window ≤ s.waited)
    (hread : timing.read s.reads = some (.ok none)) :
    ∃ step next, s.sleep window = some (step, next) ∧ 0 < step.nanos ∧
      next.actions = polls steps ++ [.read, .sleep step] ∧
      (timing.slept s.reads = true → Polling timing window (steps ++ [step]) next) := by
  rw [TimeSpan.le_iff, not_le] at hopen
  obtain ⟨rest, hrest, hnanos⟩ := TimeSpan.exists_sub (Nat.le_of_lt hopen)
  have hstep := TimeSpan.nanos_min s.delay rest
  have hpos := h.delay_pos
  have hle := h.delay_le
  obtain ⟨waited, hwaited, hsum⟩ := TimeSpan.exists_add
    (a := s.waited) (b := min s.delay rest) (c := window) (by omega)
  obtain ⟨doubled, hdoubled, htwice⟩ := TimeSpan.exists_ofNanos
    (show s.delay.nanos * 2 < 2 ^ 64 * 10 ^ 9 by omega)
  have hmul : s.delay.mul 2 = some doubled := hdoubled
  have hsleep : s.sleep window = some (min s.delay rest, ⟨min doubled second, waited, s.reads + 1,
      s.actions ++ [.read, .sleep (min s.delay rest)]⟩) := by
    simp only [PollState.sleep, hrest, hwaited, hmul, Option.bind_eq_bind, Option.bind_some,
      Option.pure_def]
  refine ⟨_, _, hsleep, by omega, by rw [h.actions], fun hslept => ?_⟩
  have hsecond : second.nanos = 10 ^ 9 := rfl
  have hmin := TimeSpan.nanos_min doubled second
  have hwaits := h.waited
  refine ⟨by simp [h.actions], by simp [h.reads], by simp; omega, by simp; omega, ?_, ?_, ?_⟩
  · dsimp only
    omega
  · dsimp only
    omega
  · intro n hn
    rw [List.length_append, List.length_singleton] at hn
    rcases Nat.lt_succ_iff_lt_or_eq.mp hn with hlt | rfl
    · exact h.absent n hlt
    · exact h.reads ▸ ⟨hread, hslept⟩

/-- One turn ends the loop, or adds a sleep. -/
theorem Polling.progress (h : Polling timing window steps s) :
    Loop.Progress (fun s => ∃ steps, Polling timing window steps s)
      (fun s => window.nanos - s.waited.nanos)
      (fun ended => ∃ steps, Absent timing steps.length ∧ Ends timing window steps ended)
      s (s.turn timing window) := by
  have hactions := h.actions
  have hreads := h.reads
  unfold PollState.turn
  cases hread : timing.read s.reads with
  | none => exact ⟨steps, h.absent, hactions ▸ .late (hreads ▸ hread)⟩
  | some row =>
    cases row with
    | error error =>
      obtain ⟨polled, hpolled⟩ : ∃ polled, polledBy (some (.error error)) = some polled := by
        cases error <;> exact ⟨_, rfl⟩
      rw [hpolled]
      exact ⟨steps, h.absent, hactions ▸ .failed (hreads ▸ hread)⟩
    | ok row =>
      cases row with
      | some outcome => exact ⟨steps, h.absent, hactions ▸ .found (hreads ▸ hread)⟩
      | none =>
        simp only [polledBy]
        split
        case isTrue hfull =>
            have hle := TimeSpan.le_iff.mp hfull
            have hwaited := h.waited
            have hwithin := h.within
            exact ⟨steps, h.absent, hactions ▸ .absent (hreads ▸ hread) (by omega)⟩
        case isFalse hopen =>
            obtain ⟨step, next, hsleep, hpos, hnext, hslept⟩ := h.sleep hopen hread
            rw [hsleep]
            cases hcase : timing.slept s.reads with
            | true =>
              have hpolling := hslept hcase
              have hwaited := hpolling.waited
              have hwithin := hpolling.within
              rw [total_concat] at hwaited hwithin
              have hbefore := h.waited
              exact ⟨⟨_, hpolling⟩, by dsimp only; omega⟩
            | false =>
              rw [hreads] at hread hcase
              exact ⟨steps, h.absent, hnext ▸ .interrupted hread hcase⟩

variable (timing)

theorem pollLoop_ends (hfuel : window.nanos < fuel) :
    ∃ ended, pollLoop timing window fuel = .returned ended ∧
      ∃ steps, Absent timing steps.length ∧ Ends timing window steps ended := by
  have hstart : Polling timing window [] ⟨⟨50 * 10 ^ 6, firstDelay_fits⟩, .zero, 0, []⟩ :=
    ⟨rfl, rfl, rfl, Nat.zero_le _, by decide, by decide, fun _ h => nomatch h⟩
  have hprogress : ∀ s, (∃ steps, Polling timing window steps s) → _ :=
    fun s ⟨steps, h⟩ => h.progress
  exact Loop.run_returned hprogress ⟨[], hstart⟩ (Nat.lt_of_le_of_lt (Nat.sub_le _ _) hfuel)

end Loop

/-- Without a row recovery sleeps for the window and reads once more; a row found is the result. -/
structure Exact (timing : Timing) (window : TimeSpan) (commandId : CommandId) (digest : String)
    (source : BoxError) (result : Except Error Settled) (actions : List Action) : Prop where
  absent : (∀ n < actions.count .read, timing.read n = some (.ok none)) →
    (∀ n, timing.slept n = true) →
      (∃ steps, actions = polls steps ++ [.read] ∧ total steps = window.nanos) ∧
        result = .error (.ambiguousWrite commandId source)
  found : ∀ n outcome, n < actions.count .read → timing.read n = some (.ok (some outcome)) →
    (∃ steps, actions = polls steps ++ [.read] ∧ steps.length = n) ∧
      result = replayedAs outcome digest

variable {ended : Polled × List Action}

section Settle

variable (E : Env) {timing : Timing} {window : TimeSpan} (commandId : CommandId)
  (digest : String) (source : BoxError)

variable {commandId digest source} in
/-- The loop ends early with a read that fails or does not return, or a sleep that does not. -/
theorem exact_of_stopped {steps : List TimeSpan} {actions : List Action}
    {result : Except Error Settled} (habsent : Absent timing steps.length)
    (hcount : actions.count .read = steps.length + 1)
    (hrow : ∀ outcome, timing.read steps.length ≠ some (.ok (some outcome)))
    (hstopped : timing.read steps.length = some (.ok none) →
      timing.slept steps.length = false) :
    Exact timing window commandId digest source result actions := by
  constructor
  · intro hnone hslept
    have hfalse := hstopped (hnone steps.length (by omega))
    rw [hslept] at hfalse
    cases hfalse
  · intro n outcome hn hread
    rw [habsent.last (by omega) hread] at hread
    exact absurd hread (hrow outcome)

theorem settle_indeterminate (timing : Timing) (window : TimeSpan) (fuel : Nat) :
    settle E timing commandId digest window fuel (.error (.indeterminate source)) =
      (pollForRow timing window fuel).map fun polled =>
        (settlePolled E commandId digest source polled.1, polled.2) := rfl

theorem Ends.exact {steps : List TimeSpan} (habsent : Absent timing steps.length)
    (h : Ends timing window steps ended) :
    Exact timing window commandId digest source
      (settlePolled E commandId digest source ended.1) ended.2 := by
  cases h with
  | @found outcome h =>
    constructor
    · intro hnone _
      have hread := hnone steps.length (by simp)
      rw [h] at hread
      cases hread
    · intro n other hn hread
      obtain rfl := habsent.last (by simpa using hn) hread
      rw [h] at hread
      cases hread
      exact ⟨⟨steps, rfl, rfl⟩, rfl⟩
  | absent h htotal =>
    refine ⟨fun _ _ => ⟨⟨steps, rfl, htotal⟩, rfl⟩, fun n outcome hn hread => ?_⟩
    rw [habsent.last (by simpa using hn) hread, h] at hread
    cases hread
  | failed h => exact exact_of_stopped habsent (by simp) (by simp [h]) (by simp [h])
  | late h => exact exact_of_stopped habsent (by simp) (by simp [h]) (by simp [h])
  | interrupted h hslept => exact exact_of_stopped habsent (by simp) (by simp [h]) fun _ => hslept

end Settle

/-- Recovery is exact for every window, unless window and grace period overflow. -/
theorem settle_exact_iff (E : Env) (timing : Timing) (window : TimeSpan) (commandId : CommandId)
    (digest : String) (source : BoxError) :
    (∀ fuel > window.nanos, ∃ result actions,
        settle E timing commandId digest window fuel (.error (.indeterminate source)) =
          .returned (result, actions) ∧
        Exact timing window commandId digest source result actions) ↔
      window.nanos + recoveryGrace.nanos < 2 ^ 64 * 10 ^ 9 := by
  cases hadd : window.add recoveryGrace with
  | none =>
    refine iff_of_false (fun h => ?_) (not_lt.mpr (TimeSpan.add_eq_none.mp hadd))
    obtain ⟨result, actions, hsettle, -⟩ := h (window.nanos + 1) (Nat.lt_succ_self _)
    rw [settle_indeterminate, pollForRow, hadd] at hsettle
    cases hsettle
  | some deadline =>
    have hfits : window.nanos + recoveryGrace.nanos < 2 ^ 64 * 10 ^ 9 := by
      rw [← TimeSpan.add_eq_some.mp hadd]
      exact deadline.fits
    refine iff_of_true (fun fuel hfuel => ?_) hfits
    obtain ⟨ended, hended, steps, habsent, hends⟩ := pollLoop_ends timing hfuel
    refine ⟨_, _, ?_, hends.exact E commandId digest source habsent⟩
    rw [settle_indeterminate, pollForRow, hadd, hended]
    rfl

def rowless : Timing := ⟨fun _ => some (.ok none), fun _ => true⟩

/-- The longest window there is overflows before the first read. -/
theorem settle_longest_panicked :
    (fun fuel => settle .plain rowless "open-1" "digest" .longest fuel
      (.error (.indeterminate (.text "timeout")))) = fun _ => .panicked := by
  funext fuel
  rfl

section Store

variable {timing : Timing} {window : TimeSpan} {millis : Nat}

def answered {α : Type} (timing : Timing) : Program α → Nat → Option α
  | .done a, _ => some a
  | .call (.outcomeWithin _) next, reads => answered timing (next (timing.read reads)) (reads + 1)
  | .call _ _, _ => none

theorem answered_bind {α β : Type} (timing : Timing) {p : Program α} {f : α → β} {a : α}
    {reads : Nat} (h : answered timing p reads = some a) :
    answered timing (p.bind fun a => .done (f a)) reads = some (f a) := by
  induction p generalizing reads with
  | done b =>
    cases h
    rfl
  | call call next ih =>
    cases call with
    | outcomeWithin _ => exact ih _ h
    | _ => cases h

theorem pollDelay_succ (reads : Nat) : pollDelay (reads + 1) = min (pollDelay reads * 2) 1000 := by
  unfold pollDelay
  omega

theorem answered_outcomeWithin {α : Type} (timing : Timing) (commandId : CommandId) (reads : Nat)
    (f : Option (Except Error (Option Outcome)) → Program α) :
    answered timing ((Program.ask (.outcomeWithin commandId)).bind f) reads =
      answered timing (f (timing.read reads)) (reads + 1) := rfl

theorem sleep_millis {waited : Nat} {s next : PollState} {step : TimeSpan}
    (hwindow : window.nanos = millis * 10 ^ 6) (hdelay : s.delay.nanos = pollDelay s.reads * 10 ^ 6)
    (hwaited : s.waited.nanos = waited * 10 ^ 6) (h : s.sleep window = some (step, next)) :
    next.reads = s.reads + 1 ∧ next.delay.nanos = pollDelay next.reads * 10 ^ 6 ∧
      next.waited.nanos = (waited + min (pollDelay s.reads) (millis - waited)) * 10 ^ 6 := by
  simp only [PollState.sleep, Option.bind_eq_bind, Option.bind_eq_some_iff, Option.pure_def,
    Option.some.injEq, Prod.mk.injEq] at h
  obtain ⟨rest, hrest, total, htotal, doubled, hdoubled, rfl, rfl⟩ := h
  have hrest := (TimeSpan.sub_eq_some.mp hrest).2
  have htotal := TimeSpan.add_eq_some.mp htotal
  have hdoubled := TimeSpan.mul_eq_some.mp hdoubled
  have hsecond : second.nanos = 1000 * 10 ^ 6 := rfl
  rw [TimeSpan.nanos_min] at htotal
  refine ⟨rfl, ?_, ?_⟩
  · rw [pollDelay_succ, TimeSpan.nanos_min]
    omega
  · dsimp only
    omega

/-- The store's program makes the reads of the loop and ends as it does, for a window of whole
milliseconds. -/
theorem answered_pollForRow (commandId : CommandId) (hslept : ∀ n, timing.slept n = true)
    (hwindow : window.nanos = millis * 10 ^ 6) {waited : Nat} {s : PollState}
    (hdelay : s.delay.nanos = pollDelay s.reads * 10 ^ 6)
    (hwaited : s.waited.nanos = waited * 10 ^ 6)
    (h : Loop.run (PollState.turn timing window) fuel s = .returned ended) :
    answered timing (EventStore.pollForRow commandId millis s.reads waited) s.reads =
      some ended.1 := by
  induction fuel generalizing s waited with
  | zero => cases h
  | succ fuel ih =>
    rw [EventStore.pollForRow, answered_outcomeWithin]
    unfold Loop.run PollState.turn at h
    cases hpolled : polledBy (timing.read s.reads) with
    | some polled =>
      rw [hpolled] at h
      cases h
      rfl
    | none =>
      rw [hpolled] at h
      dsimp only at h ⊢
      by_cases hfull : window ≤ s.waited
      · rw [if_pos hfull] at h
        have hle := TimeSpan.le_iff.mp hfull
        rw [if_pos (by omega)]
        cases h
        rfl
      · rw [if_neg hfull, hslept] at h
        have hlt := not_le.mp (fun hle => hfull (TimeSpan.le_iff.mpr hle))
        rw [if_neg (by omega)]
        cases hsleep : s.sleep window with
        | none =>
          rw [hsleep] at h
          cases h
        | some slept =>
          rw [hsleep] at h
          obtain ⟨step, next⟩ := slept
          obtain ⟨hreads, hnext⟩ := sleep_millis hwindow hdelay hwaited hsleep
          rw [← hreads]
          exact ih hnext.1 hnext.2 h

theorem answered_poll (commandId : CommandId) (hslept : ∀ n, timing.slept n = true)
    (hwindow : window.nanos = millis * 10 ^ 6)
    (h : pollForRow timing window fuel = .returned ended) :
    answered timing (EventStore.pollForRow commandId millis 0 0) 0 = some ended.1 := by
  unfold pollForRow at h
  cases hadd : window.add recoveryGrace with
  | none =>
    rw [hadd] at h
    cases h
  | some limit =>
    rw [hadd] at h
    exact answered_pollForRow commandId hslept hwindow rfl rfl h

theorem readBounded_returned {row : Option (Except Error (Option Outcome))}
    (h : readBounded timing window = .returned row) : row = timing.read 0 := by
  unfold readBounded at h
  cases hadd : window.add recoveryGrace with
  | none =>
    rw [hadd] at h
    cases h
  | some limit =>
    rw [hadd] at h
    cases h
    rfl

variable {settled : Except Error Settled × List Action}

theorem answered_read {f : Option (Except Error (Option Outcome)) → Except Error Settled}
    (commandId : CommandId)
    (h : ((readBounded timing window).map fun row => (f row, [.read])) = .returned settled) :
    answered timing ((Program.ask (.outcomeWithin commandId)).bind fun row => .done (f row)) 0 =
      some settled.1 := by
  obtain ⟨row, hrow, rfl⟩ := Looped.map_eq_returned.mp h
  rw [answered_outcomeWithin, readBounded_returned hrow]
  rfl

/-- The store's program settles a commit as recovery does. -/
theorem answered_settle (E : Env) (commandId : CommandId) (digest : String)
    (hslept : ∀ n, timing.slept n = true) (hwindow : window.nanos = millis * 10 ^ 6)
    {result : Except Error Unit}
    (h : settle E timing commandId digest window fuel result = .returned settled) :
    answered timing (EventStore.settle E commandId digest millis result) 0 = some settled.1 := by
  unfold settle at h
  unfold EventStore.settle
  cases hsettling : settling E commandId digest result with
  | known known =>
    rw [hsettling] at h
    cases h
    rfl
  | reads settle =>
    rw [hsettling] at h
    exact answered_read commandId h
  | polls settle =>
    rw [hsettling] at h
    obtain ⟨ended, hended, rfl⟩ := Looped.map_eq_returned.mp h
    exact answered_bind timing (answered_poll commandId hslept hwindow hended)

/-- A window of a second in which no row is found. -/
theorem rowless_answered : ∃ fuel settled,
    settle .plain rowless "open-1" "digest" second fuel
        (.error (.indeterminate (.text "timeout"))) =
      .returned settled ∧
    answered rowless (EventStore.settle .plain "open-1" "digest" 1000
      (.error (.indeterminate (.text "timeout")))) 0 = some settled.1 := by
  obtain ⟨ended, hended, -⟩ := pollLoop_ends rowless (Nat.lt_succ_self second.nanos)
  obtain ⟨settled, h⟩ : ∃ settled, settle .plain rowless "open-1" "digest" second
      (second.nanos + 1) (.error (.indeterminate (.text "timeout"))) = .returned settled := by
    rw [settle_indeterminate, pollForRow, show second.add recoveryGrace = some _ from rfl, hended]
    exact ⟨_, rfl⟩
  exact ⟨_, settled, h, answered_settle _ _ _ (fun _ => rfl) rfl h⟩

end Store

end EventStore.Recovery
