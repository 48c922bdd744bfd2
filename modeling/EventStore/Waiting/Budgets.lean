import EventStore.Core.Waiting

/-!
Backoff budgets. A delay lies in the upper half below its ceiling, unless the spread in
nanoseconds is one less than a multiple of 2^64: then the number of choices overflows and the
call panics, whether or not an attempt is left.
-/
namespace EventStore.Backoff

def RetryPolicy.spread (policy : RetryPolicy) (retry : Nat) : Nat :=
  (policy.ceiling retry).nanos - (policy.ceiling retry).nanos / 2

/-- The number of choices above the floor is a multiple of 2^64. -/
def RetryPolicy.Overflows (policy : RetryPolicy) (retry : Nat) : Prop :=
  policy.spread retry % 2 ^ 64 = 2 ^ 64 - 1

def RetryPolicy.InRange (policy : RetryPolicy) (retry : Nat) (delay : TimeSpan) : Prop :=
  (policy.ceiling retry).div 2 ≤ delay ∧ delay ≤ policy.ceiling retry

def RetryPolicy.InTime (policy : RetryPolicy) (elapsed delay : TimeSpan) : Prop :=
  ∀ deadline ∈ policy.deadline, elapsed.nanos + delay.nanos < deadline.nanos

theorem RetryPolicy.pastDeadline_eq_false {policy : RetryPolicy} {elapsed delay : TimeSpan} :
    policy.pastDeadline elapsed delay = false ↔ policy.InTime elapsed delay := by
  unfold RetryPolicy.pastDeadline RetryPolicy.InTime
  cases policy.deadline with
  | none => simp
  | some deadline => simp [← TimeSpan.saturatingAdd_lt]

section Delay

variable (policy : RetryPolicy) (retry random : Nat)

theorem sub_floor : ∃ d, (policy.ceiling retry).sub ((policy.ceiling retry).div 2) = some d ∧
    d.nanos = policy.spread retry :=
  TimeSpan.exists_sub (Nat.div_le_self _ _)

variable {policy retry}

theorem delay_of_overflows (h : policy.Overflows retry) : policy.delay retry random = none := by
  obtain ⟨spread, hsub, hspread⟩ := sub_floor policy retry
  simp only [RetryPolicy.delay, hsub, Option.bind_eq_bind, Option.bind_some, hspread,
    show policy.spread retry % 2 ^ 64 = 2 ^ 64 - 1 from h]
  rfl

theorem delay_inRange (h : ¬policy.Overflows retry) :
    ∃ delay, policy.delay retry random = some delay ∧ policy.InRange retry delay := by
  obtain ⟨spread, hsub, hspread⟩ := sub_floor policy retry
  simp only [RetryPolicy.delay, hsub, Option.bind_eq_bind, Option.bind_some, hspread]
  have hhalf := Nat.div_le_self (policy.ceiling retry).nanos 2
  split
  case isTrue => exact ⟨_, rfl, hhalf, le_refl _⟩
  case isFalse hspread0 =>
      have hbelow : policy.spread retry % 2 ^ 64 + 1 < 2 ^ 64 := by
        have hlt := Nat.mod_lt (policy.spread retry) (Nat.two_pow_pos 64)
        have hne : policy.spread retry % 2 ^ 64 ≠ 2 ^ 64 - 1 := h
        omega
      rw [unsigned, if_pos hbelow, Option.bind_some]
      -- The draw stays within the truncated spread, and so within the spread.
      have hdraw : random % (policy.spread retry % 2 ^ 64 + 1) ≤ policy.spread retry :=
        (Nat.le_of_lt_succ (Nat.mod_lt _ (Nat.succ_pos _))).trans (Nat.mod_le _ _)
      have hsum : policy.spread retry + (policy.ceiling retry).nanos / 2 =
          (policy.ceiling retry).nanos := Nat.sub_add_cancel hhalf
      have hfits := (policy.ceiling retry).fits
      obtain ⟨step, hstep, hnanos⟩ := TimeSpan.exists_ofNanos
        (show random % (policy.spread retry % 2 ^ 64 + 1) < 2 ^ 64 * 10 ^ 9 by omega)
      obtain ⟨delay, hdelay, hadd⟩ := TimeSpan.exists_add
        (a := (policy.ceiling retry).div 2) (b := step) (c := policy.ceiling retry)
        (show (policy.ceiling retry).nanos / 2 + step.nanos ≤ _ by omega)
      have hfloor : ((policy.ceiling retry).div 2).nanos = (policy.ceiling retry).nanos / 2 := rfl
      rw [hstep, Option.bind_some]
      refine ⟨delay, hdelay, TimeSpan.le_iff.mpr (by omega), TimeSpan.le_iff.mpr (by omega)⟩

end Delay

section Next

variable {policy : RetryPolicy} {retry random : Nat} {elapsed delay : TimeSpan}

theorem next_of_none (h : policy.delay retry random = none) :
    (Budget.mk policy (retry + 1)).next elapsed random = none := by
  simp [Budget.next, h]

theorem next_of_granted (h : policy.delay retry random = some delay)
    (hleft : retry + 1 < max policy.maxAttempts 1) (htime : policy.InTime elapsed delay) :
    (Budget.mk policy (retry + 1)).next elapsed random =
      some (some delay, ⟨policy, retry + 2⟩) := by
  have hpast := RetryPolicy.pastDeadline_eq_false.mpr htime
  have hfits := policy.fits
  have hattempt : unsigned 32 (retry + 1 + 1) = some (retry + 2) := if_pos (by omega)
  have hnot : ¬(max policy.maxAttempts 1 ≤ retry + 1 ∨ false = true) := by
    simp
    omega
  simp only [Budget.next, Nat.add_one_sub_one, h, hpast, Nat.succ_ne_zero, if_false,
    Option.bind_eq_bind, Option.bind_some, if_neg hnot, hattempt, Option.pure_def]

theorem next_of_refused (h : policy.delay retry random = some delay)
    (hnot : ¬(retry + 1 < max policy.maxAttempts 1 ∧ policy.InTime elapsed delay)) :
    (Budget.mk policy (retry + 1)).next elapsed random =
      some (none, ⟨policy, retry + 1⟩) := by
  have hrefused : max policy.maxAttempts 1 ≤ retry + 1 ∨
      policy.pastDeadline elapsed delay = true := by
    rw [← RetryPolicy.pastDeadline_eq_false, not_and_or, Bool.not_eq_false, not_lt] at hnot
    exact hnot
  simp only [Budget.next, Nat.add_one_sub_one, h, Nat.succ_ne_zero, if_false,
    Option.bind_eq_bind, Option.bind_some, if_pos hrefused, Option.pure_def]

end Next

section Drive

variable (policy : RetryPolicy) (elapsed : Nat → TimeSpan) (random : Nat → Nat)

/-- The delay before a retry would end in time. -/
def RetryPolicy.Grants (retry : Nat) : Prop :=
  ∃ delay, policy.delay retry (random retry) = some delay ∧ policy.InTime (elapsed retry) delay

/-- No more attempts than the policy has, and every delay in range and in time. -/
structure Bounded (driven : Driving) : Prop where
  attempts : driven.budget.attempt = driven.granted.length + 1
  bound : driven.budget.attempt ≤ max 1 policy.maxAttempts
  inRange : ∀ retry delay, driven.granted[retry]? = some delay → policy.InRange retry delay
  inTime : ∀ retry delay, driven.granted[retry]? = some delay →
    policy.InTime (elapsed retry) delay

structure Driven (driving : Driving) : Prop extends Bounded policy elapsed driving where
  same : driving.budget.policy = policy
  grants : ∀ retry < driving.granted.length, policy.Grants elapsed random retry

theorem driven_new : Driven policy elapsed random ⟨.new policy, []⟩ where
  attempts := rfl
  bound := Nat.le_max_left _ _
  inRange _ _ h := nomatch h
  inTime _ _ h := nomatch h
  same := rfl
  grants _ h := nomatch h

variable {policy elapsed random}

theorem Driven.budget_eq {driving : Driving} (h : Driven policy elapsed random driving) :
    driving.budget = ⟨policy, driving.granted.length + 1⟩ := by
  obtain ⟨⟨attempted, attempt⟩, granted⟩ := driving
  have hattempt := h.attempts
  have hpolicy := h.same
  dsimp only at hattempt hpolicy
  rw [hattempt, hpolicy]

theorem Driven.push {granted : List TimeSpan} {delay : TimeSpan}
    (h : Driven policy elapsed random ⟨⟨policy, granted.length + 1⟩, granted⟩)
    (hleft : granted.length + 1 < max policy.maxAttempts 1)
    (hdelay : policy.delay granted.length (random granted.length) = some delay)
    (hrange : policy.InRange granted.length delay)
    (htime : policy.InTime (elapsed granted.length) delay) :
    Driven policy elapsed random ⟨⟨policy, granted.length + 2⟩, granted ++ [delay]⟩ := by
  have hlast {retry : Nat} {other : TimeSpan} (hat : (granted ++ [delay])[retry]? = some other) :
      granted[retry]? = some other ∨ retry = granted.length ∧ other = delay := by
    rcases Nat.lt_trichotomy retry granted.length with hlt | rfl | hgt
    · exact .inl (by rwa [List.getElem?_append_left hlt] at hat)
    · rw [List.getElem?_concat_length, Option.some.injEq] at hat
      exact .inr ⟨rfl, hat.symm⟩
    · rw [List.getElem?_eq_none (by simp; omega)] at hat
      cases hat
  refine ⟨⟨by simp, by dsimp only; omega, ?_, ?_⟩, rfl, ?_⟩
  · intro retry other hat
    rcases hlast hat with hat | ⟨rfl, rfl⟩
    · exact h.inRange retry other hat
    · exact hrange
  · intro retry other hat
    rcases hlast hat with hat | ⟨rfl, rfl⟩
    · exact h.inTime retry other hat
    · exact htime
  · intro retry hretry
    rw [List.length_append, List.length_singleton] at hretry
    rcases Nat.lt_succ_iff_lt_or_eq.mp hretry with hlt | rfl
    · exact h.grants retry hlt
    · exact ⟨delay, hdelay, htime⟩

/-- One call goes on, or returns with the bounds, unless its number of choices overflows. -/
theorem Driven.progress {driving : Driving} (h : Driven policy elapsed random driving)
    (hfine : ∀ retry < max 1 policy.maxAttempts,
      (∀ i < retry, policy.Grants elapsed random i) → ¬policy.Overflows retry) :
    Loop.Progress (Driven policy elapsed random)
      (fun driving => max 1 policy.maxAttempts - driving.budget.attempt) (Bounded policy elapsed)
      driving (driving.turn elapsed random) := by
  have hbudget := h.budget_eq
  have hbound := h.bound
  obtain ⟨budget, granted⟩ := driving
  dsimp only at hbudget hbound
  subst hbudget
  have hretry : granted.length < max 1 policy.maxAttempts := by
    dsimp only at hbound
    omega
  obtain ⟨delay, hdelay, hrange⟩ :=
    delay_inRange (random granted.length) (hfine granted.length hretry h.grants)
  unfold Driving.turn
  by_cases hgrant : granted.length + 1 < max policy.maxAttempts 1 ∧
      policy.InTime (elapsed granted.length) delay
  · rw [next_of_granted hdelay hgrant.1 hgrant.2]
    exact ⟨h.push hgrant.1 hdelay hrange hgrant.2, by dsimp only; omega⟩
  · rw [next_of_refused hdelay hgrant]
    exact h.toBounded

theorem drive_bounded (hfine : ∀ retry < max 1 policy.maxAttempts,
      (∀ i < retry, policy.Grants elapsed random i) → ¬policy.Overflows retry) :
    ∃ driven, drive policy elapsed random (max 1 policy.maxAttempts) = .returned driven ∧
      Bounded policy elapsed driven := by
  refine Loop.run_returned (fun driving h => h.progress hfine)
    (driven_new policy elapsed random) ?_
  simp only [Budget.new]
  omega

/-- The calls before a retry are granted, and its own number of choices overflows. -/
theorem drive_panicked {retry : Nat} (hretry : retry < max 1 policy.maxAttempts)
    (hgrants : ∀ i < retry, policy.Grants elapsed random i) (hover : policy.Overflows retry) :
    drive policy elapsed random (max 1 policy.maxAttempts) = .panicked := by
  refine Loop.run_panicked
    (fun driving : Driving => driving.budget = ⟨policy, driving.granted.length + 1⟩ ∧
      driving.granted.length ≤ retry)
    (fun driving => retry - driving.granted.length) ?_ ⟨rfl, Nat.zero_le _⟩ hretry
  rintro ⟨budget, granted⟩ ⟨hbudget, hle⟩
  dsimp only at hbudget hle
  subst hbudget
  rcases Nat.lt_or_eq_of_le hle with hlt | heq
  · obtain ⟨delay, hdelay, htime⟩ := hgrants granted.length hlt
    refine .inr ⟨⟨⟨policy, granted.length + 2⟩, granted ++ [delay]⟩, ?_, ⟨by simp, by simp; omega⟩,
      by simp; omega⟩
    simp only [Driving.turn, next_of_granted hdelay (by omega) htime]
  · left
    simp only [Driving.turn, next_of_none (delay_of_overflows _ (heq ▸ hover))]

/-- Driving a budget ends within its policy, unless the number of choices overflows. -/
theorem drive_bounded_iff (policy : RetryPolicy) (elapsed : Nat → TimeSpan)
    (random : Nat → Nat) :
    (∃ driven, drive policy elapsed random (max 1 policy.maxAttempts) = .returned driven ∧
        Bounded policy elapsed driven) ↔
      ∀ retry < max 1 policy.maxAttempts,
        (∀ i < retry, policy.Grants elapsed random i) → ¬policy.Overflows retry := by
  refine ⟨?_, drive_bounded⟩
  rintro ⟨driven, hdriven, -⟩ retry hretry hgrants hover
  rw [drive_panicked hretry hgrants hover] at hdriven
  cases hdriven

theorem centuries_fits : 36893488147419103230 < 2 ^ 64 * 10 ^ 9 := by
  decide

theorem five_fits : 5 < 2 ^ 32 := by
  decide

/-- A base delay whose half is the largest 64-bit number of nanoseconds, some 1169 years. -/
def centuries : RetryPolicy :=
  ⟨5, ⟨36893488147419103230, centuries_fits⟩, ⟨36893488147419103230, centuries_fits⟩, none,
    five_fits⟩

theorem drive_centuries_panicked :
    drive centuries (fun _ => .zero) (fun _ => 0) (max 1 centuries.maxAttempts) = .panicked ∧
      ¬∃ driven, drive centuries (fun _ => .zero) (fun _ => 0) (max 1 centuries.maxAttempts) =
        .returned driven := by
  have hpanicked : drive centuries (fun _ => .zero) (fun _ => 0) (max 1 centuries.maxAttempts) =
      .panicked := by
    rfl
  refine ⟨hpanicked, ?_⟩
  rintro ⟨driven, hdriven⟩
  rw [hpanicked] at hdriven
  cases hdriven

end Drive

end EventStore.Backoff
