import EventStore.Lib.TimeSpans
import EventStore.Lib.Loops
import EventStore.Core.Store

/-!
The waits of a command, with spans of time as the source has them: the backoff between its
attempts, and the polls that recover a commit whose result is unknown. An operation on integers
or spans that overflows has no value, and panics.
-/
namespace EventStore

def unsigned (bits n : Nat) : Option Nat := if n < 2 ^ bits then some n else none

namespace Backoff

structure RetryPolicy where
  maxAttempts : Nat
  baseDelay : TimeSpan
  maxDelay : TimeSpan
  deadline : Option TimeSpan
  fits : maxAttempts < 2 ^ 32

def twoSaturatingPow (exponent : Nat) : Nat := min (2 ^ exponent) (2 ^ 32 - 1)

def RetryPolicy.ceiling (policy : RetryPolicy) (retry : Nat) : TimeSpan :=
  min (policy.baseDelay.saturatingMul (twoSaturatingPow retry)) policy.maxDelay

def RetryPolicy.delay (policy : RetryPolicy) (retry random : Nat) : Option TimeSpan := do
  let ceiling := policy.ceiling retry
  let floor := ceiling.div 2
  let spread := (← ceiling.sub floor).nanos % 2 ^ 64
  if spread = 0 then return ceiling
  else
    -- Where the sum wraps instead of panicking, the remainder by zero panics.
    let choices ← unsigned 64 (spread + 1)
    floor.add (← TimeSpan.ofNanos (random % choices))

structure Budget where
  policy : RetryPolicy
  attempt : Nat

def Budget.new (policy : RetryPolicy) : Budget := ⟨policy, 1⟩

def RetryPolicy.pastDeadline (policy : RetryPolicy) (elapsed delay : TimeSpan) : Bool :=
  policy.deadline.any fun deadline => deadline ≤ elapsed.saturatingAdd delay

def Budget.next (budget : Budget) (elapsed : TimeSpan) (random : Nat) :
    Option (Option TimeSpan × Budget) :=
  if budget.attempt = 0 then none
  else do
    let delay ← budget.policy.delay (budget.attempt - 1) random
    if max budget.policy.maxAttempts 1 ≤ budget.attempt ∨
        budget.policy.pastDeadline elapsed delay then
      return (none, budget)
    else
      let attempt ← unsigned 32 (budget.attempt + 1)
      return (some delay, ⟨budget.policy, attempt⟩)

structure Driving where
  budget : Budget
  granted : List TimeSpan

def Driving.turn (elapsed : Nat → TimeSpan) (random : Nat → Nat) (driving : Driving) :
    Turn Driving Driving :=
  match driving.budget.next (elapsed driving.granted.length) (random driving.granted.length) with
  | none => .panicked
  | some (none, budget) => .returned ⟨budget, driving.granted⟩
  | some (some delay, budget) => .goesOn ⟨budget, driving.granted ++ [delay]⟩

def drive (policy : RetryPolicy) (elapsed : Nat → TimeSpan) (random : Nat → Nat) (fuel : Nat) :
    Looped Driving :=
  Loop.run (Driving.turn elapsed random) fuel ⟨.new policy, []⟩

end Backoff

namespace Recovery

theorem second_fits : 10 ^ 9 < 2 ^ 64 * 10 ^ 9 := by
  decide

theorem firstDelay_fits : 50 * 10 ^ 6 < 2 ^ 64 * 10 ^ 9 := by
  decide

def second : TimeSpan := ⟨10 ^ 9, second_fits⟩

def recoveryGrace : TimeSpan := second

/-- What happens while recovery waits. The deadline may pass before a read returns, or before a
sleep ends. -/
structure Timing where
  read : Nat → Option (Except Error (Option Outcome))
  slept : Nat → Bool

inductive Action where
  | read
  | sleep (step : TimeSpan)
deriving DecidableEq

structure PollState where
  delay : TimeSpan
  waited : TimeSpan
  reads : Nat
  actions : List Action

def PollState.sleep (window : TimeSpan) (s : PollState) : Option (TimeSpan × PollState) := do
  let step := min s.delay (← window.sub s.waited)
  let waited ← s.waited.add step
  let doubled ← s.delay.mul 2
  return (step, ⟨min doubled second, waited, s.reads + 1, s.actions ++ [.read, .sleep step]⟩)

def PollState.turn (timing : Timing) (window : TimeSpan) (s : PollState) :
    Turn PollState (Polled × List Action) :=
  match polledBy (timing.read s.reads) with
  | some polled => .returned (polled, s.actions ++ [.read])
  | none =>
    if window ≤ s.waited then .returned (.absent, s.actions ++ [.read])
    else
      match s.sleep window with
      | none => .panicked
      | some (_, next) =>
        if timing.slept s.reads then .goesOn next
        else .returned (.unreadable none, next.actions)

def pollLoop (timing : Timing) (window : TimeSpan) (fuel : Nat) : Looped (Polled × List Action) :=
  Loop.run (PollState.turn timing window) fuel ⟨⟨50 * 10 ^ 6, firstDelay_fits⟩, .zero, 0, []⟩

def pollForRow (timing : Timing) (window : TimeSpan) (fuel : Nat) :
    Looped (Polled × List Action) :=
  .checked (window.add recoveryGrace) fun _ => pollLoop timing window fuel

def readBounded (timing : Timing) (limit : TimeSpan) :
    Looped (Option (Except Error (Option Outcome))) :=
  .checked (limit.add recoveryGrace) fun _ => .returned (timing.read 0)

def settle (E : Env) (timing : Timing) (commandId : CommandId) (digest : String)
    (window : TimeSpan) (fuel : Nat) (result : Except Error Unit) :
    Looped (Except Error Settled × List Action) :=
  match settling E commandId digest result with
  | .known settled => .returned (settled, [])
  | .reads settle => (readBounded timing window).map fun row => (settle row, [.read])
  | .polls settle =>
    (pollForRow timing window fuel).map fun polled => (settle polled.1, polled.2)

end Recovery

end EventStore
