import EventStore.Lib.Scripts

/-!
Traces of scripts: the calls one execution makes with the answers it gets, in order,
and the value it returns.
-/
namespace Script

structure Exchange (Ask : Type) (Answer : Ask → Type) where
  ask : Ask
  answer : Answer ask

variable {Ask : Type} {Answer : Ask → Type} {α β : Type}

/-- With these answers the script makes these calls and returns the value. -/
def Runs : Script Ask Answer α → List (Exchange Ask Answer) → α → Prop
  | .done value, trace, a => trace = [] ∧ a = value
  | .call ask next, trace, a =>
    ∃ answer rest, trace = ⟨ask, answer⟩ :: rest ∧ (next answer).Runs rest a

variable {p : Script Ask Answer α} {f : α → Script Ask Answer β}
  {trace : List (Exchange Ask Answer)}

theorem runs_call {ask : Ask} {next : Answer ask → Script Ask Answer α} {a : α} :
    (Script.call ask next).Runs trace a ↔
      ∃ answer rest, trace = ⟨ask, answer⟩ :: rest ∧ (next answer).Runs rest a := Iff.rfl

theorem runs_bind {b : β} :
    (p.bind f).Runs trace b ↔
      ∃ before after a, trace = before ++ after ∧ p.Runs before a ∧ (f a).Runs after b := by
  induction p generalizing trace with
  | done value =>
    constructor
    · intro h
      exact ⟨[], trace, value, rfl, ⟨rfl, rfl⟩, h⟩
    · rintro ⟨before, after, a, rfl, ⟨rfl, rfl⟩, h⟩
      exact h
  | call ask next ih =>
    simp only [call_bind, runs_call, ih]
    constructor
    · rintro ⟨answer, rest, rfl, before, after, a, rfl, hp, hf⟩
      exact ⟨⟨ask, answer⟩ :: before, after, a, rfl, ⟨answer, before, rfl, hp⟩, hf⟩
    · rintro ⟨-, after, a, rfl, ⟨answer, before, rfl, hp⟩, hf⟩
      exact ⟨answer, before ++ after, rfl, before, after, a, rfl, hp, hf⟩

theorem Asks.of_runs {P : Ask → Prop} {a : α} (h : p.Asks P) (hrun : p.Runs trace a) :
    ∀ x ∈ trace, P x.ask := by
  induction p generalizing trace with
  | done value =>
    obtain ⟨rfl, -⟩ := hrun
    simp
  | call ask next ih =>
    obtain ⟨answer, rest, rfl, hrest⟩ := hrun
    simpa using ⟨h.1, ih answer (h.2 answer) hrest⟩

theorem Yields.of_runs {R : α → Prop} {a : α} (h : p.Yields R) (hrun : p.Runs trace a) : R a := by
  induction p generalizing trace with
  | done value =>
    obtain ⟨-, rfl⟩ := hrun
    exact h
  | call ask next ih =>
    obtain ⟨answer, rest, rfl, hrest⟩ := hrun
    exact ih answer (h answer) hrest

theorem yields_of_forall {R : α → Prop} (h : ∀ a, R a) (p : Script Ask Answer α) :
    p.Yields R := by
  induction p with
  | done value => exact h value
  | call ask next ih => exact ih

/-- Every execution makes at most `n` of the calls that satisfy `f`. -/
def AsksAtMost (kind : Ask → Bool) (n : Nat) (p : Script Ask Answer α) : Prop :=
  ∀ trace a, p.Runs trace a → trace.countP (fun x => kind x.ask) ≤ n

variable {kind : Ask → Bool} {m n : Nat}

theorem Asks.atMost (h : p.Asks fun a => kind a = false) : p.AsksAtMost kind 0 := by
  intro trace a hrun
  rw [Nat.le_zero, List.countP_eq_zero]
  intro x hx
  simp [h.of_runs hrun x hx]

theorem AsksAtMost.bind (h : p.AsksAtMost kind m) (hf : ∀ a, (f a).AsksAtMost kind n) :
    (p.bind f).AsksAtMost kind (m + n) := by
  intro trace b hrun
  obtain ⟨before, after, a, rfl, hp, hb⟩ := runs_bind.mp hrun
  rw [List.countP_append]
  exact Nat.add_le_add (h before a hp) (hf a after b hb)

theorem AsksAtMost.mono (h : p.AsksAtMost kind m) (hle : m ≤ n) : p.AsksAtMost kind n :=
  fun trace a hrun => (h trace a hrun).trans hle

theorem AsksAtMost.done (kind : Ask → Bool) (n : Nat) (value : α) :
    (.done value : Script Ask Answer α).AsksAtMost kind n := by
  rintro - a ⟨rfl, -⟩
  exact Nat.zero_le n

theorem AsksAtMost.ask (kind : Ask → Bool) (a : Ask) :
    (Script.ask a : Script Ask Answer (Answer a)).AsksAtMost kind 1 := by
  rintro - answer ⟨answer, -, rfl, rfl, rfl⟩
  exact List.countP_le_length

end Script
