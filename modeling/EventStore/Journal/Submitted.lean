import EventStore.Journal.Staging
import EventStore.Core.JournalPrograms

/-!
The requests a journaled commit submits. Whatever it reads, it submits the request it was
given without allocations, or an attempt staged from it.
-/
namespace EventStore

open Result JournalProgram

inductive Request.JournaledAs (E : Env) (T : JournalText) (journal : Journal) (q : Request) :
    Request → Prop
  | stripped : JournaledAs E T journal q q.withoutAllocations
  | staged {plan : List (List Scope)} {counters : Counters} {staged : Request}
      (planned : q.scopePlan journal = .ok plan)
      (stage : stageJournal E T journal q plan counters = .ok staged) :
      JournaledAs E T journal q staged

namespace JournalAsk

def isRead : JournalAsk → Bool
  | .counter _ | .lastPosition _ | .rows _ _ _ | .compactionRow _ _ | .now | .manifest
  | .declared | .pastDeadline | .log | .fence .generation | .fence .lock | .fence (.row _)
  | .fence .elapsed | .fence .read | .fence (.planned _ _) => true
  | _ => false

/-- A call that changes no event, no row and no generation. -/
def isQuiet : JournalAsk → Bool
  | .update _ | .setDeclared _ => true
  | a => a.isRead

def Submits (P : Request → Prop) (a : JournalAsk) : Prop := ∀ q, a = .submit q → P q

theorem submits_of_isQuiet {P : Request → Prop} {a : JournalAsk} (h : a.isQuiet = true) :
    a.Submits P := by
  rintro q rfl
  cases h

end JournalAsk

abbrev JournalProgram.Quiet {α : Type} (p : JournalProgram α) : Prop :=
  p.Asks fun a => a.isQuiet = true

section Quiet

theorem quiet_journalAsk {a : JournalAsk} (h : a.isQuiet = true) :
    JournalProgram.Quiet (Script.ask a) :=
  ⟨h, fun _ => trivial⟩

theorem quiet_readEngineRow (scope : Scope) (sortKey : String) :
    (readEngineRow scope sortKey).Quiet := by
  refine Script.Asks.andThen (quiet_journalAsk rfl) fun row => ?_
  cases row <;> trivial

theorem quiet_readFloor (T : CompactionText) (scope : Scope) : (readFloor T scope).Quiet := by
  refine Script.Asks.andThen (Script.Asks.andThen (quiet_readEngineRow scope _) fun row => ?_)
    fun manifest => trivial
  cases row <;> trivial

theorem quiet_readStored (scopes : List Scope) : (readStored scopes).Quiet := by
  induction scopes with
  | nil => trivial
  | cons scope scopes ih =>
    exact Script.Asks.andThen (quiet_journalAsk rfl) fun _ => ih.andThen fun _ => trivial

theorem quiet_readBase (T : CompactionText) (scope : Scope) (stored : Nat) (repair : Bool) :
    (readBase T scope stored repair).Quiet := by
  refine Script.Asks.andThen ?_ fun base => ?_
  · split
    · exact Script.Asks.andThen (quiet_journalAsk rfl) fun _ => trivial
    · trivial
  · split
    · exact (quiet_readFloor T scope).andThen fun _ => trivial
    · trivial

theorem quiet_readBases (T : CompactionText) (repair : Bool) (counters : Counters)
    (scopes : List (Scope × Nat)) : (readBases T repair counters scopes).Quiet := by
  induction scopes generalizing counters with
  | nil => trivial
  | cons entry scopes ih =>
    exact (quiet_readBase T entry.1 entry.2 repair).andThen fun _ => ih _

theorem quiet_readCounters (T : CompactionText) (scopes : List Scope) (repair : Bool) :
    (readCounters T scopes repair).Quiet :=
  (quiet_readStored scopes).andThen fun _ => quiet_readBases T repair _ _

namespace JournalRepository

variable (R : JournalRepository)

theorem quiet_declare (manifest : Option FeatureManifest) : (R.declare manifest).Quiet := by
  refine Script.Asks.andThen ?_ fun _ => Script.Asks.andThen ?_ fun _ =>
    (quiet_journalAsk rfl).bind fun _ => trivial
  · split
    · exact quiet_journalAsk rfl
    · trivial
  · refine Script.Asks.andThen (quiet_journalAsk rfl) fun read => ?_
    simp only
    split
    · trivial
    · exact quiet_journalAsk rfl

theorem quiet_ensureDeclared : R.ensureDeclared.Quiet := by
  refine (quiet_journalAsk rfl).bind fun declared => ?_
  split
  · trivial
  · refine Script.Asks.andThen (quiet_journalAsk rfl) fun manifest => ?_
    split
    · split
      · trivial
      · split
        · trivial
        · exact R.quiet_declare manifest
    · split
      · trivial
      · exact R.quiet_declare manifest

theorem quiet_retract (declared : Declared) : (retract declared).Quiet := by
  refine (quiet_journalAsk rfl).bind fun _ => ?_
  split
  · exact (quiet_journalAsk rfl).bind fun _ => trivial
  · trivial

end JournalRepository

end Quiet

variable {plan : List (List Scope)} {q : Request}

section Programs

variable {P : Request → Prop}

theorem submits_quiet {α : Type} {p : JournalProgram α} (h : p.Quiet) :
    p.Asks (JournalAsk.Submits P) :=
  h.mono fun _ => JournalAsk.submits_of_isQuiet

theorem submits_submit (h : P q) : (submit q).Asks (JournalAsk.Submits P) := by
  refine ⟨?_, fun _ => trivial⟩
  rintro _ ⟨⟩
  exact h

namespace JournalRepository

variable (R : JournalRepository)

theorem submits_again (q : Request) (attempts : Nat) (error : Error) (lost : Bool)
    {next : Option (JournalProgram (Except Error Unit))}
    (h : ∀ p, next = some p → p.Asks (JournalAsk.Submits P)) :
    (R.again q attempts error lost next).Asks (JournalAsk.Submits P) := by
  cases next with
  | none => trivial
  | some p =>
    simp only [again]
    split
    · refine (submits_quiet (quiet_journalAsk rfl)).bind fun passed => ?_
      split
      · trivial
      · exact h p rfl
    · exact h p rfl

theorem submits_refused (T : CompactionText) (q : Request) (scopes : List Scope) (attempts : Nat)
    (repair : Bool) (counters : Counters)
    {next : Option (Bool → JournalProgram (Except Error Unit))}
    (h : ∀ p, next = some p → ∀ repair, (p repair).Asks (JournalAsk.Submits P)) (error : Error) :
    (R.refused T q scopes attempts repair counters next error).Asks (JournalAsk.Submits P) := by
  have hnext : ∀ b p, next.map (fun next => next b) = some p → p.Asks (JournalAsk.Submits P) := by
    intro b p hp
    obtain ⟨f, hf, rfl⟩ := Option.map_eq_some_iff.mp hp
    exact h f hf b
  unfold refused
  split
  · exact (submits_quiet (quiet_readCounters T scopes false)).andThen fun fresh =>
      R.submits_again q attempts error true (hnext _)
  · split
    · exact R.submits_again q attempts error false (hnext _)
    · trivial

variable (E : Env) (T : CompactionText)

theorem submits_attempt (hplan : q.scopePlan R.journal = .ok plan) (scopes : List Scope)
    (attempts : Nat) {next : Option (Bool → JournalProgram (Except Error Unit))}
    (h : ∀ p, next = some p → ∀ repair, (p repair).Asks (JournalAsk.Submits
      (q.JournaledAs E T.toJournalText R.journal))) (repair : Bool) :
    (R.attempt E T q plan scopes attempts next repair).Asks (JournalAsk.Submits
      (q.JournaledAs E T.toJournalText R.journal)) := by
  refine (submits_quiet (quiet_readCounters T scopes repair)).andThen fun counters => ?_
  refine Script.Asks.check fun staged hstage => Script.Asks.check fun _ _ => ?_
  refine (submits_quiet R.quiet_ensureDeclared).andThen fun declared => ?_
  refine (submits_submit (.staged hplan hstage)).bind fun result => ?_
  cases result with
  | ok u => trivial
  | error error =>
    simp only
    split
    · exact (submits_quiet (quiet_retract declared)).bind fun _ => trivial
    · exact R.submits_refused T q scopes attempts repair counters h error

theorem submits_attemptsFrom (hplan : q.scopePlan R.journal = .ok plan) (scopes : List Scope)
    (left attempts : Nat) (repair : Bool) :
    (R.attemptsFrom E T q plan scopes left attempts repair).Asks (JournalAsk.Submits
      (q.JournaledAs E T.toJournalText R.journal)) := by
  induction left generalizing attempts repair with
  | zero => exact R.submits_attempt E T hplan scopes attempts (by simp) repair
  | succ left ih =>
    refine R.submits_attempt E T hplan scopes attempts ?_ repair
    rintro p ⟨⟩ next
    exact ih _ next

/-- A journaled commit submits what the journal makes of its request, and nothing else. -/
theorem submits_drive (q : Request) :
    (R.drive E T q).Asks (JournalAsk.Submits (q.JournaledAs E T.toJournalText R.journal)) := by
  refine Script.Asks.check fun plan hplan => ?_
  split
  · exact submits_submit .stripped
  · exact R.submits_attemptsFrom E T hplan _ _ _ _

end JournalRepository

end Programs

theorem Request.staged_streams {E : Env} {T : JournalText} {journal : Journal} {staged : Request}
    {counters : Counters} (hplan : q.scopePlan journal = .ok plan)
    (hstage : stageJournal E T journal q plan counters = .ok staged) :
    ∃ streams views, staged = (q.withEvents streams).withViews views ∧
      ∀ entry ∈ streams, entry.2 ≠ [] := by
  obtain ⟨lists, next, rows, views, hallocate, -, -, rfl⟩ := stageJournal_ok hstage
  obtain ⟨rfl, -, -⟩ := allocateFrom_ok (fun scopes hscopes =>
    List.pairwise_map.mpr ((scopePlan_sorted hplan scopes hscopes).imp fun hlt => hlt.ne)) hallocate
  refine ⟨_, views, rfl, assign_ne_nil q.eventStreams_ne_nil ?_⟩
  rw [length_positionsFrom]
  exact (mapM_eq_ok.mp hplan).length_eq.le

/-- The journal's request has other events in the streams with some, and more operations. -/
theorem Request.JournaledAs.extended {E : Env} {T : JournalText} {journal : Journal} {q' : Request}
    (h : q.JournaledAs E T journal q') :
    ∃ streams views, q' = (q.withEvents streams).withViews views ∧
      ∀ entry ∈ streams, entry.2 ≠ [] := by
  cases h with
  | stripped =>
    obtain ⟨streams, heq, -, hstripped⟩ := q.withoutAllocations_eq
    refine ⟨streams, [], heq.trans (Request.withViews_nil _).symm, fun entry hentry => ?_⟩
    obtain ⟨stream, hstream, hentry⟩ := hstripped entry hentry
    simpa [hentry] using q.eventStreams_ne_nil stream hstream
  | staged hplan hstage => exact staged_streams hplan hstage

end EventStore
