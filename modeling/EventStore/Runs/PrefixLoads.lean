import EventStore.Runs.Preparing
import EventStore.Runs.Schedule

/-!
Loads among any store operations return the fold of a prefix of the log. It may be an old one:
when the stream is snapshotted and compacted between the two reads of a load, the event read finds
nothing, and an outcome without events is recorded on the old state.
-/
namespace EventStore

open Result Program World

variable {κ : Type} {A : κ → Aggregate} {kindOf : EntityId → κ}
variable {ι : Type} [DecidableEq ι] [DecidableEq κ]

/-- A loaded aggregate and a stored snapshot are the folds of exactly the events ever committed up
to their sequence. -/
theorem loads_prefix_consistent (E : Env) (hA : ∀ kind, (A kind).RoundTrips)
    (x : ι → Operation A kindOf) (htyped : ∀ i, (x i).Typed) (w : World ι)
    (threads : ι → Program (Option ((entityId : EntityId) × Loaded (A (kindOf entityId)))))
    (hreach : Pool.Reaches (Acts E) (Moves E noOne)
      (World.start .empty, fun i => (x i).program E) (w, threads)) :
    (∀ i entityId loaded, threads i = .done (some ⟨entityId, loaded⟩) →
      0 ≤ loaded.sequence ∧ loaded.sequence ≤ (w.log entityId).length ∧
      (A (kindOf entityId)).fold ((w.log entityId).take loaded.sequence.toNat) =
        .ok loaded.aggregate) ∧
    ∀ entityId snapshot, w.stores.snapshot entityId = some snapshot →
      0 ≤ snapshot.eventSequence ∧ snapshot.eventSequence ≤ (w.log entityId).length ∧
      ∃ state, (A (kindOf entityId)).fold
          ((w.log entityId).take snapshot.eventSequence.toNat) = .ok state ∧
        (A (kindOf entityId)).encode state = .ok snapshot.payload := by
  -- nothing is asked of the event reads here, so nothing is known to be current
  obtain ⟨hconsistent, hoperates⟩ : w.Consistent E False x ∧ _ :=
    consistent_of_reaches hA False.elim htyped (reaches_when_true hreach)
  constructor
  · intro i entityId loaded hdone
    have hsafe := hoperates i
    rw [hdone] at hsafe
    obtain ⟨hnonneg, hwithin, hstate⟩ := hsafe entityId loaded rfl
    exact ⟨hnonneg, hwithin, hstate⟩
  · intro entityId snapshot hs
    obtain ⟨hnonneg, hwithin, hstate⟩ := hconsistent.snapshots entityId snapshot hs
    exact ⟨hnonneg, hwithin, hstate⟩

namespace counter

theorem size_ones (n : Nat) : (String.ofList (List.replicate n '1')).toUTF8.size = n := by
  induction n with
  | zero => rfl
  | succ n ih =>
    rw [List.replicate_succ, String.ofList_cons]
    simp only [String.toUTF8_eq_toByteArray, String.toByteArray_append,
      ByteArray.size_append] at ih ⊢
    rw [ih, add_comm]
    rfl

theorem roundTrips : counter.RoundTrips := by
  refine ⟨?_, ?_⟩
  · intro state bytes h
    cases h
    exact congrArg Except.ok (size_ones state)
  · intro entityId sequence event metadata stored h
    cases h
    rfl

theorem foldFrom_eq (log : List SerializedEvent) (count : Nat) :
    counter.foldFrom count log = .ok (count + log.length) := by
  induction log generalizing count with
  | nil => rfl
  | cons stored log ih =>
    have hread : counter.read stored = .ok () := rfl
    simp only [Aggregate.foldFrom, hread, List.length_cons]
    exact (ih (count + 1)).trans (congrArg Except.ok (Nat.add_right_comm count 1 log.length))

def thirds : StoreConfig counter := { store with outcomes := none, snapshotInterval := 3 }

end counter

abbrev counters : Unit → Aggregate := fun _ => counter

abbrev onlyKind : EntityId → Unit := fun _ => ()

/-- A writer, a command that needs a count of four, a load with a snapshot, and a compaction. -/
def staleness : Fin 4 → Operation counters onlyKind
  | 0 => .session "a" counter.thirds [fun _ => ([(), (), ()], {}), fun _ => ([(), ()], {})]
  | 1 => .executeWithResponse "a" counter.store (4 : Nat) { commandId := some "k" }
      fun _ _ => .ok none
  | 2 => .load "a" 1
  | 3 => .compact "a" 5

def stale (schedule : List (Fin 4)) :
    World (Fin 4) × (Fin 4 → Program (Option ((entityId : EntityId) ×
      Loaded (counters (onlyKind entityId))))) :=
  turns Env.plain (World.start .empty, fun i => (staleness i).program Env.plain) schedule

theorem typed_staleness (i : Fin 4) : (staleness i).Typed := by
  unfold staleness
  split <;> trivial

/-- The writer's stream, read back while it is compacted below its catch-up snapshot. -/
theorem loads_prefix_consistent_of_four :
    let c := stale (List.replicate 7 0 ++ List.replicate 4 2 ++ [3])
    (∃ loaded, c.2 2 = .done (some ⟨"a", loaded⟩) ∧ loaded.sequence = 5 ∧
      counter.fold ((c.1.log "a").take loaded.sequence.toNat) = .ok loaded.aggregate) ∧
    (c.1.stores.held "a").events.size = 0 := by
  have h := loads_prefix_consistent Env.plain (fun _ => counter.roundTrips) staleness
    typed_staleness _ _ (reaches_turns Env.plain (Moves Env.plain noOne) _
      (List.replicate 7 0 ++ List.replicate 4 2 ++ [3]))
  exact ⟨⟨_, rfl, rfl, (h.1 2 "a" _ rfl).2.2⟩, by decide +kernel⟩

/-- Where event reads find the next event still stored, an outcome without events was decided on a
state of the attempt. -/
theorem eventless_outcomes_current (E : Env) (hA : ∀ kind, (A kind).RoundTrips)
    (x : ι → Operation A kindOf) (htyped : ∀ i, (x i).Typed) (w : World ι)
    (threads : ι → Program (Option ((entityId : EntityId) × Loaded (A (kindOf entityId)))))
    (hreach : Pool.Reaches (ActsWhen E Readable) (Moves E noOne)
      (World.start .empty, fun i => (x i).program E) (w, threads))
    (i : ι) (entityId : EntityId) (config : StoreConfig (A (kindOf entityId)))
    (command : (A (kindOf entityId)).Command) (metadata : Metadata)
    (respond : (A (kindOf entityId)).State → List (A (kindOf entityId)).Event →
      Except String (Option Bytes))
    (hx : x i = .executeWithResponse entityId config command metadata respond)
    (k : Nat) (entry : Applied ι) (hentry : w.applied[k]? = some entry)
    (hauthor : entry.author = some i) (c : Commit Empty)
    (hrequest : entry.request = .commit c) (hevents : c.events = []) :
    ∃ outcomes pending state services outcome, config.outcomes = some outcomes ∧
      StoreConfig.freeze outcomes entityId command metadata = .ok pending ∧
      c.entityId = entityId ∧ c.outcome = some outcome ∧
      Had (A (kindOf entityId)) (w.applied.take k) entry.started entityId state ∧
      StoreConfig.Decides E pending respond state command services outcome := by
  obtain ⟨hconsistent, -⟩ : w.Consistent E True x ∧ _ :=
    consistent_of_reaches hA (fun _ _ _ h => h) htyped hreach
  obtain ⟨-, j, hj, hsubmits⟩ := hconsistent.applied k entry hentry
  obtain rfl : i = j := Option.some.inj (hauthor.symm.trans hj)
  have hjustified := hsubmits.justified trivial
  rw [hx] at hjustified
  exact hjustified c hrequest hevents

instance decidableReadable (w : World ι) (a : Ask) : Decidable (Readable w a) :=
  match a with
  | .eventsAfter entityId after =>
    decidable_of_iff (after < (w.stores.held entityId).head →
        (w.stores.held entityId).events.contains (after + 1) = true)
      ⟨fun h _ _ heq => by cases heq; exact h, fun h => h entityId after rfl⟩
  | .span _ | .outcome _ | .outcomeWithin _ | .snapshot _ | .putSnapshot _ | .submit _
  | .compactBelow _ _ | .declareHistory _ | .generate | .consult | .pastDeadline =>
    isTrue fun _ _ heq => nomatch heq

/-- A commit of the given program that recorded the status without events. -/
def Applied.eventless (entry : Applied (Fin 4)) (author : Fin 4) (started : Nat)
    (status : OutcomeStatus) : Bool :=
  match entry.request with
  | .commit c => entry.author == some author && entry.started == started && c.events.isEmpty &&
      c.outcome.any (·.status == status)
  | .transaction _ => false

theorem Applied.of_eventless {applied : List (Applied (Fin 4))} {k : Nat} {author : Fin 4}
    {started : Nat} {status : OutcomeStatus}
    (h : applied[k]?.any (·.eventless author started status) = true) :
    ∃ entry c outcome, applied[k]? = some entry ∧ entry.author = some author ∧
      entry.started = started ∧ entry.request = .commit c ∧ c.events = [] ∧
      c.outcome = some outcome ∧ outcome.status = status := by
  obtain ⟨entry, hentry, heventless⟩ := (Option.any_eq_true _ _).mp h
  unfold Applied.eventless at heventless
  split at heventless
  · rename_i c hc
    simp only [Bool.and_eq_true, beq_iff_eq, List.isEmpty_iff] at heventless
    obtain ⟨⟨⟨hauthor, hstarted⟩, hevents⟩, houtcome⟩ := heventless
    obtain ⟨outcome, ho, hstatus⟩ := (Option.any_eq_true _ _).mp houtcome
    exact ⟨entry, c, outcome, hentry, hauthor, hstarted, hc, hevents, ho, by simpa using hstatus⟩
  · cases heventless

/-- The command after the writer's first commit: it is rejected on the three events. -/
theorem eventless_outcomes_current_of_writer :
    let c := stale (List.replicate 5 0 ++ List.replicate 6 1)
    ∃ entry commit state services pending outcome, c.1.applied[1]? = some entry ∧
      entry.request = .commit commit ∧ commit.events = [] ∧ commit.outcome = some outcome ∧
      Had counter (c.1.applied.take 1) entry.started "a" state ∧
      StoreConfig.Decides Env.plain pending (fun _ _ => .ok none) state (4 : Nat) services
        outcome := by
  intro c
  obtain ⟨entry, commit, outcome, hentry, hauthor, -, hrequest, hevents, -, -⟩ :=
    Applied.of_eventless (show c.1.applied[1]?.any (·.eventless 1 1 .rejected) = true by
      decide +kernel)
  have hallows : Allows Env.plain Readable (World.start .empty, fun i =>
      (staleness i).program Env.plain) (List.replicate 5 0 ++ List.replicate 6 1) := by
    decide +kernel
  have hreach := reaches_turns_when (Moves Env.plain noOne) hallows
  obtain ⟨outcomes, pending, state, services, outcome, -, -, -, ho, hhad, hdecides⟩ :=
    eventless_outcomes_current Env.plain (fun _ => counter.roundTrips) staleness
      typed_staleness c.1 c.2 hreach 1 "a" counter.store
      (4 : Nat) { commandId := some "k" } (fun _ _ => .ok none) rfl 1 entry hentry hauthor commit
      hrequest hevents
  exact ⟨entry, commit, state, services, pending, outcome, hentry, hrequest, hevents, ho, hhad,
    hdecides⟩

/-- The command reads an old snapshot and no events, and its rejection is recorded, although the
stream would accept it. -/
theorem eventless_outcome_of_stale_load :
    let c := stale (List.replicate 7 0 ++ [1, 1, 1] ++ [2, 2, 2, 2, 3] ++ [1, 1, 1])
    ∃ entry commit outcome, c.1.applied[2]? = some entry ∧ entry.author = some 1 ∧
      entry.request = .commit commit ∧ commit.events = [] ∧ commit.outcome = some outcome ∧
      outcome.status = .rejected ∧
      ¬∃ pending state services, Had counter (c.1.applied.take 2) entry.started "a" state ∧
        StoreConfig.Decides Env.plain pending (fun _ _ => .ok none) state (4 : Nat) services
          outcome := by
  intro c
  obtain ⟨entry, commit, outcome, hentry, hauthor, hstarted, hrequest, hevents, ho, hstatus⟩ :=
    Applied.of_eventless (show c.1.applied[2]?.any (·.eventless 1 2 .rejected) = true by
      decide +kernel)
  refine ⟨entry, commit, outcome, hentry, hauthor, hrequest, hevents, ho, hstatus, ?_⟩
  rintro ⟨pending, state, services, ⟨t, ht, ht', hfold⟩, hdecides⟩
  have hlength : (c.1.applied.take 2).length ≤ 2 := List.length_take_le 2 c.1.applied
  obtain rfl : t = 2 := by omega
  have hlog : (logOf ((c.1.applied.take 2).take 2) "a").length = 5 := by decide +kernel
  obtain rfl : state = (5 : Nat) := by
    have := Except.ok.inj (hfold.symm.trans (counter.foldFrom_eq _ 0))
    rwa [hlog] at this
  exact List.cons_ne_nil _ _ hdecides.1

end EventStore
