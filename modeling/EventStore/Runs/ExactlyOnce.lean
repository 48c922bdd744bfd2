import EventStore.Runs.Decisions
import EventStore.Runs.Schedule

/-!
Any number of executions of one command ID, in any interleaving: at most one of their commits
applies, and what an execution returns is the stored row, as long as no load reads the winner's
events.
-/
namespace EventStore

open Result Program World

variable {κ : Type} {A : κ → Aggregate}

inductive Execution (A : κ → Aggregate) where
  | single (kind : κ) (config : StoreConfig (A kind)) (entityId : EntityId)
      (command : (A kind).Command) (metadata : Metadata)
      (respond : (A kind).State → List (A kind).Event → Except String (Option Bytes))
  | transaction (config : TransactionConfig) (identity : CommandIdentity) (metadata : Metadata)
      (prepare : Prepare A)

namespace Execution

def metadata : Execution A → Metadata
  | .single _ _ _ _ metadata _ => metadata
  | .transaction _ _ metadata _ => metadata

/-- The command as it is frozen before anything is read, when outcomes are enabled. -/
def frozen : Execution A → Option (Except Error PendingCommand)
  | .single _ config entityId command metadata _ =>
    config.outcomes.map fun outcomes => StoreConfig.freeze outcomes entityId command metadata
  | .transaction config identity metadata _ =>
    config.outcomes.map fun outcomes => freezeCommand outcomes identity metadata

def Honest : Execution A → Prop
  | .single _ _ _ _ _ _ => True
  | .transaction _ _ _ prepare => prepare.Honest

variable [DecidableEq κ]

def program (E : Env) : Execution A → Program (Except Error Outcome)
  | .single _ config entityId command metadata respond =>
    (config.executeWithResponse E entityId command metadata respond).bind fun result =>
      .done (result.map (·.outcome))
  | .transaction config identity metadata prepare =>
    (executeTransaction E config identity metadata prepare).bind fun result =>
      .done (result.map (·.outcome))

end Execution

section Races

variable {ι : Type} [DecidableEq ι] [DecidableEq κ] {E : Env} {id : CommandId}
  {permitted : Outcome → Prop} {allowed : World ι → Ask → Prop} {i : ι} {plain : Prop}
  {w : World ι} {digest : String}

theorem races_outcome {ε : Type} {p : Program (Except Error (CommandOutcome ε))}
    (h : Races E id permitted allowed i
      (fun r => Answered id permitted plain i digest (r.map (·.outcome))) p w) :
    Races E id permitted allowed i (Answered id permitted plain i digest)
      (p.bind fun result => .done (result.map (·.outcome))) w :=
  h.bind fun _ _ ht => ht

/-- Executions answer with the row, whatever the others do meanwhile. -/
theorem Execution.races {x : Execution A} (hid : x.metadata.commandId = some id)
    (hpermitted : ∀ pending, x.frozen = some (.ok pending) → pending.digest = digest ∧
      ∀ o, o.commandId = id → o.digest = pending.digest → permitted o)
    (hplain : plain → Unseen id allowed ∧ x.Honest) (hb : w.refused i = false) :
    Races E id permitted allowed i (Answered id permitted plain i digest) (x.program E) w := by
  cases x with
  | single kind config entityId command metadata respond =>
    simp only [program, StoreConfig.executeWithResponse, frozen] at hpermitted ⊢
    cases hconfig : config.outcomes with
    | none => exact answered_early hb rfl
    | some outcomes =>
      simp only [hconfig, Option.map_some, Option.some.injEq] at hpermitted ⊢
      refine races_outcome (.check (fun e he => ?_) fun pending hpending => ?_)
      · exact answered_early hb (freeze_notDuplicate outcomes entityId command metadata e he)
      · obtain ⟨rfl, hrows⟩ := hpermitted pending hpending
        obtain ⟨-, hcommand, hvalid⟩ := freeze_ok hpending
        obtain rfl : id = pending.commandId := by
          simpa [Execution.metadata, hcommand] using hid.symm
        have hp : Enters pending.commandId permitted pending := ⟨rfl, hvalid, hrows⟩
        exact retried_races hp rfl
          (fun w => attemptWithResponse_races hp (fun h => (hplain h).1) entityId command) _ _
  | transaction config identity metadata prepare =>
    simp only [program, executeTransaction, frozen] at hpermitted ⊢
    cases hconfig : config.outcomes with
    | none => exact answered_early hb rfl
    | some outcomes =>
      simp only [hconfig, Option.map_some, Option.some.injEq] at hpermitted ⊢
      refine races_outcome (.check (fun e he => ?_) fun pending hpending => ?_)
      · exact answered_early hb (freezeCommand_notDuplicate outcomes identity metadata e he)
      · obtain ⟨rfl, hrows⟩ := hpermitted pending hpending
        obtain ⟨hmetadata, hcommand, hvalid⟩ := freezeCommand_ok hpending
        obtain rfl : id = pending.commandId := by
          simpa [Execution.metadata, hcommand] using hid.symm
        have hp : Enters pending.commandId permitted pending := ⟨rfl, hvalid, hrows⟩
        refine retried_races hp rfl (fun w => ?_) _ _
        exact attemptTransaction_races hp (hmetadata ▸ hcommand) (fun h => (hplain h).1)
          fun h => (hplain h).2

/-- In every state the pool comes to, the rows and the answers are as they should be. -/
theorem executions_answered (permitted : Outcome → Prop) (plain : Prop) (digest : ι → String)
    {x : ι → Execution A} {others : Writers ι} {stores : Stores}
    (hid : ∀ i, (x i).metadata.commandId = some id)
    (hpermitted : ∀ i pending, (x i).frozen = some (.ok pending) → pending.digest = digest i ∧
      ∀ o, o.commandId = id → o.digest = pending.digest → permitted o)
    (hplain : plain → Unseen id allowed ∧ ∀ i, (x i).Honest)
    (hstores : ∀ o, stores.outcomes[id]? = some o → permitted o)
    (hothers : ∀ w q, others.commits w q → ∀ o, q.outcome = some o → o.commandId = id →
      ∀ eventIds, permitted (o.stored eventIds))
    {threads : ι → Program (Except Error Outcome)}
    (hreach : Pool.Reaches (ActsWhen E allowed) (Moves E others)
      (World.start stores, fun i => (x i).program E) (w, threads)) :
    w.Recorded id permitted ∧ ∀ i, Races E id permitted allowed i
      (Answered id permitted plain i (digest i)) (threads i) w := by
  have hstart : (World.start stores : World ι).Recorded id permitted :=
    ⟨by simp [World.start], by simp [World.start], by simp [World.start], by simp [World.start],
      hstores, by simp [World.start]⟩
  refine Pool.safe_of_reaches (fun i w => ⟨fun _ _ h => h, rfl⟩) ?_
    (fun i r s t h hkeeps => h.stable hkeeps) ?_ ?_ hreach hstart fun i => ?_
  · exact fun i s t u hst htu =>
      ⟨fun c o h => htu.rows c o (hst.rows c o h), htu.refused.trans hst.refused⟩
  · exact fun i s t _ h => ⟨h.recorded, fun j hj => ⟨h.rows, h.others j hj⟩⟩
  · exact fun s t hs h => h.guarantees hs (hothers s)
  · exact Execution.races (hid i) (hpermitted i) (fun h => ⟨(hplain h).1, (hplain h).2 i⟩) rfl

end Races

section Results

variable {ι : Type} [DecidableEq ι] [DecidableEq κ]

theorem length_filter_le_one {α : Type} {R : α → α → Prop} {l : List α} {p : α → Bool}
    (h : l.Pairwise R) (hp : ∀ a ∈ l, ∀ b ∈ l, p a = true → p b = true → ¬R a b) :
    (l.filter p).length ≤ 1 := by
  have hpair := h.filter p
  cases hl : l.filter p with
  | nil => simp
  | cons a rest =>
    cases rest with
    | nil => simp
    | cons b rest =>
      rw [hl] at hpair
      have ha := List.mem_filter.mp (hl ▸ List.mem_cons_self : a ∈ l.filter p)
      have hb := List.mem_filter.mp (hl ▸ by simp : b ∈ l.filter p)
      exact absurd ((List.pairwise_cons.mp hpair).1 b (by simp))
        (hp a ha.1 b hb.1 ha.2 hb.2)

def Execution.digest (x : Execution A) : String :=
  match x.frozen with
  | some (.ok pending) => pending.digest
  | _ => ""

/-- At most one commit of a command's outcome ever applies, and an execution that returns an outcome
returns the stored row. -/
theorem outcome_exactly_once (E : Env) (x : ι → Execution A) (id : CommandId) (stores : Stores)
    (hid : ∀ i, (x i).metadata.commandId = some id) (w : World ι)
    (threads : ι → Program (Except Error Outcome))
    (hreach : Pool.Reaches (Acts E) (Moves E anyone)
      (World.start stores, fun i => (x i).program E) (w, threads)) :
    (w.applied.filter fun e => e.write.outcome.any fun o => o.commandId == id).length ≤ 1 ∧
    (w.applied.filter fun e => e.author.isSome).length ≤ 1 ∧
    ∀ i outcome, threads i = .done (.ok outcome) → w.stores.outcomes[id]? = some outcome := by
  obtain ⟨hrec, hraces⟩ := executions_answered (fun _ => True) False (fun i => (x i).digest) hid
    (fun i pending hpending => ⟨by simp [Execution.digest, hpending], fun _ _ _ => trivial⟩)
    False.elim (fun _ _ => trivial) (fun _ _ _ _ _ _ _ => trivial) (reaches_when_true hreach)
  refine ⟨?_, ?_, ?_⟩
  · refine length_filter_le_one hrec.distinct fun a _ b _ ha hb hne => ?_
    obtain ⟨o, ho, hoid⟩ := (Option.any_eq_true _ _).mp ha
    obtain ⟨o', ho', hoid'⟩ := (Option.any_eq_true _ _).mp hb
    exact hne o o' ho ho' ((beq_iff_eq.mp hoid).trans (beq_iff_eq.mp hoid').symm)
  · refine length_filter_le_one hrec.distinct fun a ha b hb hauthor hauthor' hne => ?_
    obtain ⟨o, ho, hoid⟩ := hrec.own a ha hauthor
    obtain ⟨o', ho', hoid'⟩ := hrec.own b hb hauthor'
    exact hne o o' ho ho' (hoid.trans hoid'.symm)
  · intro i outcome hdone
    have hanswered := hraces i
    rw [hdone] at hanswered
    exact hanswered.stored outcome rfl

def racer : Execution fun _ : Unit => counter :=
  .single () counter.store "a" (0 : Nat) { commandId := some "k" } fun _ _ => .ok none

def race (schedule : List Bool) : World Bool × (Bool → Program (Except Error Outcome)) :=
  turns Env.plain (World.start .empty, fun _ => racer.program Env.plain) schedule

theorem reaches_race (env : World Bool → World Bool → Prop) (schedule : List Bool) :
    Pool.Reaches (Acts Env.plain) env (World.start .empty, fun _ => racer.program Env.plain)
      ((race schedule).1, (race schedule).2) :=
  reaches_turns Env.plain env _ schedule

/-- The first execution commits, and the second reads its row. -/
theorem outcome_exactly_once_of_two :
    let c := race (List.replicate 6 true ++ [false])
    (c.1.applied.filter fun e => e.author.isSome).length ≤ 1 ∧
      ∃ outcome, c.2 true = .done (.ok outcome) ∧ c.2 false = .done (.ok outcome) ∧
        c.1.stores.outcomes["k"]? = some outcome := by
  have h := outcome_exactly_once Env.plain (fun _ : Bool => racer) "k" .empty (fun _ => rfl) _ _
    (reaches_race (Moves Env.plain anyone) (List.replicate 6 true ++ [false]))
  exact ⟨h.2.1, _, rfl, rfl, h.2.2 false _ rfl⟩

def readsUnseen (id : CommandId) (w : World ι) : Ask → Prop
  | .eventsAfter entityId after =>
    ∀ event ∈ w.stores.eventsAfter entityId after, event.metadata.commandId ≠ some id
  | _ => True

/-- Writers whose outcomes for the command have the executions' digest. -/
def agreeing (id : CommandId) (digest : String) : Writers ι :=
  ⟨fun _ q => ∀ o, q.outcome = some o → o.commandId = id → o.digest = digest, fun _ _ => True⟩

/-- The loser's pre-check runs before the winner's commit and its load after. -/
theorem lost_race_answers_duplicate :
    let schedule := false :: List.replicate 6 true ++ List.replicate 3 false
    Pool.Reaches (Acts Env.plain) (Moves Env.plain noOne)
        (World.start .empty, fun _ => racer.program Env.plain)
        ((race schedule).1, (race schedule).2) ∧
      (race schedule).2 false = .done (.error (.duplicateCommand "k")) ∧
      ∃ outcome, (race schedule).2 true = .done (.ok outcome) ∧
        (race schedule).1.stores.outcomes["k"]? = some outcome :=
  ⟨reaches_race _ _, rfl, _, rfl, rfl⟩

/-- Where no event read finds an event of the command, an execution never answers
`DuplicateCommand`, and what it returns is the stored row. -/
theorem lost_race_answered (E : Env) (x : ι → Execution A) (id : CommandId) (digest : String)
    (stores : Stores) (hid : ∀ i, (x i).metadata.commandId = some id)
    (hdigest : ∀ i pending, (x i).frozen = some (.ok pending) → pending.digest = digest)
    (hhonest : ∀ i, (x i).Honest)
    (hstores : ∀ o, stores.outcomes[id]? = some o → o.digest = digest) (w : World ι)
    (threads : ι → Program (Except Error Outcome))
    (hreach : Pool.Reaches (ActsWhen E (readsUnseen id)) (Moves E (agreeing id digest))
      (World.start stores, fun i => (x i).program E) (w, threads)) (i : ι)
    (result : Except Error Outcome) (hdone : threads i = .done result) :
    (∀ c, result ≠ .error (.duplicateCommand c)) ∧
    (∀ outcome, result = .ok outcome → w.stores.outcomes[id]? = some outcome) ∧
    (w.refused i = true → (∃ outcome, result = .ok outcome) ∨
      ∃ error, result = .error error ∧ error.isStorageFailure = true) := by
  have hothers : ∀ (w : World ι) q, (agreeing id digest).commits w q → ∀ o, q.outcome = some o →
      o.commandId = id → ∀ eventIds, (o.stored eventIds).digest = digest :=
    fun w q hq o ho hoid _ => hq o ho hoid
  obtain ⟨-, hraces⟩ := executions_answered (fun o => o.digest = digest) True (fun _ => digest) hid
    (fun i pending hpending => ⟨hdigest i pending hpending,
      fun o _ ho => ho.trans (hdigest i pending hpending)⟩)
    (fun _ => ⟨fun w entityId after h => h, hhonest⟩) hstores hothers hreach
  have hanswered := hraces i
  rw [hdone] at hanswered
  refine ⟨?_, hanswered.stored, fun hrefused => ?_⟩
  · rintro c rfl
    exact absurd (hanswered.unique trivial _ rfl) (by simp [Error.isDuplicateCommand])
  · cases result with
    | ok outcome => exact .inl ⟨outcome, rfl⟩
    | error error =>
      exact .inr ⟨error, rfl, hanswered.settled (fun o ho => ho) hrefused error rfl⟩

/-- The loser loads before the winner commits: its own commit is refused, and it
answers with the winner's row. -/
theorem lost_race_answered_of_two :
    let c := race [false, false, false, false, true, true, true, true, true, true,
      false, false, false]
    c.1.refused false = true ∧ ∃ outcome, c.2 false = .done (.ok outcome) ∧
      c.1.stores.outcomes["k"]? = some outcome := by
  have hallowed : Allows Env.plain (readsUnseen "k")
      (World.start .empty, fun _ : Bool => racer.program Env.plain)
      [false, false, false, false, true, true, true, true, true, true, false, false, false] :=
    ⟨trivial, trivial, trivial, fun _ h => absurd h List.not_mem_nil, trivial, trivial, trivial,
      fun _ h => absurd h List.not_mem_nil, trivial, trivial, trivial, trivial, trivial, trivial⟩
  have h := lost_race_answered Env.plain (fun _ : Bool => racer) "k" "digest" .empty (fun _ => rfl)
    (fun _ _ hpending => by cases hpending; rfl) (fun _ => trivial) (by simp [Stores.empty]) _ _
    (reaches_turns_when (Moves Env.plain (agreeing "k" "digest")) hallowed) false _ rfl
  exact ⟨rfl, _, rfl, h.2.1 _ rfl⟩

end Results

end EventStore
