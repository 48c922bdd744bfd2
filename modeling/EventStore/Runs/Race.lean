import EventStore.Memory.Atomic
import EventStore.Memory.Refusals
import EventStore.Runs.World

/-!
Executions that share a command ID. A recorded outcome row is never replaced, so of
all the commits that carry the ID's outcome at most one applies, and what an
execution returns is read from the row.
-/
namespace EventStore

open Result Program

variable {ι : Type}

variable {q : Request}

namespace Request

def Records (id : CommandId) (row : Outcome → Prop) (q : Request) : Prop :=
  ∃ outcome, q.outcome = some outcome ∧ outcome.commandId = id ∧
    ∀ eventIds, row (outcome.stored eventIds)

theorem storedOutcome_eq (q : Request) :
    ∃ eventIds, q.storedOutcome = q.outcome.map fun outcome => outcome.stored eventIds := by
  cases q with
  | commit c => exact ⟨_, rfl⟩
  | transaction t => exact ⟨_, rfl⟩

theorem plan_outcome {E : Env} {write : Write} (h : q.plan E = .ok (some write)) :
    ∃ eventIds, write.outcome = q.outcome.map fun outcome => outcome.stored eventIds := by
  obtain ⟨eventIds, heq⟩ := q.storedOutcome_eq
  exact ⟨eventIds, (plans_some h).outcome ▸ heq⟩

theorem Records.planned {E : Env} {id : CommandId} {row : Outcome → Prop} {write : Write}
    (h : q.Records id row) (hplan : q.plan E = .ok (some write)) :
    ∃ outcome, write.outcome = some outcome ∧ outcome.commandId = id ∧ row outcome := by
  obtain ⟨outcome, hq, hid, hrow⟩ := h
  obtain ⟨eventIds, hwrite⟩ := plan_outcome hplan
  exact ⟨outcome.stored eventIds, by simp [hwrite, hq], hid, hrow eventIds⟩

end Request

namespace World

def row (w : World ι) (commandId : CommandId) : Option Outcome := w.stores.outcomes[commandId]?

/-- Stored rows belong to distinct commands, and a refused command is recorded. -/
structure Recorded (id : CommandId) (permitted : Outcome → Prop) (w : World ι) : Prop where
  rows : ∀ e ∈ w.applied, ∀ o, e.write.outcome = some o → w.row o.commandId = some o
  distinct : w.applied.Pairwise fun a b =>
    ∀ o o', a.write.outcome = some o → b.write.outcome = some o' → o.commandId ≠ o'.commandId
  own : ∀ e ∈ w.applied, e.author.isSome = true →
    ∃ o, e.write.outcome = some o ∧ o.commandId = id
  pending : ∀ f ∈ w.inFlight, f.request.Records id permitted
  stored : ∀ o, w.row id = some o → permitted o
  refused : ∀ i, w.refused i = true → ∃ o, w.row id = some o

section Effects

variable {E : Env} {commits : Option ι → Nat → Request → Prop}
  {puts : SerializedSnapshot → Prop} {w w' : World ι}

/-- What an effect does to the rows: nothing, or it adds the row of the command it
records, which had none. -/
theorem Effect.row_cases (h : Effect E commits puts w w') :
    ((∀ c, w'.row c = w.row c) ∧
      (w'.applied = w.applied ∨ ∃ e : Applied ι, w'.applied = w.applied ++ [e] ∧
        e.write.outcome = none ∧ commits e.author e.started e.request ∧
        e.request.plan E = .ok (some e.write))) ∨
    ∃ (e : Applied ι) (o : Outcome), w'.applied = w.applied ++ [e] ∧
      e.write.outcome = some o ∧ commits e.author e.started e.request ∧
      e.request.plan E = .ok (some e.write) ∧ w.row o.commandId = none ∧
      ∀ c, w'.row c = if c = o.commandId then some o else w.row c := by
  unfold row
  cases h with
  | quiet data applied => exact .inl ⟨fun c => by rw [data.outcomes], .inl applied⟩
  | snapshot _ _ _ data applied | compact _ _ _ data applied =>
    exact .inl ⟨fun c => by rw [data.outcomes]; rfl, .inl applied⟩
  | @commit entry source accepted data applied =>
    obtain ⟨source, plan⟩ := source
    cases ho : entry.write.outcome with
    | none =>
      refine .inl ⟨fun c => ?_, .inr ⟨_, applied, ho, source, plan⟩⟩
      rw [data.outcomes, Write.outcomes_apply, ho]
    | some o =>
      refine .inr ⟨_, o, applied, ho, source, plan, accepted.outcome o ho, fun c => ?_⟩
      rw [data.outcomes, Write.outcomes_apply, ho]

theorem Effect.keeps_row (h : Effect E commits puts w w') {c : CommandId} {o : Outcome}
    (hrow : w.row c = some o) : w'.row c = some o := by
  rcases h.row_cases with ⟨hsame, -⟩ | ⟨e, o', -, -, -, -, hnone, hset⟩
  · rw [hsame, hrow]
  · rw [hset, if_neg, hrow]
    rintro rfl
    simp [hnone] at hrow

theorem Effect.recorded {id : CommandId} {permitted : Outcome → Prop}
    (h : Effect E commits puts w w') (hw : w.Recorded id permitted)
    (hcommits : ∀ author started q, commits author started q →
      (author.isSome = true → q.Records id permitted) ∧
      ∀ o, q.outcome = some o → o.commandId = id → ∀ eventIds, permitted (o.stored eventIds))
    (hpending : ∀ f ∈ w'.inFlight, f.request.Records id permitted)
    (hrefused : ∀ i, w'.refused i = true → ∃ o, w'.row id = some o) :
    w'.Recorded id permitted := by
  have hrows : ∀ e ∈ w.applied, ∀ o, e.write.outcome = some o → w'.row o.commandId = some o :=
    fun e he o ho => h.keeps_row (hw.rows e he o ho)
  rcases h.row_cases with ⟨hsame, happlied⟩ | ⟨e, o, happlied, ho, hsource, hplan, hnone, hset⟩
  · have hstored : ∀ o, w'.row id = some o → permitted o := fun o ho =>
      hw.stored o (hsame id ▸ ho)
    rcases happlied with happlied | ⟨e, happlied, ho, hsource, hplan⟩
    · exact ⟨happlied ▸ hrows, happlied ▸ hw.distinct, happlied ▸ hw.own, hpending, hstored,
        hrefused⟩
    · refine ⟨?_, ?_, ?_, hpending, hstored, hrefused⟩
      · rw [happlied]
        simp only [List.forall_mem_append, List.forall_mem_singleton]
        exact ⟨hrows, by simp [ho]⟩
      · rw [happlied, List.pairwise_append]
        exact ⟨hw.distinct, by simp, by simp [ho]⟩
      · rw [happlied]
        simp only [List.forall_mem_append, List.forall_mem_singleton]
        refine ⟨hw.own, fun hauthor => ?_⟩
        obtain ⟨o, hsome, -⟩ := ((hcommits _ _ _ hsource).1 hauthor).planned hplan
        simp [ho] at hsome
  · refine ⟨?_, ?_, ?_, hpending, ?_, hrefused⟩
    · rw [happlied]
      simp only [List.forall_mem_append, List.forall_mem_singleton]
      refine ⟨hrows, fun o' ho' => ?_⟩
      obtain rfl : o = o' := by simpa [ho] using ho'
      rw [hset, if_pos rfl]
    · rw [happlied, List.pairwise_append]
      refine ⟨hw.distinct, by simp, ?_⟩
      simp only [List.forall_mem_singleton]
      intro e' he' o₁ o₂ ho₁ ho₂ heq
      obtain rfl : o = o₂ := by simpa [ho] using ho₂
      have := hw.rows e' he' o₁ ho₁
      simp [heq, hnone] at this
    · rw [happlied]
      simp only [List.forall_mem_append, List.forall_mem_singleton]
      refine ⟨hw.own, fun hauthor => ?_⟩
      obtain ⟨o', hsome, hid, -⟩ := ((hcommits _ _ _ hsource).1 hauthor).planned hplan
      exact ⟨o', hsome, hid⟩
    · intro o' ho'
      rw [hset] at ho'
      split at ho'
      · rename_i hid
        cases ho'
        obtain ⟨eventIds, heq⟩ := Request.plan_outcome hplan
        rw [ho] at heq
        cases hq : e.request.outcome with
        | none => simp [hq] at heq
        | some listed =>
          obtain rfl : o = listed.stored eventIds := by simpa [hq] using heq
          exact (hcommits _ _ _ hsource).2 listed hq hid.symm eventIds
      · exact hw.stored o' ho'

end Effects

structure Keeps (i : ι) (w w' : World ι) : Prop where
  rows : ∀ c o, w.row c = some o → w'.row c = some o
  refused : w'.refused i = w.refused i

structure Guarantees (id : CommandId) (permitted : Outcome → Prop) (i : ι) (w w' : World ι) :
    Prop where
  recorded : w'.Recorded id permitted
  rows : ∀ c o, w.row c = some o → w'.row c = some o
  others : ∀ j, j ≠ i → w'.refused j = w.refused j

section Calls

variable {E : Env} {id : CommandId} {permitted : Outcome → Prop} {w w' : World ι}

/-- A commit is noted as refused only when its command is recorded. -/
theorem Acts.refused_recorded [DecidableEq ι] {i : ι} {answer : Except Error Unit}
    (h : Acts E i w (.submit q) answer w') (hq : q.Records id permitted)
    (hrefused : w'.refused i = true) :
    w.refused i = true ∨ (∃ c, answer = .error (.outcomeConflict c)) ∧ ∃ o, w.row id = some o := by
  cases h with
  | submitFails _ _ | submitLost _ _ => exact .inl hrefused
  | submit handle _ =>
    by_cases hw : w.refused i = true
    · exact .inl hw
    · obtain ⟨o, ho, hid, -⟩ := hq
      simp only [submitBy, Function.update_self, hw, Bool.false_or] at hrefused ⊢
      split at hrefused
      · cases hrefused
      · rename_i error herror
        rw [Bool.and_eq_true] at hrefused
        obtain ⟨hconflict, hrecorded⟩ := hrefused
        refine .inr ⟨?_, ?_⟩
        · cases error <;> simp_all [Error.isOutcomeConflict]
        · simp only [World.recorded, ho, Option.any_some, OrdMap.contains_eq, hid] at hrecorded
          exact Option.isSome_iff_exists.mp hrecorded

theorem Acts.guarantees [DecidableEq ι] {i : ι} {a : Ask} {answer : Answer a}
    (h : Acts E i w a answer w') (hw : w.Recorded id permitted)
    (hsubmit : ∀ q, a = .submit q → q.Records id permitted) :
    Guarantees id permitted i w w' := by
  have hrows : ∀ c o, w.row c = some o → w'.row c = some o := fun c o => h.effect.keeps_row
  refine ⟨h.effect.recorded hw ?_ ?_ ?_, hrows, fun j hj => h.refused_other hj⟩
  · rintro author started q ⟨-, -, ha⟩
    refine ⟨fun _ => hsubmit q ha, fun o ho _ => ?_⟩
    obtain ⟨o', ho', -, hpermitted⟩ := hsubmit q ha
    obtain rfl : o = o' := by simpa [ho] using ho'
    exact hpermitted
  · intro f hf
    rcases h.inFlight f hf with hf | ⟨-, -, ha⟩
    · exact hw.pending f hf
    · exact hsubmit _ ha
  · intro j hj
    by_cases hij : j = i
    · subst hij
      cases a with
      | submit q =>
        rcases h.refused_recorded (hsubmit q rfl) hj with hj | ⟨-, o, ho⟩
        · exact (hw.refused j hj).imp fun o => hrows id o
        · exact ⟨o, hrows id o ho⟩
      | _ =>
        rw [h.refused_own fun q hq => by cases hq] at hj
        exact (hw.refused j hj).imp fun o => hrows id o
    · rw [h.refused_other hij] at hj
      exact (hw.refused j hj).imp fun o => hrows id o

theorem Moves.guarantees {others : Writers ι} (h : Moves E others w w')
    (hw : w.Recorded id permitted)
    (hothers : ∀ q, others.commits w q → ∀ o, q.outcome = some o → o.commandId = id →
      ∀ eventIds, permitted (o.stored eventIds)) :
    w'.Recorded id permitted ∧ ∀ i, Keeps i w w' := by
  have hrows : ∀ c o, w.row c = some o → w'.row c = some o := fun c o => h.effect.keeps_row
  refine ⟨h.effect.recorded hw ?_ (fun f hf => hw.pending f (h.inFlight f hf)) ?_,
    fun i => ⟨hrows, by rw [h.refused]⟩⟩
  · rintro author started q (⟨f, hf, -, -, rfl⟩ | ⟨rfl, hq⟩)
    · refine ⟨fun _ => hw.pending f hf, fun o ho _ => ?_⟩
      obtain ⟨o', ho', -, hpermitted⟩ := hw.pending f hf
      obtain rfl : o = o' := by simpa [ho] using ho'
      exact hpermitted
    · exact ⟨by simp, hothers q hq⟩
  · intro i hi
    rw [h.refused] at hi
    exact (hw.refused i hi).imp fun o => hrows id o

theorem Acts.row_of_ok [DecidableEq ι] {i : ι} {o : Outcome}
    (h : Acts E i w (.submit q) (.ok ()) w') (ho : q.storedOutcome = some o) :
    w'.row o.commandId = some o := by
  generalize hanswer : (.ok () : Except Error Unit) = answer at h
  cases h with
  | submitFails _ _ | submitLost _ _ => cases hanswer
  | submit handle _ =>
    rcases land_cases E handle (some i) (w.started i) q w with
      ⟨-, -, hplan⟩ | ⟨-, write, hplan, -, hdata, -⟩
    · have := (Request.plans_none (hplan hanswer.symm)).outcome
      rw [ho] at this
      cases this
    · have houtcome := (Request.plans_some hplan).outcome
      rw [ho] at houtcome
      show (w.land E handle (some i) (w.started i) q).2.stores.outcomes[o.commandId]? = some o
      rw [hdata.outcomes, Write.outcomes_apply, ← houtcome]
      simp

theorem Acts.notDuplicate [DecidableEq ι] {i : ι} {answer : Except Error Unit}
    (h : Acts E i w (.submit q) answer w') : NotDuplicate answer := by
  cases h with
  | submit handle _ => exact Request.run_notDuplicate E _ q
  | submitFails _ h =>
    rename_i error
    cases error <;> simp_all [Error.isStorageFailure, Error.isDuplicateCommand]
  | submitLost _ _ => simp [Error.isDuplicateCommand]

end Calls

end World

end EventStore
