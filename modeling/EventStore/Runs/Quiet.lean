import EventStore.Core.Transactions

/-!
The programs that only read, wait and declare: whatever the answers, they commit
nothing and store no snapshot. What a caller knows before such a program it still
knows after it. A load also stores a snapshot, so it has a rule of its own.
-/
namespace EventStore

open Program

def Ask.quiet : Ask → Bool
  | .span _ | .putSnapshot _ | .submit _ | .compactBelow _ _ => false
  | _ => true

theorem Ask.ne_submit_of_quiet {a : Ask} (h : a.quiet = true) (q : Request) : a ≠ .submit q := by
  rintro rfl
  cases h

abbrev Program.Quiet {α : Type} (p : Program α) : Prop := p.Asks fun a => a.quiet = true

theorem quiet_ask {a : Ask} (h : a.quiet = true) : (ask a).Quiet := asks_ask h

variable {P : Ask → Prop}

theorem asks_stampCommitId (h : P .generate) (metadata : Metadata) :
    (stampCommitId metadata).Asks P := by
  unfold stampCommitId
  split
  · trivial
  · split
    · exact (asks_ask h).bind fun _ => trivial
    · trivial

theorem quiet_stampCommitId (metadata : Metadata) : (stampCommitId metadata).Quiet :=
  asks_stampCommitId (P := fun a => a.quiet = true) rfl metadata

theorem asks_readyProjectors (h : ∀ types, P (.declareHistory types))
    (projectors : List CommitProjector) : (readyProjectors projectors).Asks P := by
  unfold readyProjectors
  split
  · trivial
  · exact asks_ask (h _)

theorem quiet_readyProjectors (projectors : List CommitProjector) :
    (readyProjectors projectors).Quiet :=
  asks_readyProjectors (P := fun a => a.quiet = true) (fun _ => rfl) projectors

theorem quiet_ready {κ : Type} {A : κ → Aggregate} (config : TransactionConfig)
    (tx : Transaction A) : (tx.ready config).Quiet := by
  unfold Transaction.ready
  split
  · exact quiet_readyProjectors _
  · trivial

variable {commandId : CommandId}

theorem asks_preCheck (h : P (.outcome commandId)) (digest : String) :
    (preCheck commandId digest).Asks P := by
  refine .andThen (asks_ask h) fun found => ?_
  cases found with
  | none => trivial
  | some stored => exact .check fun _ _ => trivial

theorem quiet_preCheck (commandId : CommandId) (digest : String) :
    (preCheck commandId digest).Quiet :=
  asks_preCheck (P := fun a => a.quiet = true) rfl digest

theorem asks_pollForRow (h : P (.outcomeWithin commandId)) (window reads waited : Nat) :
    (pollForRow commandId window reads waited).Asks P := by
  induction hn : window - waited using Nat.strong_induction_on generalizing reads waited with
  | _ n ih =>
    rw [pollForRow]
    refine (asks_ask h).bind fun row => ?_
    split
    · trivial
    · split
      · trivial
      · have := pollDelay_pos reads
        exact ih _ (by omega) _ _ rfl

theorem asks_settle (h : P (.outcomeWithin commandId)) (E : Env) (digest : String) (window : Nat)
    (result : Except Error Unit) : (settle E commandId digest window result).Asks P := by
  unfold settle
  split
  · trivial
  · exact (asks_ask h).bind fun _ => trivial
  · exact (asks_pollForRow h _ _ _).bind fun _ => trivial

theorem quiet_settle (E : Env) (commandId : CommandId) (digest : String) (window : Nat)
    (result : Except Error Unit) :
    (settle E commandId digest window result).Quiet :=
  asks_settle (P := fun a => a.quiet = true) rfl E digest window result

theorem quiet_deadlinePassed (policy : RetryPolicy) :
    (deadlinePassed policy).Quiet := by
  unfold deadlinePassed
  split
  · trivial
  · exact quiet_ask rfl

theorem asks_inPhase {α : Type} (phase : Phase) {p : Program (Except Error α)} (h : p.Asks P) :
    (inPhase phase p).Asks P := by
  refine h.bind fun result => ?_
  cases result <;> trivial

section Load

variable {σ : Type} {act : σ → (a : Ask) → Answer a → σ → Prop} {rely : σ → σ → Prop}
  {inv : σ → Prop} {guar : σ → σ → Prop} {A : Aggregate} {entityId : EntityId}
  {before : σ → Prop} {post : Except Error (Loaded A) → σ → Prop} {s : σ}

theorem safe_loadRetried
    (honce : ∀ s, before s → Script.Safe act rely inv guar (fun r => post (r.map Prod.fst))
      (loadOnce A entityId) s)
    (hagain : ∀ error s, post (.error error) s → before s) (left : Nat) (h : before s) :
    Script.Safe act rely inv guar (fun r => post (r.map Prod.fst))
      (loadRetried A entityId left) s := by
  induction left generalizing s with
  | zero => exact honce s h
  | succ left ih =>
    refine (honce s h).bind fun result t ht => ?_
    cases result with
    | error error =>
      simp only
      split
      · exact ih (hagain error t ht)
      · exact ht
    | ok loaded => exact ht

/-- A load, from what its span, one attempt and the write of its snapshot leave. -/
theorem safe_load (hspan : Script.Safe act rely inv guar (fun _ => before) (ask (.span entityId)) s)
    (honce : ∀ s, before s → Script.Safe act rely inv guar (fun r => post (r.map Prod.fst))
      (loadOnce A entityId) s)
    (hagain : ∀ error s, post (.error error) s → before s)
    (hput : ∀ loaded payload s, post (.ok loaded) s → A.encode loaded.aggregate = .ok payload →
      Script.Safe act rely inv guar (fun stored t => post (.ok loaded) t ∧ (stored = .ok true →
          post (.ok { loaded with
            snapshotSequence := EventSequence.next loaded.snapshotSequence }) t))
        (ask (.putSnapshot ⟨A.entityType, loaded.entityId,
          EventSequence.next loaded.snapshotSequence, loaded.sequence, payload⟩)) s)
    (threshold : Nat) :
    Script.Safe act rely inv guar post (loadWithCatchUp A entityId threshold) s := by
  refine hspan.bind fun _ t ht => ?_
  refine .andThen _ (safe_loadRetried honce hagain _ ht) (fun _ _ h => h) ?_
  rintro ⟨loaded, replayed⟩ t h
  simp only
  split
  · suffices hcatch : Script.Safe act rely inv guar (fun loaded => post (.ok loaded))
        (catchUpSnapshot loaded) t from hcatch.bind fun _ _ h => h
    unfold catchUpSnapshot
    split
    · exact h
    · simp only
      split
      · refine (hput loaded _ t h ‹_›).bind fun stored u hu => ?_
        split
        · exact hu.2 rfl
        · exact hu.1
      · exact h
  · exact h

end Load

end EventStore
