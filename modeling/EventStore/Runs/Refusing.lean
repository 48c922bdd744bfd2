import EventStore.Runs.Window
import EventStore.Runs.Schedule

/-!
Operations that record no outcomes. What keeps a command from being carried out twice is that a
load has seen its ID, or that another commit moved the head since; together they suffice while no
snapshot covers the events of the first one.
-/
namespace EventStore

open Result Program

section Unrecorded

variable {κ : Type} (A : κ → Aggregate)

inductive Unrecorded where
  | load (kind : κ) (entityId : EntityId) (threshold : Nat)
  | execute (kind : κ) (entityId : EntityId) (config : StoreConfig (A kind))
      (command : (A kind).Command) (metadata : Metadata)
  | transact (config : TransactionConfig) (metadata : Metadata) (prepare : Prepare A)
  | compact (entityId : EntityId) (through : Int)

/-- With the events it committed, with an error, as its caller refused, or with a transaction's
commit. -/
inductive Ended where
  | returned (events : List SerializedEvent)
  | failed (error : Error)
  | refused
  | committed (tx : Transaction A) (result : Except Error (List SerializedEvent))

end Unrecorded

variable {κ : Type} {A : κ → Aggregate}

namespace Ended

def ofResult {α : Type} : Except Error α → Ended A
  | .ok _ => .returned []
  | .error error => .failed error

def ofExecuted {kind : κ} : Except (StoreConfig.ExecuteError (A kind))
    (Loaded (A kind) × List SerializedEvent) → Ended A
  | .ok executed => .returned executed.2
  | .error (.error error) => .failed error
  | .error (.rejected _) => .refused

end Ended

variable [DecidableEq κ]

namespace Unrecorded

def finish (config : TransactionConfig) (metadata : Metadata) :
    Except Error Decision × Transaction A → Program (Ended A)
  | (.ok _, tx) => (tx.commit config metadata).bind fun result => .done (.committed tx result)
  | (.error _, _) => .done .refused

def program : Unrecorded A → Program (Ended A)
  | .load kind entityId threshold =>
    (loadWithCatchUp (A kind) entityId threshold).bind fun result => .done (.ofResult result)
  | .execute _ entityId config command metadata =>
    (config.execute entityId command metadata).bind fun result => .done (.ofExecuted result)
  | .transact config metadata prepare =>
    (prepare.run config Transaction.new []).bind (finish config metadata)
  | .compact entityId through =>
    (ask (.compactBelow entityId through)).bind fun result => .done (.ofResult result)

end Unrecorded

def Error.isLoadFailure (error : Error) : Bool :=
  error.isStorageFailure || match error with
    | .sequenceGap _ _ _ | .replay _ _ _ _ | .snapshot _ _ => true
    | _ => false

variable {error : Error}

theorem Error.isLoadFailure_of_storage (h : error.isStorageFailure = true) :
    error.isLoadFailure = true := by
  simp [Error.isLoadFailure, h]

variable {commandId : CommandId} {entityId : EntityId}

section Seen

variable {κ : Type} {A : κ → Aggregate} {config : TransactionConfig} {tx : Transaction A}
  {metadata : Metadata} (hne : commandId ≠ "") (hid : metadata.commandId = some commandId)
  (hseen : ∃ s ∈ tx.streams, commandId ∈ s.loaded.seenCommandIds)

include hne hid hseen

omit hne hid hseen in
theorem Transaction.quiet_prepare : (tx.prepare config metadata).Quiet :=
  .check fun _ _ => (quiet_stampCommitId metadata).bind fun _ => trivial

theorem Transaction.prepare_of_seen :
    (tx.prepare config metadata).Yields fun result => ∃ error, result = .error error ∧
      (error = .duplicateCommand commandId ∨
        tx.poisoned = true ∧ error = .transactionPoisoned) := by
  obtain ⟨s, hs, hmem⟩ := hseen
  unfold Transaction.prepare
  cases hpoisoned : tx.poisoned with
  | true => exact ⟨_, rfl, .inr ⟨rfl, rfl⟩⟩
  | false =>
    refine (stampCommitId_yields metadata).bind fun stamped hstamped => ?_
    have hany : (tx.streams.any fun stream => stream.saw commandId) = true :=
      List.any_eq_true.mpr ⟨s, hs, by simpa [StreamState.saw] using hmem⟩
    have hbuild : tx.build config stamped = .error (.duplicateCommand commandId) := by
      refine bind_eq_error.mpr (.inl ?_)
      simp [Transaction.checkStamped, hstamped, hid, Option.filter, hne, Transaction.checkUnseen,
        hany]
    exact ⟨_, hbuild, .inl rfl⟩

/-- A transaction that saw the command submits nothing. -/
theorem Transaction.commit_of_seen : (tx.commit config metadata).Quiet := by
  refine .check fun _ _ => .andThen (quiet_ready config tx) fun _ =>
    quiet_prepare.bind_yields (prepare_of_seen hne hid hseen) ?_
  rintro result ⟨error, rfl, -⟩
  trivial

end Seen

namespace World

variable {ι : Type} [DecidableEq ι] (E : Env) (i : ι)

abbrev Guarded {α : Type} (post : α → World ι → Prop) (p : Program α) (w : World ι) : Prop :=
  Script.Safe (Acts E i) Retains Windowed
    (fun w w' => w'.Windowed ∧ Retains w w' ∧ Refuses w w') post p w

variable {E i} {w : World ι}

theorem guarded_ask {a : Ask} {post : Answer a → World ι → Prop}
    (hsubmit : ∀ t q, Retains w t → a = .submit q → t.RepeatsNone q)
    (hput : ∀ new, a = .putSnapshot new → 0 ≤ new.eventSequence)
    (h : ∀ t answer u, t.Windowed → u.Windowed → Acts E i t a answer u → Retains w t →
      Retains t u → post answer u) :
    Guarded E i post (ask a) w := by
  refine Script.Safe.ask fun t hretains ht answer u hact => ?_
  have hown : Retains t u := hact.effect.retains ht.sound
  have hwindowed : u.Windowed := by
    refine hact.effect.windowed ht hput fun f hf => ?_
    rcases hact.inFlight f hf with hf | ⟨-, -, ha⟩
    · exact ht.inFlight f hf
    · exact hsubmit t _ hretains ha
  have hrefuses : Refuses t u := by
    refine hact.effect.refuses ht.sound ?_
    rintro author started q ⟨-, -, ha⟩
    exact hsubmit t q hretains ha
  exact ⟨⟨hwindowed, hown, hrefuses⟩, h t answer u ht hwindowed hact hretains hown⟩

theorem guarded_read {a : Ask} (ha : (∀ q, a ≠ .submit q) ∧ ∀ new, a ≠ .putSnapshot new)
    {post : Answer a → World ι → Prop}
    (h : ∀ t answer u, t.Windowed → u.Windowed → Acts E i t a answer u → Retains w t →
      Retains t u → post answer u) : Guarded E i post (ask a) w :=
  guarded_ask (fun _ q _ hq => absurd hq (ha.1 q)) (fun new hnew => absurd hnew (ha.2 new)) h

theorem guarded_quiet {α : Type} {p : Program α} (hp : p.Quiet) :
    Guarded E i (fun _ u => Retains w u) p w := by
  induction p generalizing w with
  | done a => exact .refl w
  | call a next ih =>
    have hcall : Guarded E i (fun _ u => Retains w u) (ask a) w := by
      refine guarded_read ⟨fun q hq => ?_, fun new hnew => ?_⟩
        fun _ _ _ _ _ _ ht hu => ht.trans hu
      · exact Ask.ne_submit_of_quiet hp.1 q hq
      · subst hnew
        cases hp.1
    exact hcall.bind fun answer t ht => (ih answer (hp.2 answer)).mono fun _ _ hu => ht.trans hu

theorem guarded_put {new : SerializedSnapshot} (h : 0 ≤ new.eventSequence) :
    Guarded E i (fun _ u => Retains w u) (ask (.putSnapshot new)) w := by
  refine guarded_ask (by simp) ?_ fun _ _ _ _ _ _ ht hu => ht.trans hu
  rintro _ ⟨⟩
  exact h

theorem guarded_submit {q : Request} (h : w.RepeatsNone q) :
    Guarded E i (fun _ u => Retains w u) (ask (.submit q)) w := by
  refine guarded_ask ?_ (by simp) fun _ _ _ _ _ _ ht hu => ht.trans hu
  rintro t _ ht ⟨⟩
  exact h.mono ht

section Load

variable {A : Aggregate}

def LoadEnds {α : Type} (good : α → Prop) : Except Error α → Prop
  | .ok a => good a
  | .error error => error.isLoadFailure = true

theorem isLoadFailure_start {found : Option SerializedSnapshot}
    (h : (Loaded.start entityId found : Except Error (Loaded A)) = .error error) :
    error.isLoadFailure = true := by
  cases found with
  | none => cases h
  | some snapshot =>
    simp only [Loaded.start] at h
    split at h <;> cases h
    rfl

theorem isLoadFailure_replayAll {loaded : Loaded A} {events : List SerializedEvent}
    (h : loaded.replayAll events = .error error) : error.isLoadFailure = true := by
  rcases Loaded.replayAll_error h with ⟨_, _, _, rfl⟩ | ⟨_, _, _, _, rfl⟩ <;> rfl

variable {entityId : EntityId} {base : List SerializedEvent}

/-- A loaded aggregate that has seen what is not covered. -/
structure Watching (w : World ι) (entityId : EntityId) (base : List SerializedEvent)
    (loaded : Loaded A) : Prop where
  same : loaded.entityId = entityId
  watched : Watched (w.log entityId) (w.Covered entityId) loaded.sequence loaded.seenCommandIds
  since : ∀ event ∈ base, ∀ commandId, commandId ≠ "" →
    event.metadata.commandId = some commandId →
      commandId ∈ loaded.seenCommandIds ∨ w.Covered entityId event.sequence

omit [DecidableEq ι] in
theorem Watching.mono {w' : World ι} {loaded : Loaded A} (h : w.Watching entityId base loaded)
    (hw : Retains w w') : w'.Watching entityId base loaded :=
  ⟨h.same, h.watched.mono (hw.log entityId) (hw.covered entityId),
    fun event hevent commandId hne hid =>
      (h.since event hevent commandId hne hid).imp_right (hw.covered _ _)⟩

theorem loadOnce_guarded (hbase : base <+: w.log entityId) :
    Guarded E i (fun r u => Retains w u ∧ LoadEnds (u.Watching entityId base) (r.map Prod.fst))
      (loadOnce A entityId) w := by
  refine .andThen (fun r u => Retains w u ∧ LoadEnds (fun found => ∀ loaded : Loaded A,
    Loaded.start entityId found = .ok loaded → loaded.entityId = entityId ∧
      Watched (u.log entityId) (u.Covered entityId) loaded.sequence loaded.seenCommandIds) r)
    ?_ (fun _ _ h => h) ?_
  · refine guarded_read (by simp) fun t answer u ht hu hact hwt htu => ⟨hwt.trans htu, ?_⟩
    cases hact with
    | snapshot =>
      intro loaded hloaded
      refine watched_start (ht.sound entityId).numbered (fun snapshot hs => ?_) hloaded
      have hcovered := (ht.sound entityId).covered snapshot hs
      rw [(ht.sound entityId).head] at hcovered
      exact ⟨ht.nonneg entityId snapshot hs, hcovered, fun k hk => ⟨snapshot, hs, hk⟩⟩
    | snapshotFails _ h => exact Error.isLoadFailure_of_storage h
  · rintro found t ⟨hwt, hfound⟩
    refine .check (fun _ h => ⟨hwt, isLoadFailure_start h⟩) fun loaded hloaded => ?_
    obtain ⟨hid, hwatched⟩ := hfound loaded hloaded
    refine .andThen (fun r u => Retains w u ∧ LoadEnds (fun events => ∀ loaded',
      loaded.replayAll events = .ok loaded' → u.Watching entityId base loaded') r)
      ?_ (fun _ _ h => h) ?_
    · refine guarded_read (by simp) fun t' answer u ht' hu hact htt' htu => ?_
      have hwt' := hwt.trans htt'
      refine ⟨hwt'.trans htu, ?_⟩
      cases hact with
      | eventsAfter =>
        intro loaded' hloaded'
        obtain ⟨hwatched', hall⟩ := ht'.watched_read
          (hwatched.mono (htt'.log entityId) (htt'.covered entityId)) hloaded'
        exact ⟨(Loaded.replayAll_kept hloaded').1.trans hid, hwatched', fun event hevent =>
          hall event ((hbase.trans (hwt'.log entityId)).subset hevent)⟩
      | eventsAfterFails _ _ h => exact Error.isLoadFailure_of_storage h
    · rintro events t' ⟨hwt', hevents⟩
      exact .check (fun _ h => ⟨hwt', isLoadFailure_replayAll h⟩) fun loaded' hloaded' =>
        ⟨hwt', hevents loaded' hloaded'⟩

theorem loadWithCatchUp_guarded (hbase : base <+: w.log entityId) (threshold : Nat) :
    Guarded E i (fun r u => Retains w u ∧ LoadEnds (u.Watching entityId base) r)
      (loadWithCatchUp A entityId threshold) w := by
  have hspan : Guarded E i (fun _ u => Retains w u) (ask (.span entityId)) w :=
    guarded_read (by simp) fun _ _ _ _ _ _ ht hu => ht.trans hu
  refine safe_load hspan ?_ (fun _ _ h => h.1) ?_ threshold
  · intro t ht
    refine (loadOnce_guarded (hbase.trans (ht.log entityId))).mono fun _ _ h => ?_
    exact ⟨ht.trans h.1, h.2⟩
  · rintro loaded payload t ⟨ht, h⟩ _
    have h : t.Watching entityId base loaded := h
    refine (guarded_put h.watched.nonneg).mono fun stored u hu => ?_
    have hloaded := h.mono hu
    exact ⟨⟨ht.trans hu, hloaded⟩, fun _ => ⟨ht.trans hu, hloaded.same, hloaded.watched,
      hloaded.since⟩⟩

end Load

variable {stamped : Metadata}

section Execute

variable {A : Aggregate} {config : StoreConfig A} {loaded loaded' : Loaded A}

theorem not_mem_of_checkUnseen {metadata : Metadata}
    (h : StoreConfig.checkUnseen loaded metadata = .ok ()) (hne : commandId ≠ "")
    (hid : metadata.commandId = some commandId) : commandId ∉ loaded.seenCommandIds := by
  simp only [StoreConfig.checkUnseen, hid, refuse_eq_ok] at h
  simpa [Loaded.hasSeen, hne] using h

theorem duplicate_of_checkUnseen {metadata : Metadata}
    (h : StoreConfig.checkUnseen loaded metadata = .error error) :
    ∃ commandId, metadata.commandId = some commandId ∧ error = .duplicateCommand commandId := by
  unfold StoreConfig.checkUnseen at h
  split at h
  · cases h
  · rename_i commandId hid
    simp only [refuse_eq_error] at h
    exact ⟨commandId, hid, h.2.symm⟩

omit [DecidableEq ι] in
/-- What is staged from a load that has not seen the command ID repeats no command. -/
theorem repeatsNone_stage {events : List A.Event} {commit : Commit Empty}
    (hwatched : Watched (w.log loaded.entityId) (w.Covered loaded.entityId) loaded.sequence
      loaded.seenCommandIds)
    (hunseen : ∀ commandId, commandId ≠ "" → stamped.commandId = some commandId →
      commandId ∉ loaded.seenCommandIds)
    (h : config.stage loaded events stamped = .ok (loaded', commit)) :
    w.RepeatsNone (.commit commit) := by
  simp only [StoreConfig.stage, bind_eq_ok] at h
  obtain ⟨serialized, hserialized, operations, -, state, -, views, -, snapshot, -, h⟩ := h
  cases h
  obtain ⟨hnumbered, -, hfields⟩ := serializeEvents_fields hserialized
  simp only [RepeatsNone, Request.write, Write.ofCommit, List.forall_mem_singleton]
  refine unrepeated_of_watched hwatched hnumbered fun event hevent commandId hne hid => ?_
  rw [(hfields event hevent).2.2] at hid
  exact hunseen commandId hne hid

theorem commit_guarded (hwatched : Watched (w.log loaded.entityId) (w.Covered loaded.entityId)
      loaded.sequence loaded.seenCommandIds) (events : List A.Event) (metadata : Metadata) :
    Guarded E i (fun _ u => Retains w u) (config.commit loaded events metadata) w := by
  refine .check (fun _ _ => .refl w) fun _ _ => ?_
  refine .check (fun _ _ => .refl w) fun _ hunseen => ?_
  split
  · exact .refl w
  · refine .andThen _ (guarded_quiet (quiet_readyProjectors _)) (fun _ _ h => h) fun _ t ht => ?_
    refine ((guarded_quiet (quiet_stampCommitId metadata)).yields
      (stampCommitId_yields metadata)).bind fun stamped t' ht' => ?_
    obtain ⟨htt', hid⟩ := ht'
    have hwt' := ht.trans htt'
    refine .check (fun _ _ => hwt') fun staged hstage => ?_
    have hwatched' := hwatched.mono (hwt'.log loaded.entityId) (hwt'.covered loaded.entityId)
    have hnone : t'.RepeatsNone (.commit staged.2) := by
      refine repeatsNone_stage hwatched' (fun commandId hne hstamped => ?_) hstage
      exact not_mem_of_checkUnseen hunseen hne (hid ▸ hstamped)
    exact .andThen _ (guarded_submit hnone) (fun _ _ h => hwt'.trans h)
      fun _ _ h => hwt'.trans h

/-- An execution after its command was committed is a duplicate, unless its load fails. -/
theorem execute_guarded {base : List SerializedEvent} (hbase : base <+: w.log entityId)
    (command : A.Command) (metadata : Metadata) :
    Guarded E i (fun r u => config.outcomes = none → ∀ commandId, commandId ≠ "" →
        metadata.commandId = some commandId → (∃ event ∈ base,
          event.metadata.commandId = some commandId ∧ ¬u.Covered entityId event.sequence) →
        r = .error (.error (.duplicateCommand commandId)) ∨
          ∃ error, r = .error (.error error) ∧ error.isLoadFailure = true)
      (config.execute entityId command metadata) w := by
  unfold StoreConfig.execute
  refine .andThen (fun r u => u = w ∧ (config.outcomes = none → r = .ok ())) ?_ ?_ ?_
  · cases hrefused : config.refuseOutcomes "execute" with
    | error error =>
      refine ⟨rfl, fun hnone => ?_⟩
      simp [StoreConfig.refuseOutcomes, hnone, refuse] at hrefused
    | ok u => exact ⟨rfl, fun _ => rfl⟩
  · rintro error t ⟨-, hok⟩ hnone
    cases hok hnone
  rintro _ t ⟨rfl, -⟩
  refine .andThen (fun r u => (∀ loaded, r = .ok loaded → u.Watching entityId base loaded) ∧
    ∀ e, r = .error e → ∃ error, e = .error error ∧ error.isLoadFailure = true) ?_ ?_ ?_
  · refine (loadWithCatchUp_guarded hbase _).bind fun result u hu => ?_
    cases result with
    | error error => exact ⟨by simp, fun e he => ⟨error, by cases he; rfl, hu.2⟩⟩
    | ok loaded =>
      refine ⟨?_, by simp⟩
      rintro _ ⟨⟩
      exact hu.2
  · rintro e u ⟨-, hfails⟩ - commandId - - -
    obtain ⟨error, rfl, hload⟩ := hfails e rfl
    exact .inr ⟨error, rfl, hload⟩
  rintro loaded u ⟨hwatching, -⟩
  have hload := hwatching loaded rfl
  refine .andThen (fun r v => v = u ∧ (r = .ok () → StoreConfig.checkUnseen loaded metadata =
    .ok ()) ∧ ∀ e, r = .error e → ∃ commandId, metadata.commandId = some commandId ∧
      e = .error (.duplicateCommand commandId)) ?_ ?_ ?_
  · cases hunseen : StoreConfig.checkUnseen loaded metadata with
    | error error =>
      refine ⟨rfl, by simp, ?_⟩
      rintro _ ⟨⟩
      obtain ⟨commandId, hid, rfl⟩ := duplicate_of_checkUnseen hunseen
      exact ⟨commandId, hid, rfl⟩
    | ok _ => exact ⟨rfl, fun _ => rfl, by simp⟩
  · rintro e v ⟨-, -, hduplicate⟩ - commandId - hid -
    obtain ⟨_, hid', rfl⟩ := hduplicate e rfl
    cases hid.symm.trans hid'
    exact .inl rfl
  rintro _ v ⟨rfl, hunseen, -⟩
  -- Not a duplicate: what the load did not see is covered, now and at the end.
  have hend : ∀ z, Retains v z → ∀ commandId, commandId ≠ "" →
      metadata.commandId = some commandId → ¬∃ event ∈ base,
        event.metadata.commandId = some commandId ∧ ¬z.Covered entityId event.sequence := by
    rintro z hz commandId hne hid ⟨event, hevent, hrepeat, huncovered⟩
    refine huncovered (hz.covered _ _ ((hload.since event hevent commandId hne
      hrepeat).resolve_left ?_))
    exact not_mem_of_checkUnseen (hunseen rfl) hne hid
  refine (guarded_quiet (quiet_ask rfl)).bind fun services v' hv' => ?_
  split
  · exact fun _ commandId hne hid hopen => absurd hopen (hend _ hv' commandId hne hid)
  · have hwatched : Watched (v'.log loaded.entityId) (v'.Covered loaded.entityId) loaded.sequence
        loaded.seenCommandIds := by
      rw [hload.same]
      exact (hload.mono hv').watched
    refine (commit_guarded hwatched _ metadata).bind fun result z hz => ?_
    cases result <;>
      exact fun _ commandId hne hid hopen => absurd hopen (hend z (hv'.trans hz) commandId hne hid)

end Execute

section Transactions

variable {κ : Type} {A : κ → Aggregate} {config : TransactionConfig} {tx tx' : Transaction A}

/-- A transaction's stream has seen what is not covered up to where it was read. -/
structure Attends (w : World ι) (s : StreamState A) : Prop where
  watched : Watched (w.log s.entityId) (w.Covered s.entityId) s.head s.loaded.seenCommandIds
  numbered : Consecutive.From SerializedEvent.sequence (s.head + 1) s.events
  sequence : s.loaded.sequence = s.head + s.events.length

omit [DecidableEq ι] in
theorem Attends.mono {w' : World ι} {s : StreamState A} (h : w.Attends s) (hw : Retains w w') :
    w'.Attends s :=
  ⟨h.watched.mono (hw.log _) (hw.covered _), h.numbered, h.sequence⟩

omit [DecidableEq ι] in
theorem attends_readLoaded (h : ∀ s ∈ tx.streams, w.Attends s) {kind : κ} {loaded : Loaded (A kind)}
    (hloaded : Watched (w.log loaded.entityId) (w.Covered loaded.entityId) loaded.sequence
      loaded.seenCommandIds)
    (hread : tx.readLoaded loaded = .ok tx') : ∀ s ∈ tx'.streams, w.Attends s := by
  simp only [Transaction.readLoaded, seq_eq_ok] at hread
  obtain ⟨-, -, hread⟩ := hread
  cases hread
  intro s hs
  rcases List.mem_append.mp hs with hs | hs
  · exact h s hs
  · obtain rfl := List.mem_singleton.mp hs
    exact ⟨hloaded, trivial, by simp [StreamState.ofLoaded]⟩

omit [DecidableEq ι] in
theorem attends_stable (config : TransactionConfig) (w : World ι) :
    Transaction.Stable config fun tx : Transaction A => ∀ s ∈ tx.streams, w.Attends s := by
  refine .of_streams fun {s _ _} h hstages => ?_
  obtain ⟨hwatched, hnumbered, hsequence⟩ := h
  obtain @⟨serialized, _, _, -, hserialized, -⟩ := hstages
  obtain ⟨hserial, -, -⟩ := serializeEvents_fields hserialized
  refine ⟨hwatched, ?_, ?_⟩
  · rw [Transaction.staged, Consecutive.from_append]
    refine ⟨hnumbered, ?_⟩
    rwa [show s.head + 1 + s.events.length = s.loaded.sequence + 1 by omega]
  · cases hlast : serialized.getLast? with
    | none =>
      obtain rfl := List.getLast?_eq_none_iff.mp hlast
      simp [Transaction.staged, hsequence]
    | some last =>
      have := Consecutive.number_of_getLast? hserial hlast
      simp only [Transaction.staged, hlast, Option.map_some, Option.getD_some, List.length_append]
      push_cast
      omega

theorem not_mem_of_checkStamped (h : tx.checkStamped stamped = .ok ()) (hne : commandId ≠ "")
    (hid : stamped.commandId = some commandId) :
    ∀ s ∈ tx.streams, commandId ∉ s.loaded.seenCommandIds := by
  have hfilter : stamped.commandId.filter (fun id => id ≠ "") = some commandId := by
    simp [hid, Option.filter, hne]
  simp only [Transaction.checkStamped, hfilter, Transaction.checkUnseen, refuse_eq_ok] at h
  simpa [StreamState.saw] using h

omit [DecidableEq ι] in
/-- What a transaction builds, with a command ID none of its streams saw, repeats no
command. -/
theorem repeatsNone_build (h : ∀ s ∈ tx.streams, w.Attends s) {commit : TransactionCommit Empty}
    (hbuild : tx.build config stamped = .ok commit) : w.RepeatsNone (.transaction commit) := by
  obtain ⟨-, hstreams⟩ := Transaction.written_build hbuild commit.outcome
  have hunseen : tx.checkStamped stamped = .ok () := by
    simp only [Transaction.build, seq_eq_ok] at hbuild
    exact hbuild.1
  intro c hc
  rw [hstreams] at hc
  obtain ⟨s, hs, rfl⟩ := List.mem_map.mp hc
  obtain ⟨hs, -⟩ := Transaction.mem_written.mp hs
  obtain ⟨hwatched, hnumbered, -⟩ := h s hs
  refine unrepeated_of_watched hwatched (From_restamped hnumbered) ?_
  intro event hevent commandId hne hid hseen
  obtain ⟨staged, -, rfl⟩ := List.mem_map.mp hevent
  exact not_mem_of_checkStamped hunseen hne hid s hs hseen

theorem ready_guarded (config : TransactionConfig) (tx : Transaction A) :
    Guarded E i (fun r u => Retains w u ∧ ∀ error, r = .error error →
      error.isStorageFailure = true) (tx.ready config) w := by
  unfold Transaction.ready
  split
  · unfold readyProjectors
    split
    · exact ⟨.refl w, by simp⟩
    · refine guarded_read (by simp) fun t answer u _ _ hact ht hu => ⟨ht.trans hu, ?_⟩
      cases hact with
      | declareHistory => simp
      | declareHistoryFails _ h =>
        rintro _ ⟨⟩
        exact h
  · exact ⟨.refl w, by simp⟩

/-- The command was refused as a duplicate, or the commit failed before that check. -/
def Refused (tx : Transaction A) (commandId : CommandId)
    (result : Except Error (List SerializedEvent)) : Prop :=
  ∃ error, result = .error error ∧ (error = .duplicateCommand commandId ∨
    error.isStorageFailure = true ∨ tx.poisoned = true ∧ error = .transactionPoisoned)

theorem transactionCommit_guarded (h : ∀ s ∈ tx.streams, w.Attends s) (metadata : Metadata) :
    Guarded E i (fun _ u => Retains w u) (tx.commit config metadata) w := by
  refine .check (fun _ _ => .refl w) fun _ _ => ?_
  refine .andThen _ (guarded_quiet (quiet_ready config tx)) (fun _ _ h => h) fun _ t ht => ?_
  refine .andThen (fun r u => Retains w u ∧ ∀ commit, r = .ok commit →
    u.RepeatsNone (.transaction commit)) ?_ (fun _ _ h => h.1) fun commit u hu => ?_
  · refine .check (fun _ _ => ⟨ht, by simp⟩) fun _ _ => ?_
    refine (guarded_quiet (quiet_stampCommitId metadata)).bind fun stamped t' ht' => ?_
    exact ⟨ht.trans ht', fun commit hbuild =>
      repeatsNone_build (fun s hs => (h s hs).mono (ht.trans ht')) hbuild⟩
  · exact .andThen _ (guarded_submit (hu.2 commit rfl)) (fun _ _ h => hu.1.trans h)
      fun _ _ h => hu.1.trans h

theorem commit_refused {metadata : Metadata} (hnone : config.outcomes = none)
    (hne : commandId ≠ "") (hid : metadata.commandId = some commandId)
    (hseen : ∃ s ∈ tx.streams, commandId ∈ s.loaded.seenCommandIds) :
    Guarded E i (fun r u => Retains w u ∧ Refused tx commandId r)
      (tx.commit config metadata) w := by
  refine .check (fun error hrefused => ?_) fun _ _ => ?_
  · simp [hnone, refuse] at hrefused
  refine .andThen _ (ready_guarded config tx)
    (fun error u hu => ⟨hu.1, error, rfl, .inr (.inl (hu.2 error rfl))⟩) fun _ t ht => ?_
  refine .andThen _ ((guarded_quiet Transaction.quiet_prepare).yields
    (Transaction.prepare_of_seen hne hid hseen)) ?_ ?_
  · rintro _ u ⟨hu, error, ⟨⟩, hcause⟩
    exact ⟨ht.1.trans hu, _, rfl, hcause.imp_right .inr⟩
  · rintro commit u ⟨-, error, ⟨⟩, -⟩

theorem read_guarded (h : ∀ s ∈ tx.streams, w.Attends s) (kind : κ) (entityId : EntityId) :
    Guarded E i (fun r u => Retains w u ∧ ∀ s ∈ r.2.streams, u.Attends s)
      (tx.read config kind entityId) w := by
  unfold Transaction.read
  split
  · exact ⟨.refl w, h⟩
  · refine (loadWithCatchUp_guarded List.nil_prefix _).bind fun result t ht => ?_
    have hstreams : ∀ s ∈ tx.streams, t.Attends s := fun s hs => (h s hs).mono ht.1
    cases result with
    | error error => exact ⟨ht.1, hstreams⟩
    | ok loaded =>
      have hwatching := ht.2
      simp only
      split
      · exact ⟨ht.1, hstreams⟩
      · rename_i next hnext
        exact ⟨ht.1, attends_readLoaded hstreams (hwatching.same ▸ hwatching.watched) hnext⟩

theorem run_guarded [DecidableEq κ] (prepare : Prepare A)
    {loads : List ((kind : κ) × Loaded (A kind))} (h : ∀ s ∈ tx.streams, w.Attends s)
    (hloads : ∀ load ∈ loads, Watched (w.log load.2.entityId) (w.Covered load.2.entityId)
      load.2.sequence load.2.seenCommandIds) :
    Guarded E i (fun r u => ∀ s ∈ r.2.streams, u.Attends s) (prepare.run config tx loads) w := by
  have hkept : ∀ {w t : World ι} {loads : List ((kind : κ) × Loaded (A kind))}, Retains w t →
      (∀ load ∈ loads, Watched (w.log load.2.entityId) (w.Covered load.2.entityId)
        load.2.sequence load.2.seenCommandIds) →
      ∀ load ∈ loads, Watched (t.log load.2.entityId) (t.Covered load.2.entityId)
        load.2.sequence load.2.seenCommandIds :=
    fun ht hloads load hload => (hloads load hload).mono (ht.log _) (ht.covered _)
  induction prepare generalizing tx loads w with
  | decide decision => exact h
  | fail error => exact h
  | read kind entityId next ih =>
    refine (read_guarded h kind entityId).bind fun result t ht => ?_
    exact ih _ ht.2 (hkept ht.1 hloads)
  | load kind entityId next ih =>
    unfold Prepare.run
    refine (loadWithCatchUp_guarded List.nil_prefix _).bind fun result t ht => ?_
    have hstreams : ∀ s ∈ tx.streams, t.Attends s := fun s hs => (h s hs).mono ht.1
    cases result with
    | error error => exact ih _ hstreams (hkept ht.1 hloads)
    | ok loaded =>
      refine ih _ hstreams fun load hload => ?_
      rcases List.mem_append.mp hload with hload | hload
      · exact hkept ht.1 hloads load hload
      · obtain rfl := List.mem_singleton.mp hload
        exact ht.2.same ▸ ht.2.watched
  | readLoaded index next ih =>
    unfold Prepare.run
    split
    · exact ih _ h hloads
    · rename_i kind loaded hload
      split
      · exact ih _ h hloads
      · rename_i tx' hread
        exact ih _ (attends_readLoaded h (hloads _ (List.mem_of_getElem? hload)) hread) hloads
  | append kind index events next ih =>
    exact ih _ ((attends_stable config w).append h kind index events) hloads
  | fence added next ih =>
    exact ih _ ((attends_stable config w).fence h added) hloads
  | expect entityId head next ih =>
    exact ih _ ((attends_stable config w).expect h entityId head) hloads
  | consult next ih =>
    refine (guarded_quiet (quiet_ask rfl)).bind fun services t ht => ?_
    exact ih services (fun s hs => (h s hs).mono ht) (hkept ht hloads)

end Transactions

section Pool

variable {κ : Type} [DecidableEq κ] {A : κ → Aggregate}

/-- An execution is a duplicate, unless its load fails, while its command is not covered; so is the
commit of a transaction that saw the command. -/
def EndsAfter (base : EntityId → List SerializedEvent) (w : World ι) :
    Unrecorded A → Ended A → Prop
  | .execute _ entityId config _ metadata, ended => config.outcomes = none →
      ∀ commandId, commandId ≠ "" → metadata.commandId = some commandId →
        (∃ event ∈ base entityId, event.metadata.commandId = some commandId ∧
          ¬w.Covered entityId event.sequence) →
        ended = .failed (.duplicateCommand commandId) ∨
          ∃ error, ended = .failed error ∧ error.isLoadFailure = true
  | .transact config metadata _, .committed tx result => (∀ s ∈ tx.streams, w.Attends s) ∧
      (config.outcomes = none → ∀ commandId, commandId ≠ "" →
        metadata.commandId = some commandId →
        (∃ s ∈ tx.streams, commandId ∈ s.loaded.seenCommandIds) → Refused tx commandId result)
  | _, _ => True

theorem unrecorded_guarded {base : EntityId → List SerializedEvent}
    (hbase : ∀ entityId, base entityId <+: w.log entityId) (x : Unrecorded A) :
    Guarded E i (fun ended u => u.EndsAfter base x ended) x.program w := by
  cases x with
  | load kind entityId threshold =>
    exact (loadWithCatchUp_guarded List.nil_prefix threshold).bind fun _ _ _ => trivial
  | execute kind entityId config command metadata =>
    refine (execute_guarded (hbase entityId) command metadata).bind fun result u hu => ?_
    intro hnone commandId hne hid hopen
    rcases hu hnone commandId hne hid hopen with rfl | ⟨error, rfl, hload⟩
    · exact .inl rfl
    · exact .inr ⟨error, rfl, hload⟩
  | transact config metadata prepare =>
    refine (run_guarded prepare (by simp [Transaction.new]) (by simp)).bind fun result t ht => ?_
    obtain ⟨decision, tx⟩ := result
    cases decision with
    | error error => trivial
    | ok decision =>
      have hkept : ∀ {u}, Retains t u → ∀ s ∈ tx.streams, u.Attends s :=
        fun hu s hs => (ht s hs).mono hu
      by_cases hseen : config.outcomes = none ∧ ∃ commandId, commandId ≠ "" ∧
          metadata.commandId = some commandId ∧
          ∃ s ∈ tx.streams, commandId ∈ s.loaded.seenCommandIds
      · obtain ⟨hnone, commandId, hne, hid, hmem⟩ := hseen
        refine (commit_refused hnone hne hid hmem).bind fun result u hu => ⟨hkept hu.1, ?_⟩
        rintro - other - hother -
        obtain rfl := Option.some.inj (hid.symm.trans hother)
        exact hu.2
      · refine (transactionCommit_guarded ht metadata).bind fun result u hu => ⟨hkept hu, ?_⟩
        exact fun hnone commandId hne hid hmem =>
          absurd ⟨hnone, commandId, hne, hid, hmem⟩ hseen
  | compact entityId through =>
    have hcompact : Guarded E i (fun _ _ => True) (ask (.compactBelow entityId through)) w :=
      guarded_read (by simp) fun _ _ _ _ _ _ _ _ => trivial
    exact hcompact.bind fun _ _ _ => trivial

omit [DecidableEq ι] [DecidableEq κ] in
theorem EndsAfter.mono {base : EntityId → List SerializedEvent} {w' : World ι} {x : Unrecorded A}
    {ended : Ended A} (h : w.EndsAfter base x ended) (hw : Retains w w') :
    w'.EndsAfter base x ended := by
  cases x with
  | transact config metadata prepare =>
    cases ended with
    | committed tx result => exact ⟨fun s hs => (h.1 s hs).mono hw, h.2⟩
    | _ => trivial
  | execute kind entityId config command metadata =>
    rintro hnone commandId hne hid ⟨event, hevent, hrepeat, huncovered⟩
    exact h hnone commandId hne hid ⟨event, hevent, hrepeat, fun hc =>
      huncovered (hw.covered _ _ hc)⟩
  | _ => trivial

omit [DecidableEq ι] in
theorem windowed_start : (World.start .empty : World ι).Windowed := by
  refine ⟨History.sound_empty, ?_, ?_⟩
  · intro entityId snapshot h
    simp [start, Stores.empty, Stores.held, Stream.absent] at h
  · intro f hf
    cases hf

omit [DecidableEq ι] in
theorem Moves.windowed {w' : World ι} (h : Moves E noOne w w') (hw : w.Windowed) :
    w'.Windowed ∧ Retains w w' ∧ Refuses w w' := by
  refine ⟨h.effect.windowed hw ?_ fun f hf => hw.inFlight f (h.inFlight f hf),
    h.effect.retains hw.sound, h.effect.refuses hw.sound ?_⟩
  · intro new hnew
    cases hnew
  · rintro author started q (⟨f, hf, -, -, rfl⟩ | ⟨-, hq⟩)
    · exact hw.inFlight f hf
    · cases hq

/-- Safe programs stay safe together, and keep the window. -/
theorem guarded_of_reaches {α : Type} {post : ι → α → World ι → Prop}
    (hpost : ∀ i ended w w', post i ended w → Retains w w' → post i ended w')
    {c c' : World ι × (ι → Program α)}
    (hreach : Pool.Reaches (Acts E) (Moves E noOne) c c') (hw : c.1.Windowed)
    (hsafe : ∀ i, Guarded E i (post i) (c.2 i) c.1) :
    c'.1.Windowed ∧ ∀ i, Guarded E i (post i) (c'.2 i) c'.1 :=
  Pool.safe_of_reaches (fun _ w => .refl w) (fun _ _ _ _ h h' => h.trans h') hpost
    (fun _ _ _ _ h => ⟨h.1, fun _ _ => h.2.1⟩)
    (fun _ _ hw h => ⟨(h.windowed hw).1, fun _ => (h.windowed hw).2.1⟩) hreach hw hsafe

/-- A program that submits a request has made sure that it repeats no command: the request
may stay in flight. -/
theorem repeatsNone_of_guarded {α : Type} {post : α → World ι → Prop} {q : Request}
    {next : Answer (.submit q) → Program α} (h : Guarded E i post (.call (.submit q) next) w)
    (hw : w.Windowed) : w.RepeatsNone q := by
  obtain ⟨⟨hwindowed, -⟩, -⟩ := h w (.refl w) hw _ _ (.submitLost q (.text ""))
  exact hwindowed.inFlight ⟨i, w.started i, q⟩ (by simp)

end Pool

end World

open World

variable {κ : Type} [DecidableEq κ] {A : κ → Aggregate} {ι : Type} [DecidableEq ι]

/-- While a command's event is not covered, no operation adds events of that command to the stream,
and an execution of it that begins now is a duplicate, unless its load fails. -/
theorem duplicates_refused (E : Env) (x : ι → Unrecorded A)
    (c : World ι × (ι → Program (Ended A)))
    (hreach : Pool.Reaches (Acts E) (Moves E noOne)
      (World.start .empty, fun i => (x i).program) c)
    (entityId : EntityId) (commandId : CommandId) (hne : commandId ≠ "")
    (hopen : c.1.Open entityId commandId) :
    (∀ c', Pool.Step (Acts E) (Moves E noOne) c c' →
      ∀ event ∈ (c'.1.log entityId).drop (c.1.log entityId).length,
        event.metadata.commandId ≠ some commandId) ∧
    (∀ i q next answer w', c.2 i = .call (.submit q) next →
      Acts E i c.1 (.submit q) answer w' → q.Writes entityId commandId →
        ∃ error, answer = .error error ∧
          (error.isConflict = true ∨ error.isStorageFailure = true ∨
            ∃ handle : Handle, q.judge E (handle.over c.1.stores) = .error error)) ∧
    (∀ i kind config command metadata c' ended,
      x i = .execute kind entityId config command metadata → config.outcomes = none →
        metadata.commandId = some commandId → c.2 i = (x i).program →
          Pool.Reaches (Acts E) (Moves E noOne) c c' → c'.2 i = .done ended →
            (∃ event ∈ c.1.log entityId, event.metadata.commandId = some commandId ∧
              ¬c'.1.Covered entityId event.sequence) →
            ended = .failed (.duplicateCommand commandId) ∨
              ∃ error, ended = .failed error ∧ error.isLoadFailure = true) ∧
    (∀ i config metadata prepare c' tx result, x i = .transact config metadata prepare →
      config.outcomes = none → metadata.commandId = some commandId →
        Pool.Reaches (Acts E) (Moves E noOne) c c' → c'.2 i = .done (.committed tx result) →
          (∃ s ∈ tx.streams, s.entityId = entityId ∧ ∃ event ∈ c'.1.log entityId,
            event.metadata.commandId = some commandId ∧ event.sequence ≤ s.head ∧
              ¬c'.1.Covered entityId event.sequence) →
          (tx.commit config metadata).Quiet ∧ ∃ error, result = .error error ∧
            (error = .duplicateCommand commandId ∨ error.isStorageFailure = true ∨
              tx.poisoned = true ∧ error = .transactionPoisoned)) := by
  have hstart : ∀ i, Guarded E i (fun ended w => w.EndsAfter (fun _ => []) (x i) ended)
      ((x i).program) (World.start .empty) :=
    fun i => unrecorded_guarded (fun _ => List.nil_prefix) (x i)
  obtain ⟨hwindowed, hsafe⟩ := guarded_of_reaches (fun _ _ _ _ h hw => h.mono hw) hreach
    windowed_start hstart
  refine ⟨fun c' hstep => ?_, fun i q next answer w' hi hact hwrites => ?_,
    fun i kind config command metadata c' ended hx hnone hid hbegins hlater hended hstill => ?_,
    fun i config metadata prepare c' tx result hx hnone hid hlater hended hreplayed => ?_⟩
  · rcases Pool.guar_of_step (fun _ w => .refl w) hstep hwindowed hsafe with h | ⟨i, -, -, h⟩
    · exact (h.windowed hwindowed).2.2 entityId commandId hne hopen
    · exact h entityId commandId hne hopen
  · have hcall := hsafe i
    rw [hi] at hcall
    have hnone := repeatsNone_of_guarded hcall hwindowed
    cases hact with
    | submit handle =>
      obtain ⟨error, hrun, hcause⟩ := hwindowed.refused_of_open E handle hnone hne hopen hwrites
      exact ⟨error, hrun, hcause.imp_right fun h => .inr ⟨handle, h⟩⟩
    | submitFails _ h => exact ⟨_, rfl, .inr (.inl h)⟩
    | submitLost _ source => exact ⟨_, rfl, .inr (.inl rfl)⟩
  · have hfrom : ∀ j, Guarded E j (fun ended w => j = i → w.EndsAfter c.1.log (x i) ended)
        (c.2 j) c.1 := by
      intro j
      by_cases hj : j = i
      · subst hj
        rw [hbegins]
        exact (unrecorded_guarded (fun _ => List.prefix_rfl) (x j)).mono fun _ _ h _ => h
      · exact (hsafe j).mono fun _ _ _ heq => absurd heq hj
    obtain ⟨-, hthen⟩ := guarded_of_reaches
      (fun _ _ _ _ h hw heq => (h heq).mono hw) hlater hwindowed hfrom
    have hend := hthen i
    rw [hended, hx] at hend
    exact hend rfl hnone commandId hne hid hstill
  · obtain ⟨s, hs, rfl, event, hevent, hevents, hle, huncovered⟩ := hreplayed
    obtain ⟨hwindowed', hthen⟩ := guarded_of_reaches (fun _ _ _ _ h hw => h.mono hw) hlater
      hwindowed hsafe
    have hend := hthen i
    rw [hended, hx] at hend
    -- the read replayed the event, because no snapshot covers it even now
    have hseen : ∃ s ∈ tx.streams, commandId ∈ s.loaded.seenCommandIds := by
      refine ⟨s, hs, ((hend.1 s hs).watched.seen event ?_ commandId hne hevents).resolve_right
        huncovered⟩
      exact mem_take_of_sequence_le (hwindowed'.sound s.entityId).numbered hevent hle
    exact ⟨Transaction.commit_of_seen hne hid hseen, hend.2 hnone commandId hne hid hseen⟩

def repeated : Fin 4 → Unrecorded (fun _ : Unit => counter)
  | 0 | 1 => .execute () "a" { counter.store with outcomes := none } (0 : Nat)
      { commandId := some "k" }
  | 2 => .execute () "a" { counter.store with outcomes := none } (5 : Nat)
      { commandId := some "k" }
  | 3 => .transact ⟨0, 0, [], none⟩ { commandId := some "k" } (.read () "a" fun _ =>
      .append () 0 [()] fun _ => .decide (.accept none))

def repeating (schedule : List (Fin 4)) :
    World (Fin 4) × (Fin 4 → Program (Ended fun _ : Unit => counter)) :=
  turns Env.plain (World.start .empty, fun i => (repeated i).program) schedule

theorem World.open_of_head {ι : Type} {w : World ι}
    (hlog : (w.log entityId).head?.bind (·.metadata.commandId) = some commandId)
    (hsnapshot : (w.stores.held entityId).snapshot = none) : w.Open entityId commandId := by
  obtain ⟨event, hevent, hid⟩ := Option.bind_eq_some_iff.mp hlog
  refine ⟨event, List.mem_of_head? hevent, hid, ?_⟩
  rintro ⟨snapshot, hs, -⟩
  rw [hsnapshot] at hs
  cases hs

/-- The second execution and the transaction begin after the first one committed. -/
theorem duplicates_refused_of_two :
    let c := repeating [0, 0, 0, 0, 0]
    let c' := repeating ([0, 0, 0, 0, 0] ++ [1, 1, 1])
    let c'' := repeating ([0, 0, 0, 0, 0] ++ [3, 3, 3, 3])
    c.1.Open "a" "k" ∧ (∃ error, c'.2 1 = .done (.failed error) ∧
      (error = .duplicateCommand "k" ∨ error.isLoadFailure = true)) ∧
    ∃ tx error, c''.2 3 = .done (.committed tx (.error error)) ∧ tx.poisoned = false ∧
      (error = .duplicateCommand "k" ∨ error.isStorageFailure = true) := by
  intro c c' c''
  have hopen : c.1.Open "a" "k" := open_of_head (by decide +kernel) (by decide +kernel)
  obtain ⟨-, -, hexecutes, htransacts⟩ := duplicates_refused Env.plain repeated c
    (reaches_turns Env.plain _ _ [0, 0, 0, 0, 0]) "a" "k" (by decide) hopen
  refine ⟨hopen, ?_, ?_⟩
  · obtain ⟨event, hevent, hid, huncovered⟩ : c'.1.Open "a" "k" :=
      open_of_head (by decide +kernel) (by decide +kernel)
    have hlog : c'.1.log "a" = c.1.log "a" := rfl
    rcases hexecutes 1 () _ _ _ c' _ rfl rfl rfl rfl (reaches_turns Env.plain _ c [1, 1, 1]) rfl
      ⟨event, hlog ▸ hevent, hid, huncovered⟩ with hended | ⟨error, hended, hload⟩
    · exact ⟨_, congrArg Script.done hended, .inl rfl⟩
    · exact ⟨error, congrArg Script.done hended, .inr hload⟩
  · obtain ⟨event, hevent, hid, huncovered⟩ : c''.1.Open "a" "k" :=
      open_of_head (by decide +kernel) (by decide +kernel)
    have hle : ∀ event ∈ c''.1.log "a", event.sequence ≤ 1 := by decide +kernel
    obtain ⟨-, error, hresult, hcause⟩ := htransacts 3 _ _ _ c'' _ _ rfl rfl rfl
      (reaches_turns Env.plain _ c [3, 3, 3, 3]) rfl
      ⟨_, List.mem_cons_self, rfl, event, hevent, hid, hle event hevent, huncovered⟩
    refine ⟨_, error, congrArg (fun result => Script.done (Ended.committed _ result)) hresult, rfl,
      hcause.imp_right fun h => h.resolve_right fun h => ?_⟩
    cases h.1

/-- An execution that loaded before the first one committed ends as its handler decides. -/
theorem concurrent_duplicate_refused :
    let c := repeating ([2, 2, 2] ++ [0, 0, 0, 0, 0] ++ [2])
    c.1.Open "a" "k" ∧ c.2 2 = .done .refused :=
  ⟨open_of_head (by decide +kernel) (by decide +kernel), rfl⟩

end EventStore
