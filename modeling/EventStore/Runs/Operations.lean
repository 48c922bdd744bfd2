import EventStore.Runs.World
import EventStore.Runs.Continuing
import EventStore.Runs.Quiet

/-!
Any mix of store operations over one repository. Every commit continues the log it was decided on,
and every stored snapshot is the fold of a prefix, which is what the loads themselves start from.
-/
namespace EventStore

open Result Program

section Operations

variable {κ : Type} (A : κ → Aggregate) (kindOf : EntityId → κ)

/-- An operation of the store; a session commits to its stream again and again. -/
inductive Operation where
  | load (entityId : EntityId) (threshold : Nat)
  | session (entityId : EntityId) (config : StoreConfig (A (kindOf entityId)))
      (commits : List ((A (kindOf entityId)).State →
        List (A (kindOf entityId)).Event × Metadata))
  | execute (entityId : EntityId) (config : StoreConfig (A (kindOf entityId)))
      (command : (A (kindOf entityId)).Command) (metadata : Metadata)
  | executeWithResponse (entityId : EntityId) (config : StoreConfig (A (kindOf entityId)))
      (command : (A (kindOf entityId)).Command) (metadata : Metadata)
      (respond : (A (kindOf entityId)).State → List (A (kindOf entityId)).Event →
        Except String (Option Bytes))
  | transact (config : TransactionConfig) (metadata : Metadata) (prepare : Prepare A)
  | executeTransaction (config : TransactionConfig) (identity : CommandIdentity)
      (metadata : Metadata) (prepare : Prepare A)
  | compact (entityId : EntityId) (through : Int)

end Operations

def StoreConfig.commitAll {A : Aggregate} (config : StoreConfig A) :
    List (A.State → List A.Event × Metadata) → Loaded A → Program (Except Error (Loaded A))
  | [], loaded => .done (.ok loaded)
  | next :: commits, loaded =>
    andThen (config.commit loaded (next loaded.aggregate).1 (next loaded.aggregate).2)
      fun (loaded, _) => config.commitAll commits loaded

variable {κ : Type} {A : κ → Aggregate} {kindOf : EntityId → κ}

/-- The caller reads every stream as the aggregate type it is of. -/
def Prepare.Typed (kindOf : EntityId → κ) : Prepare A → Prop
  | .decide _ | .fail _ => True
  | .read kind entityId next | .load kind entityId next =>
    kind = kindOf entityId ∧ ∀ result, (next result).Typed kindOf
  | .readLoaded _ next | .append _ _ _ next | .fence _ next | .expect _ _ next =>
    ∀ result, (next result).Typed kindOf
  | .consult next => ∀ services, (next services).Typed kindOf

namespace Operation

def Typed : Operation A kindOf → Prop
  | .transact _ _ prepare | .executeTransaction _ _ _ prepare => prepare.Typed kindOf
  | _ => True

def projectors : Operation A kindOf → List CommitProjector
  | .load _ _ | .compact _ _ => []
  | .session _ config _ | .execute _ config _ _ | .executeWithResponse _ config _ _ _ =>
    config.commitProjectors
  | .transact config _ _ | .executeTransaction config _ _ _ => config.commitProjectors

variable [DecidableEq κ]

def program (E : Env) : Operation A kindOf →
    Program (Option ((entityId : EntityId) × Loaded (A (kindOf entityId))))
  | .load entityId threshold =>
    (loadWithCatchUp (A (kindOf entityId)) entityId threshold).bind fun
      | .ok loaded => .done (some ⟨entityId, loaded⟩)
      | .error _ => .done none
  | .session entityId config commits =>
    (andThen (loadWithCatchUp (A (kindOf entityId)) entityId config.catchUpThreshold)
      (config.commitAll commits)).bind fun
        | .ok loaded => .done (some ⟨entityId, loaded⟩)
        | .error _ => .done none
  | .execute entityId config command metadata =>
    (config.execute entityId command metadata).bind fun
      | .ok (loaded, _) => .done (some ⟨entityId, loaded⟩)
      | .error _ => .done none
  | .executeWithResponse entityId config command metadata respond =>
    (config.executeWithResponse E entityId command metadata respond).bind fun _ => .done none
  | .transact config metadata prepare =>
    (prepare.run config Transaction.new []).bind fun
      | (.ok _, tx) => (tx.commit config metadata).bind fun _ => .done none
      | (.error _, _) => .done none
  | .executeTransaction config identity metadata prepare =>
    (EventStore.executeTransaction E config identity metadata prepare).bind fun _ => .done none
  | .compact entityId through => (ask (.compactBelow entityId through)).bind fun _ => .done none

end Operation

variable {ι : Type}

def logOf (applied : List (Applied ι)) (entityId : EntityId) : List SerializedEvent :=
  (History.mk .empty (applied.map (·.write))).log entityId

theorem World.log_eq (w : World ι) (entityId : EntityId) :
    w.log entityId = logOf w.applied entityId := rfl

theorem logOf_append (applied more : List (Applied ι)) (entityId : EntityId) :
    logOf (applied ++ more) entityId = logOf applied entityId ++ logOf more entityId := by
  simp [logOf, History.log, History.written]

theorem logOf_mono {applied applied' : List (Applied ι)} (h : applied <+: applied')
    (entityId : EntityId) : logOf applied entityId <+: logOf applied' entityId := by
  obtain ⟨more, rfl⟩ := h
  rw [logOf_append]
  exact List.prefix_append _ _

theorem logOf_singleton {entry : Applied ι} (h : entry.write.Sound) (entityId : EntityId) :
    logOf [entry] entityId =
      match writerOf entry.write.streams entityId with
      | none => []
      | some c => c.events := by
  have hevents : logOf [entry] entityId =
      entry.write.events.filter fun event => event.entityId == entityId := by
    simp [logOf, History.log, History.written]
  refine hevents.trans ((History.filter_events h entityId).trans ?_)
  cases writerOf entry.write.streams entityId <;> rfl

/-- The stream had the state at some moment between the given one and now. -/
def Had (A : Aggregate) (applied : List (Applied ι)) (started : Nat) (entityId : EntityId)
    (state : A.State) : Prop :=
  ∃ t, started ≤ t ∧ t ≤ applied.length ∧ A.fold (logOf (applied.take t) entityId) = .ok state

theorem Had.mono {A : Aggregate} {applied applied' : List (Applied ι)} {started : Nat}
    {entityId : EntityId} {state : A.State} (h : Had A applied started entityId state)
    (happlied : applied <+: applied') : Had A applied' started entityId state := by
  obtain ⟨t, hstarted, ht, hfold⟩ := h
  refine ⟨t, hstarted, ht.trans happlied.length_le, ?_⟩
  obtain ⟨more, rfl⟩ := happlied
  rwa [List.take_append_of_le_length ht]

/-- The outcome a handler's answer on a state leads to when it leads to no events. -/
def StoreConfig.Decides {A : Aggregate} (E : Env) (pending : PendingCommand)
    (respond : A.State → List A.Event → Except String (Option Bytes)) (state : A.State)
    (command : A.Command) (services : String) (outcome : Outcome) : Prop :=
  match A.handle state command services with
  | .error failure => A.rejectionEvents state failure = [] ∧
      ∃ rejection canonical, A.toRejection failure = some rejection ∧
        rejection.canonical E = .ok canonical ∧ outcome = pending.rejected canonical
  | .ok events => events = [] ∧ acceptedOutcome pending respond state [] = .ok outcome

/-- An outcome without events was decided on a state the stream had since the load began. -/
def Operation.Justified (E : Env) (x : Operation A kindOf) (applied : List (Applied ι))
    (started : Nat) (q : Request) : Prop :=
  match x with
  | .executeWithResponse entityId config command metadata respond =>
    ∀ c, q = .commit c → c.events = [] →
      ∃ outcomes pending state services outcome, config.outcomes = some outcomes ∧
        StoreConfig.freeze outcomes entityId command metadata = .ok pending ∧
        c.entityId = entityId ∧ c.outcome = some outcome ∧
        Had (A (kindOf entityId)) applied started entityId state ∧
        StoreConfig.Decides E pending respond state command services outcome
  | _ => True

/-- A commit that continues the logs, and no outcome decided on an older state. -/
structure Operation.Submits (E : Env) (current : Prop) (x : Operation A kindOf)
    (applied : List (Applied ι)) (started : Nat) (q : Request) : Prop where
  continues : q.write.Continues A kindOf x.projectors (logOf applied)
  justified : current → x.Justified E applied started q

theorem Operation.Submits.mono {E : Env} {current : Prop} {x : Operation A kindOf}
    {applied applied' : List (Applied ι)} {started : Nat} {q : Request}
    (h : x.Submits E current applied started q) (happlied : applied <+: applied') :
    x.Submits E current applied' started q := by
  refine ⟨h.continues.mono (logOf_mono happlied), fun hcurrent => ?_⟩
  have hjustified := h.justified hcurrent
  cases x with
  | executeWithResponse entityId config command metadata respond =>
    intro c hq hevents
    obtain ⟨outcomes, pending, state, services, outcome, hconfig, hfreeze, hid, ho, hhad, hd⟩ :=
      hjustified c hq hevents
    exact ⟨outcomes, pending, state, services, outcome, hconfig, hfreeze, hid, ho,
      hhad.mono happlied, hd⟩
  | _ => trivial

/-- The snapshot a passing commit leaves encodes the whole log it leads to. -/
theorem Stream.Holds.snapshot_applyStream {A : Aggregate} {stream : Stream}
    {log : List SerializedEvent} (h : stream.Holds log) {c : Commit Empty} (hv : c.Valid)
    (hpass : streamFailure stream c = none) {state : A.State}
    (hcontinues : Continues A log c.events c.snapshot state) {snapshot : SerializedSnapshot}
    (hold : ∀ snapshot, stream.snapshot = some snapshot → snapshot.Of A log)
    (hs : (EventStore.applyStream stream c).snapshot = some snapshot) :
    snapshot.Of A (log ++ c.events) := by
  have hwritten := hcontinues.written
  obtain ⟨first, last, hfirst, hlast, hplace, hnumber, -⟩ := h.ends_of_passes hv hwritten hpass
  simp only [EventStore.applyStream, hlast] at hs
  cases hc : c.snapshot with
  | none =>
    rw [hc] at hs
    exact (hold snapshot hs).mono (List.prefix_append _ _)
  | some new =>
    rw [hc] at hs
    cases hs
    have hlength : (log ++ c.events).length = last.sequence.toNat := by
      rw [List.length_append]
      omega
    have hpos : 0 < c.events.length := List.length_pos_iff.mpr hwritten
    refine ⟨by simp only; omega, by simp only [List.length_append]; push_cast; omega, state, ?_,
      hcontinues.snapshot new hc⟩
    simp only [← hlength, List.take_length]
    exact hcontinues.fold_of_admitted hfirst hplace

namespace World

variable (E : Env) (current : Prop) (x : ι → Operation A kindOf)

/-- The streams hold their logs, snapshots fold prefixes, and commits are the operations'. -/
structure Consistent (w : World ι) : Prop where
  sound : w.history.Sound
  snapshots : ∀ entityId snapshot, (w.stores.held entityId).snapshot = some snapshot →
    snapshot.Of (A (kindOf entityId)) (w.log entityId)
  applied : ∀ k entry, w.applied[k]? = some entry → entry.write = entry.request.write ∧
    ∃ i, entry.author = some i ∧
      (x i).Submits E current (w.applied.take k) entry.started entry.request
  inFlight : ∀ f ∈ w.inFlight, (x f.author).Submits E current w.applied f.started f.request
  started : ∀ i, w.started i ≤ w.applied.length

theorem consistent_start : (World.start Stores.empty : World ι).Consistent E current x := by
  refine ⟨History.sound_empty, ?_, ?_, ?_, fun _ => le_rfl⟩
  · intro entityId snapshot h
    simp [start, Stores.empty, Stores.held, Stream.absent] at h
  · intro k entry h
    simp [start] at h
  · intro f hf
    cases hf

variable {E current x}

section Effects

variable {commits : Option ι → Nat → Request → Prop} {puts : SerializedSnapshot → Prop}
  {w w' : World ι} (hw : w.Consistent E current x)
  (hcommits : ∀ author started q, commits author started q →
    ∃ i, author = some i ∧ (x i).Submits E current w.applied started q)
  (hputs : ∀ snapshot, puts snapshot →
    snapshot.Of (A (kindOf snapshot.entityId)) (w.log snapshot.entityId))

include hw hcommits hputs

theorem Effect.snapshots (h : Effect E commits puts w w')
    (entityId : EntityId) (snapshot : SerializedSnapshot)
    (hs : (w'.stores.held entityId).snapshot = some snapshot) :
    snapshot.Of (A (kindOf entityId)) (w'.log entityId) := by
  have hlog : w.log entityId <+: w'.log entityId := logOf_mono h.grows entityId
  have hold := hw.snapshots entityId
  cases h with
  | quiet data applied =>
    rw [data.held] at hs
    exact (hold snapshot hs).mono hlog
  | @commit entry source accepted data applied =>
    obtain ⟨source, plan⟩ := source
    have hsound := Request.plan_sound plan
    have hwrite := Request.write_of_plan plan
    obtain ⟨i, -, hsubmits⟩ := hcommits _ _ _ source
    rw [data.held, Write.held_apply hsound] at hs
    cases hc : writerOf _ entityId with
    | none =>
      rw [hc] at hs
      exact (hold snapshot hs).mono hlog
    | some c =>
      rw [hc] at hs
      obtain ⟨hmem, hevents, hid⟩ := writerOf_eq_some hc
      obtain ⟨shown, hshows⟩ := hsubmits.continues.shows (hwrite ▸ hmem) hevents
      rw [hid] at hshows
      obtain ⟨state, bytes, hcontinues, -⟩ := hshows
      have hnew : w'.log entityId = w.log entityId ++ c.events := by
        rw [log_eq, applied, logOf_append, logOf_singleton hsound, hc]
        rfl
      rw [hnew]
      exact (hw.sound entityId).snapshot_applyStream (hsound.valid c hmem)
        (hid ▸ accepted.streams c hmem) hcontinues hold hs
  | snapshot source head newer data applied =>
    rw [data.held, History.held_setStream] at hs
    split at hs
    · rename_i hid
      cases hs
      rw [hid] at hlog ⊢
      exact (hputs _ source).mono hlog
    · exact (hold snapshot hs).mono hlog
  | compact _ held covered data applied =>
    rw [data.held, History.held_setStream] at hs
    split at hs
    · rename_i hid
      subst hid
      exact (hold snapshot hs).mono hlog
    · exact (hold snapshot hs).mono hlog

theorem Effect.consistent (h : Effect E commits puts w w')
    (hinFlight : ∀ f ∈ w'.inFlight, (x f.author).Submits E current w.applied f.started f.request)
    (hstarted : ∀ i, w'.started i ≤ w'.applied.length) : w'.Consistent E current x := by
  have hgrown := h.grows
  refine ⟨h.sound hw.sound, h.snapshots hw hcommits hputs, ?_,
    fun f hf => (hinFlight f hf).mono hgrown, hstarted⟩
  cases h with
  | quiet _ applied | snapshot _ _ _ _ applied | compact _ _ _ _ applied =>
    rw [applied]
    exact hw.applied
  | commit source accepted data applied =>
    obtain ⟨source, plan⟩ := source
    intro k entry hk
    rw [applied] at hk ⊢
    by_cases hlt : k < w.applied.length
    · rw [List.getElem?_append_left hlt] at hk
      rw [List.take_append_of_le_length hlt.le]
      exact hw.applied k entry hk
    · rw [List.getElem?_append_right (by omega)] at hk
      have hzero : k = w.applied.length := by
        have := (List.getElem?_eq_some_iff.mp hk).1
        simp at this
        omega
      subst hzero
      simp only [Nat.sub_self, List.getElem?_cons_zero, Option.some.injEq] at hk
      subst hk
      rw [List.take_left']
      · exact ⟨Request.write_of_plan plan, hcommits _ _ _ source⟩
      · rfl

end Effects

end World

end EventStore
