import EventStore.Runs.World

/-!
Runs of a pool that a list of turns determines. Every call is answered by the
repository itself, without failures; a run reached this way is one of the
interleavings.
-/
namespace EventStore

open Program

variable {ι : Type} [DecidableEq ι] {α : Type}

namespace World

def freshHandle : Handle := ⟨none, false⟩

def answer (E : Env) (i : ι) (w : World ι) : (a : Ask) → Answer a × World ι
  | .span _ => ((), { w with started := Function.update w.started i w.version })
  | .outcome commandId => (w.stores.outcome commandId, w)
  | .outcomeWithin commandId => (some (w.stores.outcome commandId), w)
  | .snapshot entityId => (.ok (w.stores.snapshot entityId), w)
  | .eventsAfter entityId after => (.ok (w.stores.eventsAfter entityId after), w)
  | .putSnapshot snapshot =>
    let (result, r) := (freshHandle.over w.stores).putSnapshot E snapshot
    (result, w.withStores r.stores)
  | .submit q => w.submitBy E freshHandle i q
  | .compactBelow entityId through =>
    let (result, r) := (freshHandle.over w.stores).compactBelow E entityId through
    (result, w.withStores r.stores)
  | .declareHistory _ => (.ok (), w.withStores { w.stores with manifest := w.stores.manifest })
  | .generate => ("generated", w)
  | .consult => ("", w)
  | .pastDeadline => (false, w)

theorem acts_answer (E : Env) (i : ι) (w : World ι) (a : Ask) :
    Acts E i w a (w.answer E i a).1 (w.answer E i a).2 := by
  cases a with
  | span entityId => exact .span entityId
  | outcome commandId => exact .outcome commandId
  | outcomeWithin commandId => exact .outcomeWithin commandId
  | snapshot entityId => exact .snapshot entityId
  | eventsAfter entityId after => exact .eventsAfter entityId after
  | putSnapshot snapshot => exact .putSnapshot freshHandle snapshot
  | submit q => exact .submit freshHandle q
  | compactBelow entityId through => exact .compactBelow freshHandle entityId through
  | declareHistory types => exact .declareHistory types w.stores.manifest
  | generate => exact .generate "generated"
  | consult => exact .consult ""
  | pastDeadline => exact .pastDeadline false

def turns (E : Env) (c : World ι × (ι → Program α)) (schedule : List ι) :
    World ι × (ι → Program α) :=
  Pool.turns (fun i w => w.answer E i) c schedule

abbrev Allows (E : Env) (allowed : World ι → Ask → Prop) (c : World ι × (ι → Program α))
    (schedule : List ι) : Prop :=
  Pool.Allows (fun i w => w.answer E i) (fun _ => allowed) c schedule

theorem reaches_turns_when {E : Env} {allowed : World ι → Ask → Prop}
    (env : World ι → World ι → Prop) {c : World ι × (ι → Program α)} {schedule : List ι}
    (h : Allows E allowed c schedule) :
    Pool.Reaches (ActsWhen E allowed) env c (turns E c schedule) :=
  Pool.reaches_turns_when (fun i w a hallowed => ⟨hallowed, acts_answer E i w a⟩) h

theorem reaches_when_true {E : Env} {env : World ι → World ι → Prop}
    {c c' : World ι × (ι → Program α)} (h : Pool.Reaches (Acts E) env c c') :
    Pool.Reaches (ActsWhen E fun _ _ => True) env c c' :=
  h.mono fun _ _ _ _ _ hact => ⟨trivial, hact⟩

theorem reaches_turns (E : Env) (env : World ι → World ι → Prop)
    (c : World ι × (ι → Program α)) (schedule : List ι) :
    Pool.Reaches (Acts E) env c (turns E c schedule) :=
  Pool.reaches_turns (acts_answer E) c schedule

end World

/-- A counter that adds one once it has reached the number a command names. -/
def counter : Aggregate where
  State := Nat
  Event := Unit
  Command := Nat
  Failure := Unit
  entityType := "counter"
  snapshotInterval := none
  initial := 0
  apply count _ := count + 1
  handle count needed _ := if needed ≤ count then .ok [()] else .error ()
  rejectionEvents _ _ := []
  toRejection _ := some ⟨"too-early", "", none⟩
  failureText _ := ""
  eventType _ := "added"
  eventVersion _ := 1
  toPayload _ := .ok .empty
  fromPayload _ _ _ := .ok ()
  upcasters := []
  encode count := .ok (String.ofList (List.replicate count '1')).toUTF8
  decode bytes := .ok bytes.size
  commandType _ := "add"
  canonicalPayload _ := .ok none

namespace counter

def outcomes : OutcomeConfig where
  digester _ := .ok "digest"
  recoveryWait := 0
  retry := ⟨1, none⟩
  staleFenceCode := Rejection.staleFenceCode
  staleVersionCode := Rejection.staleVersionCode

def store : StoreConfig counter where
  snapshotInterval := 0
  catchUpThreshold := 0
  projectors := []
  commitProjectors := []
  outcomes := some outcomes

end counter

end EventStore
