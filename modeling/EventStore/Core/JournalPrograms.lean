import EventStore.Core.JournalReads
import EventStore.Core.RebuildPrograms

/-!
The repository that journals commits, as a script of calls to the store it shares with
compaction runs, rebuilds and consumers.
-/
namespace EventStore

open Result

inductive ManifestChange where
  | declareJournal
  | declareCompaction
  | declareHistory (types : List EntityType)
  | retract (journal : Bool) (history : List EntityType)
deriving DecidableEq

namespace FeatureManifest

def declaresJournal (m : FeatureManifest) : Bool :=
  m.features[journalFeature]? == some journalVersion

end FeatureManifest

inductive Delivery where
  | page (page : JournalPage)
  | snapshot (manifest : CompactionManifest) (after : Nat) (rows : List JournalRow)

inductive JournalAsk where
  | counter (scope : Scope)
  | lastPosition (scope : Scope)
  | rows (scope : Scope) (after limit : Nat)
  | compactionRow (scope : Scope) (sortKey : String)
  | submit (q : Request)
  | write (epoch : Option RebuildEpoch) (writes : List CompactionWrite)
  | now
  | manifest
  | update (change : ManifestChange)
  | declared
  | setDeclared (value : Bool)
  | pastDeadline
  | log
  | fence (ask : FenceAsk)
  | deliver (delivery : Delivery)

def JournalAnswer : JournalAsk → Type
  | .counter _ | .lastPosition _ => Except Error Nat
  | .rows _ _ _ => Except Error (List JournalRow)
  | .compactionRow _ _ => Except Error (Option ViewRow)
  | .submit _ | .update _ => Except Error Unit
  | .write _ _ => Except Error CompactionWritten
  | .now => Int
  | .manifest => Except Error (Option FeatureManifest)
  | .declared | .pastDeadline => Bool
  | .setDeclared _ | .deliver _ => Unit
  | .log => Except Error (List SerializedEvent)
  | .fence ask => FenceAnswer ask

abbrev JournalProgram (α : Type) := Script JournalAsk JournalAnswer α

namespace JournalProgram

def readCounter (scope : Scope) : JournalProgram (Except Error Nat) :=
  Script.ask (JournalAsk.counter scope)

def readLastPosition (scope : Scope) : JournalProgram (Except Error Nat) :=
  Script.ask (JournalAsk.lastPosition scope)

def submit (q : Request) : JournalProgram (Except Error Unit) := Script.ask (JournalAsk.submit q)

def readFeatures : JournalProgram (Except Error (Option FeatureManifest)) :=
  Script.ask JournalAsk.manifest

def updateManifest (change : ManifestChange) : JournalProgram (Except Error Unit) :=
  Script.ask (JournalAsk.update change)

def isDeclared : JournalProgram Bool := Script.ask JournalAsk.declared

def setDeclared (value : Bool) : JournalProgram Unit := Script.ask (JournalAsk.setDeclared value)

def isPastDeadline : JournalProgram Bool := Script.ask JournalAsk.pastDeadline

def readEngineRow (scope : Scope) (sortKey : String) :
    JournalProgram (Except Error (Option ViewRow)) :=
  (Script.ask (JournalAsk.compactionRow scope sortKey) : JournalProgram _).andThen fun
    | none => .done (.ok none)
    | some row => .done ((checkCompactionRow scope sortKey row).map some)

end JournalProgram

open JournalProgram

section Reading

variable (T : CompactionText)

def readManifest (scope : Scope) : JournalProgram (Except Error (Option CompactionManifest)) :=
  (readEngineRow scope manifestSortKey).andThen fun
    | none => .done (.ok none)
    | some row => .done ((CompactionManifest.decode T scope row.payload).map some)

def readFloor (scope : Scope) : JournalProgram (Except Error Nat) :=
  (readManifest T scope).andThen fun manifest =>
    .done (.ok ((manifest.map (·.checkpoint)).getD 0))

end Reading

/-- A repository that journals its commits; the wrapped one may refuse an undeclared store. -/
structure JournalRepository where
  journal : Journal
  refusesUninitialized : Bool

structure Declared where
  journal : Bool
  history : List EntityType

def Declared.none : Declared := ⟨false, []⟩

def Declared.any (declared : Declared) : Bool := declared.journal || !declared.history.isEmpty

def undeclared (manifest : Option FeatureManifest) (types : List EntityType) : List EntityType :=
  types.filter fun entityType => !manifest.any (·.isHistoryDependent entityType)

def declareHistory (types : List EntityType) : JournalProgram (Except Error Unit) :=
  readFeatures.andThen fun manifest =>
    let missing := undeclared manifest types
    if missing.isEmpty then .done (.ok ()) else updateManifest (.declareHistory missing)

namespace JournalRepository

variable (R : JournalRepository)

def declare (manifest : Option FeatureManifest) : JournalProgram (Except Error Declared) :=
  let needed := !manifest.any (·.declaresJournal)
  (if needed then updateManifest .declareJournal else .done (.ok ())).andThen fun _ =>
    (declareHistory R.journal.entityTypes).andThen fun _ =>
      (setDeclared true).bind fun _ =>
        .done (.ok ⟨needed, undeclared manifest R.journal.entityTypes⟩)

def ensureDeclared : JournalProgram (Except Error Declared) :=
  isDeclared.bind fun declared =>
    if declared then .done (.ok .none)
    else
      readFeatures.andThen fun manifest =>
        match manifest.bind (·.features[journalFeature]?) with
        | some version =>
          if version ≠ journalVersion then
            .done (.error (.unsupportedFeature journalFeature version))
          else if R.refusesUninitialized ∧ !manifest.any (·.declaresStreamHeads) then
            .done (.error .storeNotInitialized)
          else R.declare manifest
        | none =>
          if R.refusesUninitialized ∧ !manifest.any (·.declaresStreamHeads) then
            .done (.error .storeNotInitialized)
          else R.declare manifest

def retract (declared : Declared) : JournalProgram Unit :=
  (setDeclared false).bind fun _ =>
    if declared.any then
      (updateManifest (.retract declared.journal declared.history)).bind fun _ => .done ()
    else .done ()

end JournalRepository

section Counting

variable (T : CompactionText)

def readStored : List Scope → JournalProgram (Except Error (List Nat))
  | [] => .done (.ok [])
  | scope :: scopes =>
    (JournalProgram.readCounter scope).andThen fun stored =>
      (readStored scopes).andThen fun values => .done (.ok (stored :: values))

/-- The position a scope allocates from: its counter, when in repair its rows, and its floor. -/
def readBase (scope : Scope) (stored : Nat) (repair : Bool) : JournalProgram (Except Error Nat) :=
  (if repair then
    (readLastPosition scope).andThen fun last => .done (.ok (max stored last))
  else .done (.ok stored)).andThen fun base =>
    if repair ∨ base = 0 then
      (readFloor T scope).andThen fun floor => .done (.ok (max base floor))
    else .done (.ok base)

def readBases (repair : Bool) (counters : Counters) :
    List (Scope × Nat) → JournalProgram (Except Error Counters)
  | [] => .done (.ok counters)
  | (scope, stored) :: scopes =>
    (readBase T scope stored repair).andThen fun base =>
      readBases repair ⟨counters.stored.insert scope.text stored,
        counters.base.insert scope.text base⟩ scopes

def readCounters (scopes : List Scope) (repair : Bool) : JournalProgram (Except Error Counters) :=
  (readStored scopes).andThen fun values => readBases T repair ⟨∅, ∅⟩ (scopes.zip values)

end Counting

def isPositionTaken (text : String) : Bool :=
  startsWith text "position " && text.endsWith " is already taken"

def taken : Error → Bool
  | .projectorOperation operation =>
    operation.projector == journalProjectorName && operation.mapped.any isPositionTaken
  | _ => false

def positionsExhausted (q : Request) (attempts : Nat) : Error :=
  .conflict q.label ("journal positions kept being taken by other writers; " ++
    toString attempts ++ " attempts exhausted")

def Error.isUnready : Error → Bool
  | .streamHeadsNotMigrated | .storeNotInitialized => true
  | _ => false

def Error.isTransient : Error → Bool
  | .transient _ => true
  | _ => false

namespace JournalRepository

variable (E : Env) (T : CompactionText) (R : JournalRepository)

def covered (q : Request) : Bool :=
  (q.eventStreams.flatMap (·.2)).any fun event => R.journal.covers event.entityType

def again (q : Request) (attempts : Nat) (error : Error) (lost : Bool)
    (next : Option (JournalProgram (Except Error Unit))) : JournalProgram (Except Error Unit) :=
  let exhausted : Except Error Unit :=
    .error (if lost then positionsExhausted q attempts else error)
  match next with
  | none => .done exhausted
  | some next =>
    if R.journal.deadline then
      isPastDeadline.bind fun passed =>
        if passed then .done exhausted else next
    else next

/-- A refused attempt: taken positions and transient failures are tried again, with a repair. -/
def refused (q : Request) (scopes : List Scope) (attempts : Nat) (repair : Bool)
    (counters : Counters) (next : Option (Bool → JournalProgram (Except Error Unit)))
    (error : Error) : JournalProgram (Except Error Unit) :=
  if taken error then
    (readCounters T scopes false).andThen fun fresh =>
      R.again q attempts error true
        (next.map fun next => next (repair || fresh.stored == counters.stored))
  else if error.isTransient then
    R.again q attempts error false (next.map fun next => next repair)
  else .done (.error error)

/-- One attempt: counters are read and the commit staged and validated before the marker
is touched. -/
def attempt (q : Request) (plan : List (List Scope)) (scopes : List Scope) (attempts : Nat)
    (next : Option (Bool → JournalProgram (Except Error Unit))) (repair : Bool) :
    JournalProgram (Except Error Unit) :=
  (readCounters T scopes repair).andThen fun counters =>
    Script.check (stageJournal E T.toJournalText R.journal q plan counters) fun staged =>
      Script.check (staged.validate E) fun _ =>
        R.ensureDeclared.andThen fun declared =>
          (submit staged).bind fun
            | .ok () => .done (.ok ())
            | .error error =>
              if declared.any ∧ error.isUnready then
                (retract declared).bind fun _ => .done (.error error)
              else R.refused T q scopes attempts repair counters next error

def attemptsFrom (q : Request) (plan : List (List Scope)) (scopes : List Scope) :
    Nat → Nat → Bool → JournalProgram (Except Error Unit)
  | 0, attempts => R.attempt E T q plan scopes attempts none
  | left + 1, attempts =>
    R.attempt E T q plan scopes attempts (some (attemptsFrom q plan scopes left (attempts + 1)))

def planned (plan : List (List Scope)) : List Scope :=
  plan.flatten.dedup.insertionSort fun a b => a.text ≤ b.text

def drive (q : Request) : JournalProgram (Except Error Unit) :=
  Script.check (q.scopePlan R.journal) fun plan =>
    if !R.covered q then submit q.withoutAllocations
    else R.attemptsFrom E T q plan (planned plan) (R.journal.maxAttempts - 1) 1 false

end JournalRepository

end EventStore
