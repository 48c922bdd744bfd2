import EventStore.Memory.StreamLog
import EventStore.Core.Transactions

/-!
The shared repository of any number of programs. A call may fail with a storage failure; a commit
may also be indeterminate and apply at any later moment. The world keeps, as ghost state, every
applied commit with its author.
-/
namespace EventStore

def Error.isStorageFailure : Error → Bool
  | .transient _ | .backend _ | .indeterminate _ | .invalidRecord _ => true
  | _ => false

/-- A commit that applied, its author, and what had applied when the author's load began. -/
structure Applied (ι : Type) where
  author : Option ι
  started : Nat
  request : Request
  write : Write

structure InFlight (ι : Type) where
  author : ι
  started : Nat
  request : Request

/-- `started`: the commits applied when a program's last load began; `refused`: a recorded command.
-/
structure World (ι : Type) where
  stores : Stores
  applied : List (Applied ι)
  inFlight : List (InFlight ι)
  started : ι → Nat
  refused : ι → Bool

def Error.isOutcomeConflict : Error → Bool
  | .outcomeConflict _ => true
  | _ => false

namespace World

variable {ι : Type}

def start (stores : Stores) : World ι := ⟨stores, [], [], fun _ => 0, fun _ => false⟩

/-- The commits applied so far; the streams change only with them. -/
def version (w : World ι) : Nat := w.applied.length

def history (w : World ι) : History := ⟨w.stores, w.applied.map (·.write)⟩

def log (w : World ι) (entityId : EntityId) : List SerializedEvent := w.history.log entityId

def land (E : Env) (handle : Handle) (author : Option ι) (started : Nat) (q : Request)
    (w : World ι) : Except Error Unit × World ι :=
  let (result, r) := q.run E (handle.over w.stores)
  (result, { w with
    stores := r.stores
    applied := w.applied ++
      (History.appliedBy E q result).map fun write => ⟨author, started, q, write⟩ })

def recorded (w : World ι) (q : Request) : Bool :=
  q.outcome.any fun outcome => w.stores.outcomes.contains outcome.commandId

def submitBy [DecidableEq ι] (E : Env) (handle : Handle) (i : ι) (q : Request) (w : World ι) :
    Except Error Unit × World ι :=
  let (result, w') := w.land E handle (some i) (w.started i) q
  let refused := match result with
    | .ok () => false
    | .error error => error.isOutcomeConflict && w.recorded q
  (result, { w' with refused := Function.update w.refused i (w.refused i || refused) })

def withStores (w : World ι) (stores : Stores) : World ι := { w with stores }

inductive Acts [DecidableEq ι] (E : Env) (i : ι) (w : World ι) :
    (a : Ask) → Answer a → World ι → Prop
  | span (entityId : EntityId) :
      Acts E i w (.span entityId) () { w with started := Function.update w.started i w.version }
  | outcome (commandId : CommandId) :
      Acts E i w (.outcome commandId) (w.stores.outcome commandId) w
  | outcomeFails (commandId : CommandId) {error : Error} (h : error.isStorageFailure = true) :
      Acts E i w (.outcome commandId) (.error error) w
  | outcomeWithin (commandId : CommandId) :
      Acts E i w (.outcomeWithin commandId) (some (w.stores.outcome commandId)) w
  | outcomeWithinFails (commandId : CommandId) {error : Error}
      (h : error.isStorageFailure = true) :
      Acts E i w (.outcomeWithin commandId) (some (.error error)) w
  | stalls (commandId : CommandId) : Acts E i w (.outcomeWithin commandId) none w
  | snapshot (entityId : EntityId) :
      Acts E i w (.snapshot entityId) (.ok (w.stores.snapshot entityId)) w
  | snapshotFails (entityId : EntityId) {error : Error} (h : error.isStorageFailure = true) :
      Acts E i w (.snapshot entityId) (.error error) w
  | eventsAfter (entityId : EntityId) (after : Int) :
      Acts E i w (.eventsAfter entityId after) (.ok (w.stores.eventsAfter entityId after)) w
  | eventsAfterFails (entityId : EntityId) (after : Int) {error : Error}
      (h : error.isStorageFailure = true) :
      Acts E i w (.eventsAfter entityId after) (.error error) w
  | putSnapshot (handle : Handle) (snapshot : SerializedSnapshot) :
      Acts E i w (.putSnapshot snapshot) ((handle.over w.stores).putSnapshot E snapshot).1
        (w.withStores ((handle.over w.stores).putSnapshot E snapshot).2.stores)
  | putSnapshotFails (snapshot : SerializedSnapshot) {error : Error}
      (h : error.isStorageFailure = true) : Acts E i w (.putSnapshot snapshot) (.error error) w
  | putSnapshotLost (handle : Handle) (snapshot : SerializedSnapshot) {error : Error}
      (h : error.isStorageFailure = true) :
      Acts E i w (.putSnapshot snapshot) (.error error)
        (w.withStores ((handle.over w.stores).putSnapshot E snapshot).2.stores)
  | submit (handle : Handle) (q : Request) :
      Acts E i w (.submit q) (w.submitBy E handle i q).1 (w.submitBy E handle i q).2
  | submitFails (q : Request) {error : Error} (h : error.isStorageFailure = true) :
      Acts E i w (.submit q) (.error error) w
  | submitLost (q : Request) (source : BoxError) :
      Acts E i w (.submit q) (.error (.indeterminate source))
        { w with inFlight := ⟨i, w.started i, q⟩ :: w.inFlight }
  | compactBelow (handle : Handle) (entityId : EntityId) (through : Int) :
      Acts E i w (.compactBelow entityId through)
        ((handle.over w.stores).compactBelow E entityId through).1
        (w.withStores ((handle.over w.stores).compactBelow E entityId through).2.stores)
  | compactBelowFails (entityId : EntityId) (through : Int) {error : Error}
      (h : error.isStorageFailure = true) :
      Acts E i w (.compactBelow entityId through) (.error error) w
  | compactBelowLost (handle : Handle) (entityId : EntityId) (through : Int) {error : Error}
      (h : error.isStorageFailure = true) :
      Acts E i w (.compactBelow entityId through) (.error error)
        (w.withStores ((handle.over w.stores).compactBelow E entityId through).2.stores)
  | declareHistory (types : List EntityType) (manifest : Option FeatureManifest) :
      Acts E i w (.declareHistory types) (.ok ()) (w.withStores { w.stores with manifest })
  | declareHistoryFails (types : List EntityType) {error : Error}
      (h : error.isStorageFailure = true) : Acts E i w (.declareHistory types) (.error error) w
  | generate (text : String) : Acts E i w .generate text w
  | consult (text : String) : Acts E i w .consult text w
  | pastDeadline (passed : Bool) : Acts E i w .pastDeadline passed w

def ActsWhen [DecidableEq ι] (E : Env) (allowed : World ι → Ask → Prop) (i : ι) (w : World ι)
    (a : Ask) (answer : Answer a) (w' : World ι) : Prop :=
  allowed w a ∧ Acts E i w a answer w'

inductive Lands (E : Env) (w : World ι) : World ι → Prop
  | land (handle : Handle) (f : InFlight ι) (before after : List (InFlight ι))
      (hf : w.inFlight = before ++ f :: after)
      (hok : (w.land E handle (some f.author) f.started f.request).1 = .ok ()) :
      Lands E w { (w.land E handle (some f.author) f.started f.request).2 with
        inFlight := before ++ after }

/-- What the writers outside the pool may commit and store as a snapshot. -/
structure Writers (ι : Type) where
  commits : World ι → Request → Prop
  puts : World ι → SerializedSnapshot → Prop

def anyone : Writers ι := ⟨fun _ _ => True, fun _ _ => True⟩

def noOne : Writers ι := ⟨fun _ _ => False, fun _ _ => False⟩

/-- The moves of writers outside the pool, and of declarations and rebuilds. -/
inductive Others (E : Env) (others : Writers ι) (w : World ι) : World ι → Prop
  | submit (handle : Handle) (q : Request) (h : others.commits w q) :
      Others E others w (w.land E handle none 0 q).2
  | putSnapshot (handle : Handle) (snapshot : SerializedSnapshot) (h : others.puts w snapshot) :
      Others E others w (w.withStores ((handle.over w.stores).putSnapshot E snapshot).2.stores)
  | compactBelow (handle : Handle) (entityId : EntityId) (through : Int) :
      Others E others w
        (w.withStores ((handle.over w.stores).compactBelow E entityId through).2.stores)
  | control (manifest : Option FeatureManifest) (rebuild : RebuildState) :
      Others E others w (w.withStores { w.stores with manifest, rebuild })

/-- What moves between the calls of the pool: in-flight commits and other writers. -/
def Moves (E : Env) (others : Writers ι) (w w' : World ι) : Prop :=
  Lands E w w' ∨ Others E others w w'

/-- A change of the history; `commits` and `puts` say whose. -/
abbrev Effect (E : Env) (commits : Option ι → Nat → Request → Prop)
    (puts : SerializedSnapshot → Prop) (w w' : World ι) : Prop :=
  History.Changes Applied.write
    (fun e => commits e.author e.started e.request ∧ e.request.plan E = .ok (some e.write)) puts
    True w.stores w.applied w'.stores w'.applied

section Effects

variable {E : Env} {commits : Option ι → Nat → Request → Prop}
  {puts : SerializedSnapshot → Prop} {w w' : World ι}

theorem land_cases (E : Env) (handle : Handle) (author : Option ι) (started : Nat) (q : Request)
    (w : World ι) :
    (SameData w.stores (w.land E handle author started q).2.stores ∧
      (w.land E handle author started q).2.applied = w.applied ∧
      ((w.land E handle author started q).1 = .ok () → q.plan E = .ok none)) ∨
    (w.land E handle author started q).1 = .ok () ∧ ∃ write, q.plan E = .ok (some write) ∧
      write.Accepted w.stores ∧
      SameData (write.apply w.stores) (w.land E handle author started q).2.stores ∧
      (w.land E handle author started q).2.applied =
        w.applied ++ [⟨author, started, q, write⟩] := by
  simp only [land]
  rcases History.submit_cases E w.stores handle q with
    ⟨data, happlied, hplan⟩ | ⟨hok, write, plan, accepted, data, happlied⟩
  · exact .inl ⟨data, by simp [happlied], hplan⟩
  · exact .inr ⟨hok, write, plan, accepted, data, by simp [happlied]⟩

theorem land_effect {handle : Handle} {author : Option ι} {started : Nat} {q : Request}
    (hstores : w'.stores = (w.land E handle author started q).2.stores)
    (happlied : w'.applied = (w.land E handle author started q).2.applied)
    (h : commits author started q) : Effect E commits puts w w' := by
  rcases land_cases E handle author started q w with
    ⟨data, applied, -⟩ | ⟨-, write, plan, accepted, data, applied⟩
  · exact .quiet (hstores ▸ data) (happlied.trans applied)
  · exact .commit ⟨h, plan⟩ accepted (hstores ▸ data) (happlied.trans applied)

theorem putSnapshot_effect (handle : Handle) {snapshot : SerializedSnapshot} (h : puts snapshot) :
    Effect E commits puts w
      (w.withStores ((handle.over w.stores).putSnapshot E snapshot).2.stores) :=
  (History.putSnapshot_changes _ w.applied E w.stores handle snapshot).mono (fun _ => False.elim)
    (fun _ heq => heq ▸ h) False.elim

theorem compactBelow_effect (handle : Handle) (entityId : EntityId) (through : Int) :
    Effect E commits puts w
      (w.withStores ((handle.over w.stores).compactBelow E entityId through).2.stores) :=
  (History.compactBelow_changes _ w.applied E w.stores handle entityId through).mono
    (fun _ => False.elim) (fun _ => False.elim) id

theorem Effect.sound (h : Effect E commits puts w w') (hw : w.history.Sound) : w'.history.Sound :=
  History.Changes.sound h (fun _ hentry => Request.plan_sound hentry.2) hw

/-- A call of a program applies its own request, or stores its own snapshot. -/
theorem Acts.effect [DecidableEq ι] {i : ι} {a : Ask} {answer : Answer a}
    (h : Acts E i w a answer w') :
    Effect E (fun author started q => author = some i ∧ started = w.started i ∧ a = .submit q)
      (fun snapshot => a = .putSnapshot snapshot) w w' := by
  cases h with
  | submit handle q => exact land_effect rfl rfl ⟨rfl, rfl, rfl⟩
  | putSnapshot handle snapshot | putSnapshotLost handle snapshot _ =>
    exact putSnapshot_effect handle rfl
  | compactBelow handle entityId through | compactBelowLost handle entityId through _ =>
    exact compactBelow_effect handle entityId through
  | _ => exact .quiet ⟨rfl, rfl, rfl⟩ rfl

theorem Lands.effect (h : Lands E w w') :
    Effect E (fun author started q => ∃ f ∈ w.inFlight,
      author = some f.author ∧ started = f.started ∧ q = f.request) puts w w' := by
  cases h with
  | land handle f before after hf hok =>
    exact land_effect rfl rfl ⟨f, by simp [hf], rfl, rfl, rfl⟩

theorem Others.effect {others : Writers ι} (h : Others E others w w') :
    Effect E (fun author _ q => author = none ∧ others.commits w q) (others.puts w) w w' := by
  cases h with
  | submit handle q h => exact land_effect rfl rfl ⟨rfl, h⟩
  | putSnapshot handle snapshot h => exact putSnapshot_effect handle h
  | compactBelow handle entityId through => exact compactBelow_effect handle entityId through
  | control manifest rebuild => exact .quiet ⟨rfl, rfl, rfl⟩ rfl

theorem Moves.effect {others : Writers ι} (h : Moves E others w w') :
    Effect E (fun author started q =>
      (∃ f ∈ w.inFlight, author = some f.author ∧ started = f.started ∧ q = f.request) ∨
        author = none ∧ others.commits w q) (others.puts w) w w' := by
  rcases h with h | h
  · have heffect : Effect E _ (others.puts w) w w' := h.effect
    exact heffect.mono (fun _ h => ⟨.inl h.1, h.2⟩) (fun _ => id) id
  · exact h.effect.mono (fun _ h => ⟨.inr h.1, h.2⟩) (fun _ => id) id

theorem Acts.inFlight [DecidableEq ι] {i : ι} {a : Ask} {answer : Answer a}
    (h : Acts E i w a answer w') (f : InFlight ι) (hf : f ∈ w'.inFlight) :
    f ∈ w.inFlight ∨ f.author = i ∧ f.started = w.started i ∧ a = .submit f.request := by
  cases h with
  | submitLost q source =>
    rcases List.mem_cons.mp hf with rfl | hf
    · exact .inr ⟨rfl, rfl, rfl⟩
    · exact .inl hf
  | _ => exact .inl hf

theorem Acts.refused_other [DecidableEq ι] {i j : ι} {a : Ask} {answer : Answer a}
    (h : Acts E i w a answer w') (hj : j ≠ i) : w'.refused j = w.refused j := by
  cases h with
  | submit handle q => simp [submitBy, hj]
  | _ => rfl

theorem Acts.refused_own [DecidableEq ι] {i : ι} {a : Ask} {answer : Answer a}
    (h : Acts E i w a answer w') (ha : ∀ q, a ≠ .submit q) : w'.refused i = w.refused i := by
  cases h with
  | submit handle q => exact absurd rfl (ha q)
  | _ => rfl

theorem Moves.refused {others : Writers ι} (h : Moves E others w w') :
    w'.refused = w.refused := by
  rcases h with h | h
  · cases h
    rfl
  · cases h <;> rfl

theorem Moves.inFlight {others : Writers ι} (h : Moves E others w w') (f : InFlight ι)
    (hf : f ∈ w'.inFlight) : f ∈ w.inFlight := by
  rcases h with ⟨handle, g, before, after, hg, -⟩ | h
  · rw [hg]
    simp only [List.mem_append, List.mem_cons] at hf ⊢
    exact hf.elim .inl fun hf => .inr (.inr hf)
  · cases h <;> exact hf

end Effects

end World

end EventStore
