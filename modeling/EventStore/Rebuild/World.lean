import EventStore.Rebuild.Fence
import EventStore.Core.RebuildPrograms

/-!
The fence among any number of programs. A call that changes something may fail and still apply, at
once or whenever its condition holds. The world keeps, as ghost state, a log of every change,
applied write and intent, and where in it each program read the fence.
-/
namespace EventStore

open Result

inductive FenceRequest where
  | change (change : FenceChange)
  | write (lease : RebuildLease) (views : List ProjectedView)

/-- A change or a write that applied, with its author, or a note of a program. -/
inductive FenceEvent (ι : Type) where
  | changed (author : Option ι) (change : FenceChange)
  | wrote (author : Option ι) (lease : RebuildLease) (views : List ProjectedView)
  | attempted (author : ι) (lease : RebuildLease)
  | planned (author : ι) (lease : RebuildLease) (batches : List (List ProjectedView))
  | finishing (author : ι) (lease : RebuildLease)

namespace FenceEvent

variable {ι : Type}

def of (author : Option ι) : FenceRequest → FenceEvent ι
  | .change change => .changed author change
  | .write lease views => .wrote author lease views

def isNote : FenceEvent ι → Bool
  | .changed _ _ | .wrote _ _ _ => false
  | _ => true

end FenceEvent

structure FenceWorld (ι : Type) where
  stores : Stores
  inFlight : List (ι × FenceRequest)
  log : List (FenceEvent ι)
  marks : ι → List Nat

namespace FenceWorld

variable {ι : Type}

def start (stores : Stores) : FenceWorld ι := ⟨stores, [], [], fun _ => []⟩

def fence (w : FenceWorld ι) : RebuildState := w.stores.rebuild

def value (w : FenceWorld ι) : Int := w.fence.generation.value

def noted (w : FenceWorld ι) (events : List (FenceEvent ι)) : FenceWorld ι :=
  { w with log := w.log ++ events }

def marked [DecidableEq ι] (w : FenceWorld ι) (i : ι) : FenceWorld ι :=
  { w with marks := Function.update w.marks i (w.marks i ++ [w.log.length]) }

def changed (w : FenceWorld ι) (author : Option ι) (change : FenceChange) (fence : RebuildState) :
    FenceWorld ι :=
  { w with stores := { w.stores with rebuild := fence }, log := w.log ++ [.changed author change] }

def wrote (w : FenceWorld ι) (author : Option ι) (lease : RebuildLease)
    (views : List ProjectedView) (stores : Stores) : FenceWorld ι :=
  { w with stores, log := w.log ++ [.wrote author lease views] }

def sent (w : FenceWorld ι) (author : ι) (q : FenceRequest) : FenceWorld ι :=
  { w with inFlight := w.inFlight ++ [(author, q)] }

end FenceWorld

namespace FenceAsk

variable {ι : Type}

def note (i : ι) : FenceAsk → List (FenceEvent ι)
  | .write lease _ => [.attempted i lease]
  | .finish lease => [.finishing i lease]
  | .planned lease batches => [.planned i lease batches]
  | _ => []

def Requests : FenceAsk → FenceRequest → Prop
  | .begin owner _, .change (.begun observed lease) => lease.owner = owner ∧
      lease.generation = observed + if observed % 2 = 0 then 1 else 2
  | .renew lease _, .change (.renewed lease' _) => lease' = lease
  | .finish lease, .change (.ended lease') => lease' = lease
  | .forceRelease owner, .change (.forceReleased owner') => owner' = owner
  | .write lease views, .write lease' views' => lease' = lease ∧ views' = views
  | _, _ => False

/-- A call's answer when it fails. Only an unknown begin is reported as one. -/
def Fails : (a : FenceAsk) → FenceAnswer a → Prop
  | .generation, answer | .lock, answer | .renew _ _, answer | .finish _, answer
  | .forceRelease _, answer | .write _ _, answer | .read, answer | .project, answer
  | .row _, answer => ∃ error, answer = .error error
  | .begin _ _, answer => ∃ error, answer = .error error ∧
      ∀ lease observed source, error ≠ .rebuildBeginIndeterminate lease observed source
  | .elapsed, _ | .planned _ _, _ => False

end FenceAsk

inductive FenceActs {ι : Type} [DecidableEq ι] (i : ι) (w : FenceWorld ι) :
    (a : FenceAsk) → FenceAnswer a → FenceWorld ι → Prop
  | generation : FenceActs i w .generation (.ok w.fence.generation) (w.marked i)
  | lock : FenceActs i w .lock (.ok w.fence.lock) (w.marked i)
  | row (key : ViewKey) : FenceActs i w (.row key) (.ok w.stores.views[key]?) w
  | elapsed (passed : Bool) : FenceActs i w .elapsed passed w
  | read : FenceActs i w .read (.ok ()) w
  | project (views : List ProjectedView) : FenceActs i w .project (.ok views) w
  | planned (lease : RebuildLease) (batches : List (List ProjectedView)) :
      FenceActs i w (.planned lease batches) () (w.noted [.planned i lease batches])
  | begin {now : Int} {owner : String} {length : Duration} {lease : RebuildLease}
      {fence : RebuildState} (h : w.fence.beginRebuild now owner length = .ok (lease, fence)) :
      FenceActs i w (.begin owner length) (.ok lease)
        (w.changed (some i) (.begun w.value lease) fence)
  | beginLost {now : Int} {owner : String} {length : Duration} {lease : RebuildLease}
      {fence : RebuildState} (source : BoxError)
      (h : w.fence.beginRebuild now owner length = .ok (lease, fence)) :
      FenceActs i w (.begin owner length)
        (.error (.rebuildBeginIndeterminate lease w.value source))
        (w.sent i (.change (.begun w.value lease)))
  | renew {now : Int} {lease lease' : RebuildLease} {extend : Duration} {fence : RebuildState}
      (h : w.fence.renewRebuild now lease extend = .ok (lease', fence)) :
      FenceActs i w (.renew lease extend) (.ok lease')
        (w.changed (some i) (.renewed lease lease'.leaseExpiresAt) fence)
  | renewLost (lease : RebuildLease) (extend : Duration) (leaseExpiresAt : Int) (error : Error) :
      FenceActs i w (.renew lease extend) (.error error)
        (w.sent i (.change (.renewed lease leaseExpiresAt)))
  | finish {lease : RebuildLease} {generation : RebuildGeneration} {fence : RebuildState}
      (h : w.fence.endRebuild lease = .ok (generation, fence)) :
      FenceActs i w (.finish lease) (.ok generation)
        ((w.noted [.finishing i lease]).changed (some i) (.ended lease) fence)
  | finishLost (lease : RebuildLease) (error : Error) :
      FenceActs i w (.finish lease) (.error error)
        ((w.noted [.finishing i lease]).sent i (.change (.ended lease)))
  | forceRelease {owner : String} {generation : RebuildGeneration} {fence : RebuildState}
      (h : w.fence.forceReleaseRebuild owner = .ok (generation, fence)) :
      FenceActs i w (.forceRelease owner) (.ok generation)
        (w.changed (some i) (.forceReleased owner) fence)
  | forceReleaseLost (owner : String) (error : Error) :
      FenceActs i w (.forceRelease owner) (.error error)
        (w.sent i (.change (.forceReleased owner)))
  | write {now : Int} {lease : RebuildLease} {views : List ProjectedView} {stores : Stores}
      (h : w.stores.writeRebuildViews now lease views = .ok stores) :
      FenceActs i w (.write lease views) (.ok ())
        ((w.noted [.attempted i lease]).wrote (some i) lease views stores)
  | writeLost (lease : RebuildLease) (views : List ProjectedView) (error : Error) :
      FenceActs i w (.write lease views) (.error error)
        ((w.noted [.attempted i lease]).sent i (.write lease views))
  | fails {a : FenceAsk} {answer : FenceAnswer a} (h : a.Fails answer) :
      FenceActs i w a answer (w.noted (a.note i))

/-- What moves between the calls: requests in flight, and what leaves the fence alone. -/
inductive FenceMoves {ι : Type} (w : FenceWorld ι) : FenceWorld ι → Prop
  | changeLands {author : ι} {change : FenceChange} {before after : List (ι × FenceRequest)}
      (hf : w.inFlight = before ++ (author, .change change) :: after)
      (h : change.Allowed w.fence) :
      FenceMoves w { w.changed (some author) change (change.apply w.fence) with
        inFlight := before ++ after }
  | writeLands {now : Int} {author : ι} {lease : RebuildLease} {views : List ProjectedView}
      {stores : Stores} {before after : List (ι × FenceRequest)}
      (hf : w.inFlight = before ++ (author, .write lease views) :: after)
      (h : w.stores.writeRebuildViews now lease views = .ok stores) :
      FenceMoves w { w.wrote (some author) lease views stores with inFlight := before ++ after }
  | forceRelease {owner : String} {generation : RebuildGeneration} {fence : RebuildState}
      (h : w.fence.forceReleaseRebuild owner = .ok (generation, fence)) :
      FenceMoves w (w.changed none (.forceReleased owner) fence)
  | others (stores : Stores) (h : stores.rebuild = w.stores.rebuild) :
      FenceMoves w { w with stores }

inductive FenceRequest.Lands (s : RebuildState) : Option FenceRequest → RebuildState → Prop
  | nothing : Lands s none s
  | change {change : FenceChange} (h : change.Allowed s) :
      Lands s (some (.change change)) (change.apply s)
  | write {lease : RebuildLease} {views : List ProjectedView} (h : s.heldBy lease = true) :
      Lands s (some (.write lease views)) s

structure FenceEffect {ι : Type} (notes : List (FenceEvent ι)) (author : Option ι)
    (landed : Option FenceRequest) (w w' : FenceWorld ι) : Prop where
  lands : FenceRequest.Lands w.fence landed w'.fence
  log : w'.log = w.log ++ notes ++ (landed.map (.of author)).toList

variable {lease : RebuildLease} {s' s : RebuildState}

theorem RebuildState.beginRebuild_requests {now : Int} {owner : String} {length : Duration}
    (h : s.beginRebuild now owner length = .ok (lease, s')) :
    (FenceAsk.begin owner length).Requests (.change (.begun s.generation.value lease)) := by
  obtain ⟨howner, ⟨-, hgeneration⟩, -⟩ := beginRebuild_ok h
  refine ⟨howner, hgeneration.trans ?_⟩
  simp only [RebuildGeneration.isSettled_iff]

variable {a : FenceAsk}

section Effects

variable {ι : Type} {i : ι} {w w' : FenceWorld ι}

theorem FenceEffect.quiet {notes : List (FenceEvent ι)} {author : Option ι}
    (hfence : w'.fence = w.fence) (hlog : w'.log = w.log ++ notes) :
    FenceEffect notes author none w w' := by
  refine ⟨?_, by simpa using hlog⟩
  rw [hfence]
  exact .nothing

theorem FenceEffect.change {notes : List (FenceEvent ι)} {author : Option ι}
    {change : FenceChange} (hallowed : change.Allowed w.fence)
    (hfence : w'.fence = change.apply w.fence)
    (hlog : w'.log = w.log ++ notes ++ [.changed author change]) :
    FenceEffect notes author (some (.change change)) w w' := by
  refine ⟨?_, hlog⟩
  rw [hfence]
  exact .change hallowed

theorem FenceEffect.write {notes : List (FenceEvent ι)} {author : Option ι}
    {views : List ProjectedView} {now : Int} {stores : Stores}
    (h : w.stores.writeRebuildViews now lease views = .ok stores) (hstores : w'.stores = stores)
    (hlog : w'.log = w.log ++ notes ++ [.wrote author lease views]) :
    FenceEffect notes author (some (.write lease views)) w w' := by
  obtain ⟨hheld, rfl⟩ := Stores.writeRebuildViews_ok h
  refine ⟨?_, hlog⟩
  have hfence : w'.fence = w.fence := by rw [FenceWorld.fence, hstores]; rfl
  rw [hfence]
  exact .write hheld

variable [DecidableEq ι]

/-- A call notes what it sets out to do, and applies the request it makes or nothing. -/
theorem FenceActs.effect {answer : FenceAnswer a} (h : FenceActs i w a answer w') :
    ∃ landed, FenceEffect (a.note i) (some i) landed w w' ∧
      ∀ q, landed = some q → a.Requests q := by
  cases h with
  | generation | lock | row | elapsed | read | project =>
    exact ⟨none, .quiet rfl (List.append_nil _).symm, fun _ h => nomatch h⟩
  | planned | fails | renewLost | finishLost | forceReleaseLost | writeLost =>
    exact ⟨none, .quiet rfl (by simp [FenceWorld.noted, FenceWorld.sent, FenceAsk.note]),
      fun _ h => nomatch h⟩
  | beginLost =>
    exact ⟨none, .quiet rfl (List.append_nil _).symm, fun _ h => nomatch h⟩
  | begin h =>
    obtain ⟨-, hallowed, rfl⟩ := RebuildState.beginRebuild_ok h
    refine ⟨_, .change hallowed rfl (by simp [FenceWorld.changed, FenceWorld.value,
      FenceAsk.note]), ?_⟩
    rintro _ ⟨⟩
    exact RebuildState.beginRebuild_requests h
  | renew h =>
    obtain ⟨leaseExpiresAt, rfl, hallowed, rfl⟩ := RebuildState.renewRebuild_ok h
    refine ⟨_, .change hallowed rfl (by simp [FenceWorld.changed, FenceAsk.note]), ?_⟩
    rintro _ ⟨⟩
    rfl
  | finish h =>
    obtain ⟨hallowed, rfl⟩ := RebuildState.endRebuild_ok h
    refine ⟨_, .change hallowed rfl (by simp [FenceWorld.changed, FenceWorld.noted,
      FenceAsk.note]), ?_⟩
    rintro _ ⟨⟩
    rfl
  | forceRelease h =>
    obtain ⟨hallowed, rfl⟩ := RebuildState.forceReleaseRebuild_ok h
    refine ⟨_, .change hallowed rfl (by simp [FenceWorld.changed, FenceAsk.note]), ?_⟩
    rintro _ ⟨⟩
    rfl
  | write h =>
    refine ⟨_, .write h rfl (by simp [FenceWorld.wrote, FenceWorld.noted, FenceAsk.note]), ?_⟩
    rintro _ ⟨⟩
    exact ⟨rfl, rfl⟩

theorem FenceActs.inFlight {answer : FenceAnswer a} (h : FenceActs i w a answer w') :
    ∀ f ∈ w'.inFlight, f ∈ w.inFlight ∨ f.1 = i ∧ a.Requests f.2 := by
  cases h with
  | beginLost source h =>
    intro f hf
    rcases List.mem_append.mp hf with hf | hf
    · exact .inl hf
    · obtain rfl := List.mem_singleton.mp hf
      exact .inr ⟨rfl, RebuildState.beginRebuild_requests h⟩
  | renewLost | finishLost | forceReleaseLost | writeLost =>
    intro f hf
    rcases List.mem_append.mp hf with hf | hf
    · exact .inl hf
    · obtain rfl := List.mem_singleton.mp hf
      simp [FenceAsk.Requests]
  | _ => exact fun f hf => .inl hf

theorem FenceActs.inFlight_kept {answer : FenceAnswer a} (h : FenceActs i w a answer w')
    {f : ι × FenceRequest} (hf : f ∈ w.inFlight) : f ∈ w'.inFlight := by
  cases h with
  | beginLost | renewLost | finishLost | forceReleaseLost | writeLost =>
    exact List.mem_append_left _ hf
  | _ => exact hf

theorem FenceActs.marks {answer : FenceAnswer a} (h : FenceActs i w a answer w') {j : ι}
    (hj : j ≠ i) : w'.marks j = w.marks j := by
  cases h with
  | generation | lock => exact Function.update_of_ne hj _ _
  | _ => rfl

omit [DecidableEq ι] in
/-- A move applies a request in flight, an operator's force-release, or nothing. -/
theorem FenceMoves.effect (h : FenceMoves w w') :
    (∃ author landed, FenceEffect [] author landed w w' ∧ ∀ q, landed = some q →
      (∃ j, author = some j ∧ (j, q) ∈ w.inFlight) ∨
      author = none ∧ ∃ owner, q = .change (.forceReleased owner)) ∧
    (∀ f ∈ w'.inFlight, f ∈ w.inFlight) ∧ w'.marks = w.marks := by
  cases h with
  | @changeLands author change before after hf h =>
    refine ⟨⟨some author, _, .change h rfl (by simp [FenceWorld.changed]), ?_⟩, ?_, rfl⟩
    · rintro _ ⟨⟩
      exact .inl ⟨author, rfl, by simp [hf]⟩
    · intro f hmem
      rw [hf]
      simp only [List.mem_append, List.mem_cons] at hmem ⊢
      tauto
  | @writeLands now author lease views stores before after hf h =>
    refine ⟨⟨some author, _, .write h rfl (by simp [FenceWorld.wrote]), ?_⟩, ?_, rfl⟩
    · rintro _ ⟨⟩
      exact .inl ⟨author, rfl, by simp [hf]⟩
    · intro f hmem
      rw [hf]
      simp only [List.mem_append, List.mem_cons] at hmem ⊢
      tauto
  | @forceRelease owner generation fence h =>
    obtain ⟨hallowed, rfl⟩ := RebuildState.forceReleaseRebuild_ok h
    refine ⟨⟨none, _, .change hallowed rfl (by simp [FenceWorld.changed]), ?_⟩,
      fun _ hf => hf, rfl⟩
    rintro _ ⟨⟩
    exact .inr ⟨rfl, owner, rfl⟩
  | others stores h =>
    exact ⟨⟨none, none, .quiet h (List.append_nil _).symm, fun _ h => nomatch h⟩,
      fun _ hf => hf, rfl⟩

omit [DecidableEq ι] in
theorem FenceMoves.inFlight_kept (h : FenceMoves w w') {f : ι × FenceRequest}
    (hf : f ∈ w.inFlight) : f ∈ w'.inFlight ∨ .of (some f.1) f.2 ∈ w'.log := by
  cases h with
  | changeLands hinFlight | writeLands hinFlight =>
    rw [hinFlight] at hf
    simp only [List.mem_append, List.mem_cons] at hf
    rcases hf with hf | rfl | hf
    · exact .inl (List.mem_append_left _ hf)
    · exact .inr (List.mem_append_right _ (List.mem_singleton_self _))
    · exact .inl (List.mem_append_right _ hf)
  | forceRelease | others => exact .inl hf

end Effects

namespace FenceWorld

variable {ι : Type}

/-- Every begin that applied has its own token, and the lock is the last one's lease. -/
structure Sound (w : FenceWorld ι) : Prop where
  fenced : w.fence.Fenced
  tokens : ∀ author observed lease, .changed author (.begun observed lease) ∈ w.log →
    lease.generation ≤ w.value
  observed : ∀ author observed lease, .changed author (.begun observed lease) ∈ w.log →
    observed < lease.generation
  unique : ∀ author observed lease author' observed' lease',
    .changed author (.begun observed lease) ∈ w.log →
    .changed author' (.begun observed' lease') ∈ w.log →
    lease.generation = lease'.generation →
    author = author' ∧ observed = observed' ∧ lease = lease'
  locked : ∀ lock, w.fence.lock = some lock → ∃ before after author observed lease,
    w.log = before ++ .changed author (.begun observed lease) :: after ∧
      (∀ author' change, .changed author' change ∈ after → change.moves = false) ∧
      lease.owner = lock.owner ∧ lease.generation = lock.generation
  inFlight : ∀ i observed lease, (i, .change (.begun observed lease)) ∈ w.inFlight →
    lease.generation = observed + if observed % 2 = 0 then 1 else 2

theorem sound_start {stores : Stores} (h : stores.rebuild = .empty) :
    (start stores : FenceWorld ι).Sound := by
  have hfence : (start stores : FenceWorld ι).fence = .empty := h
  refine ⟨?_, ?_, ?_, ?_, ?_, ?_⟩
  · rw [hfence]
    exact RebuildState.fenced_empty
  · intro _ _ _ hmem
    cases hmem
  · intro _ _ _ hmem
    cases hmem
  · intro _ _ _ _ _ _ hmem
    cases hmem
  · intro lock hlock
    rw [hfence] at hlock
    cases hlock
  · intro _ _ _ hmem
    cases hmem

/-- The log and the generation only grow, and a lock is taken by a begin only. -/
structure Later (w w' : FenceWorld ι) : Prop where
  log : w.log <+: w'.log
  value : w.value ≤ w'.value
  quiet : w'.value = w.value → w.value % 2 = 0 →
    ∀ e ∈ w'.log.drop w.log.length, e.isNote = true
  begins : ∀ author observed lease,
    .changed author (.begun observed lease) ∈ w'.log.drop w.log.length → w.value ≤ observed
  holds : ∀ lease, w'.fence.heldBy lease = true → w.fence.heldBy lease = true ∨
    ∃ author observed lease', .changed author (.begun observed lease') ∈ w'.log.drop w.log.length ∧
      lease'.owner = lease.owner ∧ lease'.generation = lease.generation

theorem Later.refl (w : FenceWorld ι) : Later w w :=
  ⟨List.prefix_rfl, le_rfl, by simp, by simp, fun _ h => .inl h⟩

theorem Later.mem_drop {w w' w'' : FenceWorld ι} (h : Later w w') (h' : Later w' w'')
    {e : FenceEvent ι} : e ∈ w''.log.drop w.log.length ↔
      e ∈ w'.log.drop w.log.length ∨ e ∈ w''.log.drop w'.log.length := by
  obtain ⟨mid, hmid⟩ := h.log
  obtain ⟨last, hlast⟩ := h'.log
  rw [← hlast, ← hmid, List.append_assoc, List.drop_left, List.drop_left, ← List.append_assoc,
    List.drop_left, List.mem_append]

theorem Later.trans {w w' w'' : FenceWorld ι} (h : Later w w') (h' : Later w' w'') :
    Later w w'' := by
  have hle := h.value
  have hle' := h'.value
  refine ⟨h.log.trans h'.log, hle.trans hle', ?_, ?_, ?_⟩
  · intro hvalue heven e he
    rcases (h.mem_drop h').mp he with he | he
    · exact h.quiet (by omega) heven e he
    · exact h'.quiet (by omega) (by omega) e he
  · intro author observed lease he
    rcases (h.mem_drop h').mp he with he | he
    · exact h.begins _ _ _ he
    · exact hle.trans (h'.begins _ _ _ he)
  · intro lease hheld
    rcases h'.holds lease hheld with hheld | ⟨author, observed, lease', hmem, hlease⟩
    · rcases h.holds lease hheld with hheld | ⟨author, observed, lease', hmem, hlease⟩
      · exact .inl hheld
      · exact .inr ⟨author, observed, lease', (h.mem_drop h').mpr (.inl hmem), hlease⟩
    · exact .inr ⟨author, observed, lease', (h.mem_drop h').mpr (.inr hmem), hlease⟩

end FenceWorld

section Steps

variable {ι : Type} {w w' : FenceWorld ι} {notes : List (FenceEvent ι)} {author : Option ι}
  {landed : Option FenceRequest}

theorem FenceEffect.mem_log (h : FenceEffect notes author landed w w') {e : FenceEvent ι} :
    e ∈ w'.log ↔ e ∈ w.log ∨ e ∈ notes ∨ ∃ q, landed = some q ∧ e = .of author q := by
  rw [h.log]
  cases landed <;> simp

theorem FenceEffect.fence_eq (h : FenceEffect notes author none w w') : w'.fence = w.fence := by
  have hlands := h.lands
  generalize w'.fence = fence at hlands
  cases hlands
  rfl

theorem FenceRequest.Lands.value_le (h : FenceRequest.Lands s landed s') :
    s.generation.value ≤ s'.generation.value := by
  cases h with
  | nothing | write => exact le_rfl
  | change h => exact FenceChange.generation_le_apply h

theorem FenceRequest.Lands.lock (h : FenceRequest.Lands s landed s') {lock : RebuildLock}
    (hlock : s'.lock = some lock) :
    (∃ old, s.lock = some old ∧ old.owner = lock.owner ∧ old.generation = lock.generation ∧
      ∀ change, landed = some (.change change) → change.moves = false) ∨
    ∃ observed lease, landed = some (.change (.begun observed lease)) ∧
      lease.owner = lock.owner ∧ lease.generation = lock.generation := by
  cases h with
  | nothing | write => exact .inl ⟨lock, hlock, rfl, rfl, fun _ h => nomatch h⟩
  | @change change hallowed =>
    cases change with
    | begun observed lease =>
      obtain rfl := Option.some.inj hlock
      exact .inr ⟨observed, lease, rfl, rfl, rfl⟩
    | renewed lease leaseExpiresAt =>
      obtain ⟨old, hold, rfl⟩ := Option.map_eq_some_iff.mp hlock
      refine .inl ⟨old, hold, rfl, rfl, ?_⟩
      rintro _ ⟨⟩
      rfl
    | ended lease => cases hlock
    | forceReleased owner => cases hlock

theorem FenceRequest.Lands.fenced (h : FenceRequest.Lands s landed s') (hs : s.Fenced) :
    s'.Fenced := by
  cases h with
  | nothing | write => exact hs
  | change hallowed => exact FenceChange.fenced_apply hs hallowed

theorem FenceRequest.Lands.begun {observed : Int}
    (h : FenceRequest.Lands s (some (.change (.begun observed lease))) s') :
    s.generation.value = observed ∧ observed < lease.generation ∧
      s'.generation.value = lease.generation := by
  cases h with
  | change hallowed => exact ⟨hallowed.1, (FenceChange.begun_generation hallowed).1, rfl⟩

theorem FenceEffect.later (h : FenceEffect notes author landed w w')
    (hw : w.fence.Fenced) (hnotes : ∀ e ∈ notes, e.isNote = true) : w.Later w' := by
  have hdrop : w'.log.drop w.log.length = notes ++ (landed.map (.of author)).toList := by
    rw [h.log, List.append_assoc, List.drop_left]
  refine ⟨⟨_, by rw [h.log, List.append_assoc]⟩, h.lands.value_le, ?_, ?_, ?_⟩
  · intro hvalue heven e he
    rw [hdrop] at he
    rcases List.mem_append.mp he with he | he
    · exact hnotes e he
    · exfalso
      -- the lock is held in an odd generation only, and every other change moves it
      have heven' := RebuildGeneration.isSettled_iff.mpr heven
      have hunheld : ∀ lease, w.fence.heldBy lease ≠ true := by
        intro lease hheld
        simp [(hw.generation_of_heldBy hheld).2] at heven'
      have hlands := h.lands
      unfold FenceWorld.value at hvalue
      generalize w'.fence = fence at hlands hvalue
      cases hlands with
      | nothing => cases he
      | write hheld => exact hunheld _ hheld
      | @change change hallowed =>
        cases hmoves : change.moves with
        | true =>
          have := FenceChange.generation_lt_apply hallowed hmoves
          omega
        | false =>
          cases change with
          | renewed lease leaseExpiresAt => exact hunheld _ hallowed
          | _ => cases hmoves
  · intro author' observed lease he
    rw [hdrop] at he
    rcases List.mem_append.mp he with he | he
    · cases hnotes _ he
    · obtain ⟨q, rfl, heq⟩ := Option.map_eq_some_iff.mp (Option.mem_toList.mp he)
      cases q with
      | change change =>
        cases heq
        exact h.lands.begun.1.le
      | write lease views => cases heq
  · intro lease hheld
    obtain ⟨lock, hlock, howner, hgeneration⟩ := RebuildState.heldBy_iff.mp hheld
    rcases h.lands.lock hlock with ⟨old, hold, ho, hg, -⟩ | ⟨observed, lease', rfl, ho, hg⟩
    · exact .inl (RebuildState.heldBy_iff.mpr ⟨old, hold, ho.trans howner, hg.trans hgeneration⟩)
    · refine .inr ⟨author, observed, lease', ?_, ho.trans howner, hg.trans hgeneration⟩
      rw [hdrop]
      simp [FenceEvent.of]

theorem FenceEffect.begun (h : FenceEffect notes author landed w w')
    (hnotes : ∀ e ∈ notes, e.isNote = true) {author' : Option ι} {observed : Int}
    (hmem : .changed author' (.begun observed lease) ∈ w'.log) :
    .changed author' (.begun observed lease) ∈ w.log ∨
      author' = author ∧ landed = some (.change (.begun observed lease)) := by
  rcases h.mem_log.mp hmem with hmem | hmem | ⟨q, hq, heq⟩
  · exact .inl hmem
  · cases hnotes _ hmem
  · cases q with
    | change change =>
      cases heq
      exact .inr ⟨rfl, hq⟩
    | write lease views => cases heq

theorem FenceEffect.sound (h : FenceEffect notes author landed w w') (hw : w.Sound)
    (hnotes : ∀ e ∈ notes, e.isNote = true)
    (hinFlight : ∀ i observed lease, (i, .change (.begun observed lease)) ∈ w'.inFlight →
      lease.generation = observed + if observed % 2 = 0 then 1 else 2) : w'.Sound := by
  have hold : ∀ author' observed lease, .changed author' (.begun observed lease) ∈ w.log →
      lease.generation ≤ w.value := hw.tokens
  have hvalue : w.value ≤ w'.value := h.lands.value_le
  refine ⟨h.lands.fenced hw.fenced, ?_, ?_, ?_, ?_, hinFlight⟩
  · intro author' observed lease hmem
    rcases h.begun hnotes hmem with hmem | ⟨-, rfl⟩
    · exact (hold _ _ _ hmem).trans hvalue
    · exact h.lands.begun.2.2.ge
  · intro author' observed lease hmem
    rcases h.begun hnotes hmem with hmem | ⟨-, rfl⟩
    · exact hw.observed _ _ _ hmem
    · exact h.lands.begun.2.1
  · intro a observed lease a' observed' lease' hmem hmem' heq
    have hfresh : ∀ o l, landed = some (.change (.begun o l)) → w.value < l.generation := by
      rintro o l rfl
      obtain ⟨rfl, hlt, -⟩ := h.lands.begun
      exact hlt
    rcases h.begun hnotes hmem with hmem | ⟨rfl, hlanded⟩ <;>
      rcases h.begun hnotes hmem' with hmem' | ⟨rfl, hlanded'⟩
    · exact hw.unique _ _ _ _ _ _ hmem hmem' heq
    · have := hold _ _ _ hmem
      have := hfresh _ _ hlanded'
      omega
    · have := hold _ _ _ hmem'
      have := hfresh _ _ hlanded
      omega
    · cases hlanded.symm.trans hlanded'
      exact ⟨rfl, rfl, rfl⟩
  · intro lock hlock
    rcases h.lands.lock hlock with ⟨old, hlock', howner, hgeneration, hstill⟩ |
      ⟨observed, lease, rfl, howner, hgeneration⟩
    · obtain ⟨before, after, a, observed, lease, hlog, hafter, ho, hg⟩ := hw.locked old hlock'
      refine ⟨before, after ++ notes ++ (landed.map (.of author)).toList, a, observed, lease,
        by simp [h.log, hlog], ?_, ho.trans howner, hg.trans hgeneration⟩
      intro a' change hmem
      simp only [List.mem_append, Option.mem_toList, Option.map_eq_some_iff] at hmem
      rcases hmem with (hmem | hmem) | ⟨q, hq, heq⟩
      · exact hafter a' change hmem
      · cases hnotes _ hmem
      · cases q with
        | change change' =>
          cases heq
          exact hstill _ hq
        | write lease views => cases heq
    · exact ⟨w.log ++ notes, [], author, observed, lease, by simp [h.log, FenceEvent.of], by simp,
        howner, hgeneration⟩

theorem FenceAsk.isNote_of_mem_note {i : ι} {e : FenceEvent ι} (h : e ∈ a.note i) :
    e.isNote = true := by
  cases a <;> simp_all [FenceAsk.note, FenceEvent.isNote]

theorem FenceActs.sound [DecidableEq ι] {i : ι} {answer : FenceAnswer a}
    (h : FenceActs i w a answer w') (hw : w.Sound) : w'.Sound ∧ w.Later w' := by
  obtain ⟨landed, heffect, -⟩ := h.effect
  refine ⟨heffect.sound hw (fun _ => FenceAsk.isNote_of_mem_note) ?_,
    heffect.later hw.fenced fun _ => FenceAsk.isNote_of_mem_note⟩
  intro j observed lease hf
  rcases h.inFlight _ hf with hf | ⟨-, hrequests⟩
  · exact hw.inFlight j observed lease hf
  · cases a with
    | begin owner length => exact hrequests.2
    | _ => cases hrequests

theorem FenceMoves.sound (h : FenceMoves w w') (hw : w.Sound) : w'.Sound ∧ w.Later w' := by
  obtain ⟨⟨author, landed, heffect, -⟩, hinFlight, -⟩ := h.effect
  exact ⟨heffect.sound hw (fun _ h => nomatch h) fun j observed lease hf =>
    hw.inFlight j observed lease (hinFlight _ hf), heffect.later hw.fenced fun _ h => nomatch h⟩

end Steps

/-- The answer of a repository that does not fail, at a reading of the clock. -/
def FenceWorld.answer {ι : Type} [DecidableEq ι] (now : Int) (planned : List ProjectedView) (i : ι)
    (w : FenceWorld ι) : (a : FenceAsk) → FenceAnswer a × FenceWorld ι
  | .generation => (.ok w.fence.generation, w.marked i)
  | .lock => (.ok w.fence.lock, w.marked i)
  | .begin owner length =>
    match w.fence.beginRebuild now owner length with
    | .ok (lease, fence) => (.ok lease, w.changed (some i) (.begun w.value lease) fence)
    | .error error => (.error error, w.noted [])
  | .renew lease extend =>
    match w.fence.renewRebuild now lease extend with
    | .ok (lease', fence) =>
      (.ok lease', w.changed (some i) (.renewed lease lease'.leaseExpiresAt) fence)
    | .error error => (.error error, w.noted [])
  | .finish lease =>
    match w.fence.endRebuild lease with
    | .ok (generation, fence) => (.ok generation,
        (w.noted [.finishing i lease]).changed (some i) (.ended lease) fence)
    | .error error => (.error error, w.noted [.finishing i lease])
  | .forceRelease owner =>
    match w.fence.forceReleaseRebuild owner with
    | .ok (generation, fence) =>
      (.ok generation, w.changed (some i) (.forceReleased owner) fence)
    | .error error => (.error error, w.noted [])
  | .write lease views =>
    match w.stores.writeRebuildViews now lease views with
    | .ok stores =>
      (.ok (), (w.noted [.attempted i lease]).wrote (some i) lease views stores)
    | .error error => (.error error, w.noted [.attempted i lease])
  | .elapsed => (false, w)
  | .read => (.ok (), w)
  | .project => (.ok planned, w)
  | .planned lease batches => ((), w.noted [.planned i lease batches])
  | .row key => (.ok w.stores.views[key]?, w)

def Error.isBeginIndeterminate : Error → Bool
  | .rebuildBeginIndeterminate _ _ _ => true
  | _ => false

theorem RebuildState.beginRebuild_notIndeterminate (s : RebuildState) (now : Int)
    (owner : String) (length : Duration) :
    Avoids Error.isBeginIndeterminate (s.beginRebuild now owner length) := by
  have hdecide : Avoids Error.isBeginIndeterminate (Plan.decide s now) := by
    unfold Plan.decide
    split <;> split <;> try split
    all_goals simp [Error.isBeginIndeterminate]
  simp [beginRebuild, checkLease, checkRebuildOwner, leaseSeconds, hdecide,
    Error.isBeginIndeterminate]

theorem FenceWorld.acts_answer {ι : Type} [DecidableEq ι] (now : Int)
    (planned : List ProjectedView) (i : ι) (w : FenceWorld ι) (a : FenceAsk) :
    FenceActs i w a (w.answer now planned i a).1 (w.answer now planned i a).2 := by
  cases a with
  | generation => exact .generation
  | lock => exact .lock
  | begin owner length =>
    simp only [answer]
    split
    · rename_i h
      exact .begin h
    · rename_i error h
      refine .fails ⟨error, rfl, ?_⟩
      rintro lease observed source rfl
      cases w.fence.beginRebuild_notIndeterminate now owner length _ h
  | renew lease extend =>
    simp only [answer]
    split
    · rename_i h
      exact .renew h
    · exact .fails ⟨_, rfl⟩
  | finish lease =>
    simp only [answer]
    split
    · rename_i h
      exact .finish h
    · exact .fails ⟨_, rfl⟩
  | forceRelease owner =>
    simp only [answer]
    split
    · rename_i h
      exact .forceRelease h
    · exact .fails ⟨_, rfl⟩
  | write lease views =>
    simp only [answer]
    split
    · rename_i h
      exact .write h
    · exact .fails ⟨_, rfl⟩
  | elapsed => exact .elapsed false
  | read => exact .read
  | project => exact .project planned
  | planned lease batches => exact .planned lease batches
  | row key => exact .row key

end EventStore
