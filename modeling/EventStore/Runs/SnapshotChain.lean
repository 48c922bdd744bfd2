import EventStore.Runs.Requests
import EventStore.Runs.Schedule

/-!
The chain of a stream's snapshots. A commit stores only the next one of the chain, but a
standalone write checks only that it covers no fewer events, and a load that began from an older
snapshot numbers its write after that one.
-/
namespace EventStore

open Result Program

structure SerializedSnapshot.Precedes (s t : SerializedSnapshot) : Prop where
  sequence : s.sequence ≤ t.sequence
  covers : s.eventSequence ≤ t.eventSequence
  larger : s.eventSequence < t.eventSequence → s.sequence < t.sequence

theorem SerializedSnapshot.Precedes.refl (s : SerializedSnapshot) : s.Precedes s :=
  ⟨le_rfl, le_rfl, fun h => absurd h (lt_irrefl _)⟩

theorem SerializedSnapshot.Precedes.trans {s t u : SerializedSnapshot} (h : s.Precedes t)
    (h' : t.Precedes u) : s.Precedes u := by
  refine ⟨h.sequence.trans h'.sequence, h.covers.trans h'.covers, fun hlt => ?_⟩
  rcases h.covers.lt_or_eq with hst | hst
  · exact (h.larger hst).trans_le h'.sequence
  · exact h.sequence.trans_lt (h'.larger (hst ▸ hlt))

/-- What one step may do to the stored snapshot: the chain goes on, and it starts at 1. -/
structure Chain (old new : Option SerializedSnapshot) : Prop where
  kept : ∀ s, old = some s → ∃ t, new = some t ∧ s.Precedes t
  first : old = none → ∀ t, new = some t → t.sequence = 1

theorem Chain.refl (stored : Option SerializedSnapshot) : Chain stored stored := by
  refine ⟨fun s hs => ⟨s, hs, .refl s⟩, ?_⟩
  rintro rfl t ⟨⟩

theorem Stream.next_of_passes {stream : Stream} {c : Commit Empty}
    (hpass : streamFailure stream c = none) (hevents : c.events ≠ []) {new : NewSnapshot}
    (hnew : c.snapshot = some new) : new.sequence = EventSequence.next stream.snapshotSequence := by
  unfold streamFailure at hpass
  split at hpass
  · contradiction
  · split at hpass
    · cases hpass
    · split at hpass
      · cases hpass
      · simp only [hnew] at hpass
        split at hpass
        · cases hpass
        · rename_i hnext
          exact (not_not.mp hnext).symm

theorem Stream.Holds.chain_applyStream {stream : Stream} {log : List SerializedEvent}
    (h : stream.Holds log) {c : Commit Empty} (hv : c.Valid) (hevents : c.events ≠ [])
    (hpass : streamFailure stream c = none)
    (hroom : c.snapshot.isSome = true → ∀ s ∈ stream.snapshot, s.sequence < maxSequence) :
    Chain stream.snapshot (EventStore.applyStream stream c).snapshot := by
  obtain ⟨_, last, -, hlast, -, -, hlt⟩ := h.ends_of_passes hv hevents hpass
  simp only [EventStore.applyStream, hlast]
  cases hnew : c.snapshot with
  | none => exact .refl _
  | some new =>
    have hnext := next_of_passes hpass hevents hnew
    refine ⟨fun s hs => ⟨_, rfl, ?_⟩, ?_⟩
    · have hcovered := h.covered s hs
      have hsequence : new.sequence = s.sequence + 1 := by
        rw [hnext, snapshotSequence, hs]
        exact EventSequence.next_of_lt (hroom (by simp [hnew]) s hs)
      exact ⟨by simp only; omega, by simp only; omega, fun _ => by simp only; omega⟩
    · rintro hs _ ⟨⟩
      rw [hnext, snapshotSequence, hs]
      rfl

theorem MemRepository.putSnapshot_stored {E : Env} {r : MemRepository} {new : SerializedSnapshot}
    (h : (r.putSnapshot E new).1 = .ok true) :
    ((r.putSnapshot E new).2.stores.held new.entityId).snapshot = some new := by
  unfold MemRepository.putSnapshot at h ⊢
  cases hreserved : checkNotReserved new.entityId with
  | error error => simp [hreserved] at h
  | ok u =>
    rcases hmanifest : r.checkManifest E with ⟨_ | _, r'⟩
    · simp [hreserved, hmanifest] at h
    · cases hcheck : MemRepository.checkPutSnapshot r'.stores new with
      | error error => simp [hreserved, hmanifest, hcheck] at h
      | ok stored =>
        cases stored with
        | false => simp [hreserved, hmanifest, hcheck] at h
        | true => simp [hcheck, History.held_setStream]

/-- The number a write gets after the load's, and the events it covers. -/
structure Loaded.Next {A : Aggregate} (loaded : Loaded A) (new : SerializedSnapshot) : Prop where
  entityId : new.entityId = loaded.entityId
  sequence : new.sequence = EventSequence.next loaded.snapshotSequence
  eventSequence : new.eventSequence = loaded.sequence

namespace World

variable {ι : Type}

/-- A write that replaces the stored snapshot has a larger sequence, or repeats both; the first one
is numbered 1. -/
structure Continues (w : World ι) (new : SerializedSnapshot) : Prop where
  replaces : ∀ stored ∈ (w.stores.held new.entityId).snapshot,
    stored.eventSequence ≤ new.eventSequence →
      stored.sequence < new.sequence ∨
        stored.sequence = new.sequence ∧ stored.eventSequence = new.eventSequence
  first : (w.stores.held new.entityId).snapshot = none → new.sequence = 1

/-- No stream that a request writes a snapshot of is at the largest snapshot sequence. -/
def HasRoom (w : World ι) (q : Request) : Prop :=
  ∀ c ∈ q.write.streams, c.snapshot.isSome = true →
    ∀ stored ∈ (w.stores.held c.entityId).snapshot, stored.sequence < maxSequence

/-- Commits in flight land, others commit, and streams are compacted. -/
def MovesInOrder (E : Env) (w w' : World ι) : Prop :=
  (Lands E w w' ∧ ∀ f ∈ w.inFlight, w.HasRoom f.request) ∨ Others E ⟨HasRoom, fun _ _ => False⟩ w w'

def Chains (w w' : World ι) : Prop :=
  ∀ entityId, Chain (w.stores.held entityId).snapshot (w'.stores.held entityId).snapshot

/-- A stream that has a snapshot keeps having one. -/
def Persists (w w' : World ι) : Prop :=
  ∀ entityId, (w.stores.held entityId).snapshot.isSome = true →
    (w'.stores.held entityId).snapshot.isSome = true

theorem Chains.persists {w w' : World ι} (h : Chains w w') : Persists w w' := by
  intro entityId hs
  obtain ⟨s, hs⟩ := Option.isSome_iff_exists.mp hs
  obtain ⟨t, ht, -⟩ := (h entityId).kept s hs
  exact Option.isSome_iff_exists.mpr ⟨t, ht⟩

section Effects

variable {E : Env} {commits : Option ι → Nat → Request → Prop}
  {puts : SerializedSnapshot → Prop} {w w' : World ι}

theorem Effect.chains (h : Effect E commits puts w w') (hw : w.history.Sound)
    (hcommits : ∀ author started q, commits author started q → w.HasRoom q)
    (hputs : ∀ new, puts new → w.Continues new) : Chains w w' ∧ w'.history.Sound := by
  refine ⟨fun entityId => ?_, h.sound hw⟩
  cases h with
  | quiet data _ =>
    rw [data.held]
    exact .refl _
  | @commit entry source accepted data _ =>
    obtain ⟨source, plan⟩ := source
    have hsound := Request.plan_sound plan
    have hroom := hcommits _ _ _ source
    rw [HasRoom, ← Request.write_of_plan plan] at hroom
    rw [data.held, Write.held_apply hsound]
    cases hc : writerOf _ entityId with
    | none => exact .refl _
    | some c =>
      obtain ⟨hmem, hevents, rfl⟩ := writerOf_eq_some hc
      exact (hw c.entityId).chain_applyStream (hsound.valid c hmem) hevents
        (accepted.streams c hmem) (hroom c hmem)
  | @snapshot new source _ newer data _ =>
    obtain ⟨hreplaces, hfirst⟩ := hputs new source
    rw [data.held, History.held_setStream]
    split
    · rename_i hid
      subst hid
      refine ⟨fun s hs => ⟨new, rfl, ?_⟩, ?_⟩
      · have hcovers := newer s hs
        rcases hreplaces s hs hcovers with hlt | ⟨hsequence, hevents⟩
        · exact ⟨hlt.le, hcovers, fun _ => hlt⟩
        · exact ⟨hsequence.le, hcovers, fun hlt => absurd hlt (by omega)⟩
      · rintro hs _ ⟨⟩
        exact hfirst hs
    · exact .refl _
  | compact _ _ _ data _ =>
    rw [data.held, History.held_setStream]
    split
    · rename_i hid
      subst hid
      exact .refl _
    · exact .refl _

theorem MovesInOrder.chains (h : MovesInOrder E w w') (hw : w.history.Sound) :
    Chains w w' ∧ w'.history.Sound := by
  rcases h with ⟨h, hroom⟩ | h
  · have heffect : Effect E _ (fun _ => False) w w' := h.effect
    refine heffect.chains hw ?_ fun _ hput => hput.elim
    rintro author started q ⟨f, hf, -, -, rfl⟩
    exact hroom f hf
  · refine h.effect.chains hw ?_ fun _ hput => hput.elim
    rintro author started q ⟨-, hroom⟩
    exact hroom

theorem Acts.found [DecidableEq ι] {i : ι} {entityId : EntityId}
    {found : Option SerializedSnapshot} (h : Acts E i w (.snapshot entityId) (.ok found) w') :
    found = (w.stores.held entityId).snapshot := by
  cases h
  rfl

theorem Acts.stored [DecidableEq ι] {i : ι} {new : SerializedSnapshot}
    (h : Acts E i w (.putSnapshot new) (.ok true) w') :
    (w'.stores.held new.entityId).snapshot = some new := by
  generalize hanswer : (.ok true : Answer (.putSnapshot new)) = answer at h
  cases h with
  | putSnapshot handle => exact MemRepository.putSnapshot_stored hanswer.symm
  | putSnapshotFails | putSnapshotLost => cases hanswer

end Effects

end World

/-- `known`: the snapshot that each program's last load began from, and those it wrote since. -/
structure Tracked (ι : Type) where
  world : World ι
  known : ι → List SerializedSnapshot

namespace Tracked

open World

variable {ι : Type}

def start (stores : Stores) : Tracked ι := ⟨.start stores, fun _ => []⟩

def learned : (a : Ask) → Answer a → List SerializedSnapshot → List SerializedSnapshot
  | .snapshot _, .ok found, _ => found.toList
  | .putSnapshot new, _, known => new :: known
  | _, _, known => known

/-- A standalone write that covers the stored snapshot's events finds the one its load began from,
or its own, still stored, and not at the largest sequence. -/
def KeepsChain (i : ι) (t : Tracked ι) : Ask → Prop
  | .putSnapshot new => ∀ stored ∈ (t.world.stores.held new.entityId).snapshot,
      stored.eventSequence ≤ new.eventSequence →
        stored ∈ t.known i ∧ stored.sequence < maxSequence
  | .submit q => t.world.HasRoom q
  | _ => True

structure Acts [DecidableEq ι] (E : Env) (i : ι) (t : Tracked ι) (a : Ask) (answer : Answer a)
    (u : Tracked ι) : Prop where
  keepsChain : t.KeepsChain i a
  world : World.Acts E i t.world a answer u.world
  known : u.known = Function.update t.known i (learned a answer (t.known i))

structure Moves (E : Env) (t u : Tracked ι) : Prop where
  world : MovesInOrder E t.world u.world
  known : u.known = t.known

/-- What the others leave to a program. -/
structure Leaves (i : ι) (t u : Tracked ι) : Prop where
  persists : Persists t.world u.world
  known : u.known i = t.known i

structure Keeps (i : ι) (t u : Tracked ι) : Prop where
  chains : Chains t.world u.world
  sound : u.world.history.Sound
  known : ∀ j, j ≠ i → u.known j = t.known j

abbrev Extends [DecidableEq ι] (E : Env) (i : ι) {α : Type} (post : α → Tracked ι → Prop)
    (p : Program α) (t : Tracked ι) : Prop :=
  Script.Safe (Acts E i) (Leaves i) (fun t => t.world.history.Sound) (Keeps i) post p t

/-- A stored snapshot that the next write of the load goes on from, if it has a next one. -/
def Behind {A : Aggregate} (loaded : Loaded A) (s : SerializedSnapshot) : Prop :=
  maxSequence ≤ s.sequence ∨ s.sequence < EventSequence.next loaded.snapshotSequence ∨
    s.sequence = EventSequence.next loaded.snapshotSequence ∧ s.eventSequence = loaded.sequence

/-- The snapshot a loaded aggregate began from, if any, is followed by one that is stored, and the
known ones are behind it. -/
structure Based {A : Aggregate} (i : ι) (t : Tracked ι) (loaded : Loaded A) : Prop where
  stored : loaded.snapshotSequence = 0 ∨
    (t.world.stores.held loaded.entityId).snapshot.isSome = true
  behind : ∀ s ∈ t.known i, Behind loaded s

/-- What reading a stream's snapshot told. -/
structure Found (i : ι) (entityId : EntityId) (found : Option SerializedSnapshot) (t : Tracked ι) :
    Prop where
  stored : found.isSome = true → (t.world.stores.held entityId).snapshot.isSome = true
  known : t.known i = found.toList

theorem Leaves.refl (i : ι) (t : Tracked ι) : Leaves i t t := ⟨fun _ h => h, rfl⟩

theorem Leaves.trans {i : ι} {t u v : Tracked ι} (h : Leaves i t u) (h' : Leaves i u v) :
    Leaves i t v :=
  ⟨fun id hs => h'.persists id (h.persists id hs), h'.known.trans h.known⟩

theorem Found.mono {i : ι} {entityId : EntityId} {found : Option SerializedSnapshot}
    {t u : Tracked ι} (h : Found i entityId found t) (hu : Leaves i t u) :
    Found i entityId found u :=
  ⟨fun hs => hu.persists _ (h.stored hs), hu.known.trans h.known⟩

section Loads

variable {A : Aggregate} {i : ι} {t u : Tracked ι} {loaded loaded' : Loaded A}
  {new : SerializedSnapshot}

theorem Based.mono (h : Based i t loaded) (hu : Leaves i t u) : Based i u loaded :=
  ⟨h.stored.imp_right (hu.persists _), fun s hs => h.behind s (hu.known ▸ hs)⟩

theorem Based.continues (h : Based i t loaded) (hnew : loaded.Next new)
    (hkeeps : t.KeepsChain i (.putSnapshot new)) : t.world.Continues new := by
  refine ⟨fun stored hstored hcovers => ?_, fun hnone => ?_⟩
  · obtain ⟨hknown, hroom⟩ := hkeeps stored hstored hcovers
    rw [hnew.sequence, hnew.eventSequence]
    exact (h.behind stored hknown).resolve_left hroom.not_ge
  · rcases h.stored with hzero | hsome
    · rw [hnew.sequence, hzero]
      rfl
    · rw [← hnew.entityId, hnone] at hsome
      cases hsome

/-- What was behind the load is behind it with the number of its own write. -/
theorem Behind.advance {s : SerializedSnapshot} (h : Behind loaded s) :
    Behind { loaded with snapshotSequence := EventSequence.next loaded.snapshotSequence } s := by
  unfold Behind EventSequence.next at *
  simp only
  omega

theorem based_of_load {entityId : EntityId} {found : Option SerializedSnapshot}
    {events : List SerializedEvent} (hfound : Found i entityId found t)
    (hstart : Loaded.start entityId found = .ok loaded)
    (hreplay : loaded.replayAll events = .ok loaded') : Based i t loaded' := by
  obtain ⟨hid, hsequence⟩ := Loaded.replayAll_kept hreplay
  cases found with
  | none =>
    cases hstart
    refine ⟨.inl hsequence, ?_⟩
    rw [hfound.known]
    exact fun s hs => absurd hs List.not_mem_nil
  | some snapshot =>
    simp only [Loaded.start] at hstart
    split at hstart <;> cases hstart
    refine ⟨.inr (hid ▸ hfound.stored rfl), ?_⟩
    rw [hfound.known]
    intro s hs
    obtain rfl := List.mem_singleton.mp hs
    unfold Behind EventSequence.next
    rw [hsequence]
    simp only
    omega

end Loads

variable [DecidableEq ι] {E : Env} {i : ι} {t : Tracked ι}

theorem Acts.keeps {a : Ask} {answer : Answer a} {u : Tracked ι} (h : Acts E i t a answer u)
    (ht : t.world.history.Sound) (hput : ∀ new, a = .putSnapshot new → t.world.Continues new) :
    Keeps i t u := by
  have hchains : Chains t.world u.world ∧ u.world.history.Sound := by
    refine h.world.effect.chains ht ?_ hput
    rintro author started q ⟨-, -, rfl⟩
    exact h.keepsChain
  refine ⟨hchains.1, hchains.2, fun j hj => ?_⟩
  rw [h.known, Function.update_of_ne hj]

theorem extends_ask {a : Ask} {post : Answer a → Tracked ι → Prop}
    (ha : ∀ new, a ≠ .putSnapshot new)
    (h : ∀ u answer v, Acts E i u a answer v → Leaves i t u → Persists u.world v.world →
      post answer v) :
    Extends E i post (ask a) t := by
  refine Script.Safe.ask fun u hu hsound answer v hact => ?_
  have hkeeps := hact.keeps hsound fun new heq => absurd heq (ha new)
  exact ⟨hkeeps, h u answer v hact hu hkeeps.chains.persists⟩

theorem extends_quiet {α : Type} {p : Program α} (hp : p.Quiet) :
    Extends E i (fun _ _ => True) p t := by
  refine Script.Safe.of_asks hp trivial (fun _ _ _ _ => trivial) ?_
  intro u a answer v ha hsound _ hact
  refine ⟨hact.keeps hsound ?_, trivial⟩
  rintro new rfl
  cases ha

section Load

variable {A : Aggregate}

theorem loadOnce_extends (entityId : EntityId) :
    Extends E i (fun r u => ∀ loaded, r.map Prod.fst = .ok loaded → Based i u loaded)
      (loadOnce A entityId) t := by
  refine .andThen (fun r u => ∀ found, r = .ok found → Found i entityId found u) ?_
    (fun _ _ _ => by rintro _ ⟨⟩) ?_
  · refine extends_ask (by simp) fun u answer v hact _ hpersists => ?_
    rintro found rfl
    refine ⟨fun hs => ?_, by rw [hact.known, Function.update_self]; rfl⟩
    exact hpersists entityId (hact.world.found ▸ hs)
  · intro found u hfound
    refine .check (fun _ _ => by rintro _ ⟨⟩) fun loaded hloaded => ?_
    refine .andThen (fun _ v => Found i entityId found v) ?_ (fun _ _ _ => by rintro _ ⟨⟩) ?_
    · refine extends_ask (by simp) fun v answer x hact hv hpersists => ?_
      refine (hfound found rfl).mono (hv.trans ⟨hpersists, ?_⟩)
      rw [hact.known, Function.update_self]
      rfl
    · intro events v hv
      refine .check (fun _ _ => by rintro _ ⟨⟩) fun loaded' hloaded' => ?_
      rintro _ ⟨⟩
      exact based_of_load hv hloaded hloaded'

/-- The write is known from then on, and behind the load like the ones before. -/
theorem putSnapshot_extends {loaded : Loaded A} (h : Based i t loaded) {new : SerializedSnapshot}
    (hnew : loaded.Next new) :
    Extends E i (fun stored u => Based i u loaded ∧
      (stored = .ok true → (u.world.stores.held new.entityId).snapshot = some new))
      (ask (.putSnapshot new)) t := by
  refine Script.Safe.ask fun u hu hsound answer v hact => ?_
  have hbased := h.mono hu
  have hkeeps := hact.keeps hsound fun _ heq =>
    Ask.putSnapshot.inj heq ▸ hbased.continues hnew hact.keepsChain
  refine ⟨hkeeps, ⟨hbased.stored.imp_right (hkeeps.chains.persists _), fun s hs => ?_⟩, ?_⟩
  · rw [hact.known, Function.update_self] at hs
    rcases List.mem_cons.mp hs with rfl | hs
    · exact .inr (.inr ⟨hnew.sequence, hnew.eventSequence⟩)
    · exact hbased.behind s hs
  · rintro rfl
    exact hact.world.stored

theorem loadWithCatchUp_extends (entityId : EntityId) (threshold : Nat) :
    Extends E i (fun r u => ∀ loaded, r = .ok loaded → Based i u loaded)
      (loadWithCatchUp A entityId threshold) t := by
  refine safe_load (extends_ask (by simp) fun _ _ _ _ _ _ => trivial)
    (fun u _ => loadOnce_extends entityId) (fun _ _ _ => trivial) ?_ threshold
  intro loaded payload u hu _
  refine (putSnapshot_extends (hu _ rfl) ⟨rfl, rfl, rfl⟩).mono fun stored v hv => ⟨?_, ?_⟩
  · rintro _ ⟨⟩
    exact hv.1
  · rintro hstored _ ⟨⟩
    exact ⟨.inr (by simp [hv.2 hstored]), fun s hs => (hv.1.behind s hs).advance⟩

end Load

variable (E i) in
theorem composed_extends :
    Composed fun α p => ∀ t : Tracked ι, Extends E i (fun _ _ => True) (p : Program α) t where
  bind h hf t := (h t).bind fun a u _ => hf a u
  quiet h _ := extends_quiet h
  load A entityId threshold t :=
    (loadWithCatchUp_extends entityId threshold).mono fun _ _ _ => trivial
  submit _ t := extends_ask (by simp) fun _ _ _ _ _ _ => trivial

end Tracked

section Writers

variable {κ : Type} (A : κ → Aggregate) (kindOf : EntityId → κ)

/-- A program that may store snapshots: an operation of the store, or standalone writes
built from one load. -/
inductive SnapshotWriter where
  | operation (x : Operation A kindOf)
  | standalone (entityId : EntityId) (threshold : Nat)
      (payloads : List ((A (kindOf entityId)).State → Bytes))

variable {A kindOf}

def Loaded.nextSnapshot {A : Aggregate} (loaded : Loaded A) (payload : A.State → Bytes) :
    SerializedSnapshot :=
  ⟨A.entityType, loaded.entityId, EventSequence.next loaded.snapshotSequence, loaded.sequence,
    payload loaded.aggregate⟩

def Loaded.writeSnapshots {A : Aggregate} (loaded : Loaded A) :
    List (A.State → Bytes) → Program Unit
  | [] => .done ()
  | payload :: payloads =>
    (ask (.putSnapshot (loaded.nextSnapshot payload))).bind fun _ =>
      loaded.writeSnapshots payloads

def SnapshotWriter.program [DecidableEq κ] (E : Env) : SnapshotWriter A kindOf → Program Unit
  | .operation x => (x.program E).bind fun _ => .done ()
  | .standalone entityId threshold payloads =>
    (loadWithCatchUp (A (kindOf entityId)) entityId threshold).bind fun
      | .error _ => .done ()
      | .ok loaded => loaded.writeSnapshots payloads

end Writers

namespace Tracked

variable {ι : Type} [DecidableEq ι] {E : Env} {i : ι} {t : Tracked ι}

theorem writeSnapshots_extends {A : Aggregate} {loaded : Loaded A} (h : Based i t loaded)
    (payloads : List (A.State → Bytes)) :
    Extends E i (fun _ _ => True) (loaded.writeSnapshots payloads) t := by
  induction payloads generalizing t with
  | nil => trivial
  | cons payload payloads ih =>
    exact (putSnapshot_extends h ⟨rfl, rfl, rfl⟩).bind fun _ u hu => ih hu.1

variable {κ : Type} [DecidableEq κ] {A : κ → Aggregate} {kindOf : EntityId → κ}

theorem writer_extends (x : SnapshotWriter A kindOf) :
    Extends E i (fun _ _ => True) (x.program E) t := by
  cases x with
  | operation x =>
    refine ((composed_extends E i).operation E x ?_ t).bind fun _ _ _ => trivial
    exact fun _ _ _ t => extends_ask (by simp) fun _ _ _ _ _ _ => trivial
  | standalone entityId threshold payloads =>
    refine (loadWithCatchUp_extends entityId threshold).bind fun result u hu => ?_
    cases result with
    | error error => trivial
    | ok loaded => exact writeSnapshots_extends (hu loaded rfl) payloads

/-- Every step of a run in order keeps the chain of every stream. -/
theorem chains_of_step (x : ι → SnapshotWriter A kindOf) {c c' : Tracked ι × (ι → Program Unit)}
    (hreach : Pool.Reaches (Acts E) (Moves E) (start .empty, fun i => (x i).program E) c)
    (hstep : Pool.Step (Acts E) (Moves E) c c') : World.Chains c.1.world c'.1.world := by
  have hstart : ∀ i, Extends E i (fun _ _ => True) ((x i).program E) (start .empty) :=
    fun i => writer_extends (x i)
  obtain ⟨hsound, hsafe⟩ := Pool.safe_of_reaches Leaves.refl (fun _ _ _ _ => Leaves.trans)
    (fun _ _ _ _ _ _ => trivial)
    (fun _ _ _ _ h => ⟨h.sound, fun j hj => ⟨h.chains.persists, h.known j hj⟩⟩)
    (fun _ _ ht h => ⟨(h.world.chains ht).2, fun j =>
      ⟨(h.world.chains ht).1.persists, congrFun h.known j⟩⟩) hreach
    History.sound_empty hstart
  rcases Pool.guar_of_step Leaves.refl hstep hsound hsafe with h | ⟨i, h⟩
  · exact (h.world.chains hsound).1
  · exact h.chains

theorem precedes_of_reaches (x : ι → SnapshotWriter A kindOf)
    {c c' : Tracked ι × (ι → Program Unit)}
    (hreach : Pool.Reaches (Acts E) (Moves E) (start .empty, fun i => (x i).program E) c)
    (hlater : Pool.Reaches (Acts E) (Moves E) c c') {entityId : EntityId}
    {s : SerializedSnapshot} (hs : (c.1.world.stores.held entityId).snapshot = some s) :
    ∃ t, (c'.1.world.stores.held entityId).snapshot = some t ∧ s.Precedes t := by
  induction hlater with
  | refl => exact ⟨s, hs, .refl s⟩
  | tail hlater hstep ih =>
    obtain ⟨t, ht, hprecedes⟩ := ih
    obtain ⟨u, hu, hnext⟩ := (chains_of_step x (hreach.trans hlater) hstep entityId).kept t ht
    exact ⟨u, hu, hprecedes.trans hnext⟩

/-- The repository answers, and the program learns the snapshot it reads or writes. -/
def answer (E : Env) (i : ι) (t : Tracked ι) (a : Ask) : Answer a × Tracked ι :=
  ((t.world.answer E i a).1, ⟨(t.world.answer E i a).2,
    Function.update t.known i (learned a (t.world.answer E i a).1 (t.known i))⟩)

theorem acts_answer (E : Env) (i : ι) (t : Tracked ι) (a : Ask) (h : t.KeepsChain i a) :
    Acts E i t a (t.answer E i a).1 (t.answer E i a).2 :=
  ⟨h, World.acts_answer E i t.world a, rfl⟩

instance decidableKeepsChain (i : ι) (t : Tracked ι) : (a : Ask) → Decidable (KeepsChain i t a)
  | .putSnapshot new =>
    inferInstanceAs (Decidable (∀ stored ∈ (t.world.stores.held new.entityId).snapshot, _ → _))
  | .submit q => inferInstanceAs (Decidable (∀ c ∈ q.write.streams, _ → ∀ stored ∈ _, _))
  | .span _ | .outcome _ | .outcomeWithin _ | .snapshot _ | .eventsAfter _ _
  | .compactBelow _ _ | .declareHistory _ | .generate | .consult | .pastDeadline => isTrue trivial

end Tracked

variable {ι : Type} [DecidableEq ι] {κ : Type} [DecidableEq κ] {A : κ → Aggregate}
  {kindOf : EntityId → κ}

/-- With standalone writes in order, a snapshot is only followed by one with sequences no smaller;
the first is numbered 1. -/
theorem snapshots_never_go_back (E : Env) (x : ι → SnapshotWriter A kindOf)
    (c c' : Tracked ι × (ι → Program Unit))
    (hreach : Pool.Reaches (Tracked.Acts E) (Tracked.Moves E)
      (.start .empty, fun i => (x i).program E) c)
    (entityId : EntityId) :
    (Pool.Reaches (Tracked.Acts E) (Tracked.Moves E) c c' →
      ∀ s, (c.1.world.stores.held entityId).snapshot = some s →
        ∃ t, (c'.1.world.stores.held entityId).snapshot = some t ∧ s.sequence ≤ t.sequence ∧
          s.eventSequence ≤ t.eventSequence ∧
          (s.eventSequence < t.eventSequence → s.sequence < t.sequence)) ∧
    (Pool.Step (Tracked.Acts E) (Tracked.Moves E) c c' →
      (c.1.world.stores.held entityId).snapshot = none →
        ∀ t, (c'.1.world.stores.held entityId).snapshot = some t → t.sequence = 1) := by
  constructor
  · intro hlater s hs
    obtain ⟨t, ht, hprecedes⟩ := Tracked.precedes_of_reaches x hreach hlater hs
    exact ⟨t, ht, hprecedes.sequence, hprecedes.covers, hprecedes.larger⟩
  · exact fun hstep => (Tracked.chains_of_step x hreach hstep entityId).first

def catchingUp : Fin 4 → SnapshotWriter (fun _ : Unit => counter) (fun _ => ())
  | 0 | 1 | 2 => .operation (.load "a" 1)
  | 3 => .operation (.session "a" { counter.store with outcomes := none }
      [fun _ => ([()], {}), fun _ => ([()], {}), fun _ => ([()], {})])

def caughtUp (schedule : List (Fin 4)) : Tracked (Fin 4) × (Fin 4 → Program Unit) :=
  Pool.turns (fun i t => t.answer Env.plain i)
    (.start .empty, fun i => (catchingUp i).program Env.plain) schedule

/-- Two loads after each other: the second one's snapshot follows the first one's. -/
theorem snapshots_never_go_back_of_loads :
    let c := caughtUp [3, 3, 3, 3, 3, 1, 1, 1, 1]
    let c' := caughtUp ([3, 3, 3, 3, 3, 1, 1, 1, 1] ++ [3, 3, 2, 2, 2, 2])
    ∃ s t, (c.1.world.stores.held "a").snapshot = some s ∧
      (c'.1.world.stores.held "a").snapshot = some t ∧
      s.sequence = 1 ∧ s.eventSequence = 1 ∧ t.eventSequence = 2 ∧ s.sequence < t.sequence := by
  have hbefore : Pool.Allows (fun i t => t.answer Env.plain i) Tracked.KeepsChain
      (.start .empty, fun i => (catchingUp i).program Env.plain) [3, 3, 3, 3, 3, 1, 1, 1, 1] := by
    decide +kernel
  have hafter : Pool.Allows (fun i t => t.answer Env.plain i) Tracked.KeepsChain
      (caughtUp [3, 3, 3, 3, 3, 1, 1, 1, 1]) [3, 3, 2, 2, 2, 2] := by
    decide +kernel
  obtain ⟨t, ht, -, -, hlarger⟩ := (snapshots_never_go_back Env.plain catchingUp _ _
    (Pool.reaches_turns_when (Tracked.acts_answer Env.plain) hbefore) "a").1
    (Pool.reaches_turns_when (Tracked.acts_answer Env.plain) hafter) _ rfl
  obtain rfl := Option.some.inj (show _ = some t from ht)
  exact ⟨_, _, rfl, ht, rfl, rfl, rfl, hlarger (by decide)⟩

/-- A load that saw no snapshot stores number 1 over number 2. -/
theorem snapshot_sequence_falls :
    ∃ c c' : World (Fin 4) × (Fin 4 → Program Unit),
      Pool.Reaches (World.Acts Env.plain) (World.Moves Env.plain World.noOne)
        (World.start .empty, fun i => (catchingUp i).program Env.plain) c ∧
      Pool.Reaches (World.Acts Env.plain) (World.Moves Env.plain World.noOne) c c' ∧
      (c.1.stores.held "a").snapshot.map (fun s => (s.sequence, s.eventSequence)) = some (2, 2) ∧
      (c'.1.stores.held "a").snapshot.map (fun s => (s.sequence, s.eventSequence)) =
        some (1, 3) := by
  refine ⟨_, _, World.reaches_turns Env.plain _ _ ([3, 3, 3, 3, 3, 0, 0, 1, 1, 1, 1, 3, 3] ++
    [2, 2, 2, 2, 3, 3]), World.reaches_turns Env.plain _ _ [0, 0], ?_, ?_⟩
  · decide +kernel
  · decide +kernel

end EventStore
