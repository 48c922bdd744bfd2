import EventStore.Runs.Operations

/-!
Every store operation, call by call, among any others: a load returns the fold of a
prefix, and what is then decided on it continues the log. The others may commit and
compact between any two calls; the logs only grow.
-/
namespace EventStore

open Result Program

variable {κ : Type} {A : κ → Aggregate} {kindOf : EntityId → κ}

theorem Operation.submits_of_continues {ι : Type} {E : Env} {current : Prop}
    {x : Operation A kindOf} {applied : List (Applied ι)} {started : Nat} {q : Request}
    (h : q.write.Continues A kindOf x.projectors (logOf applied))
    (hq : ∀ c, q = .commit c → c.events ≠ []) : x.Submits E current applied started q := by
  refine ⟨h, fun _ => ?_⟩
  cases x with
  | executeWithResponse entityId config command metadata respond =>
    exact fun c hc hevents => absurd hevents (hq c hc)
  | _ => trivial

namespace World

variable {ι : Type}

/-- What everyone keeps for the program `i`: the applied commits, and where its last
load began. -/
structure Grows (i : ι) (w w' : World ι) : Prop where
  applied : w.applied <+: w'.applied
  started : w'.started i = w.started i

theorem Grows.refl (i : ι) (w : World ι) : Grows i w w := ⟨List.prefix_rfl, rfl⟩

theorem Grows.trans {i : ι} {w w' w'' : World ι} (h : Grows i w w') (h' : Grows i w' w'') :
    Grows i w w'' :=
  ⟨h.applied.trans h'.applied, h'.started.trans h.started⟩

theorem Grows.log {i : ι} {w w' : World ι} (h : Grows i w w') (entityId : EntityId) :
    w.log entityId <+: w'.log entityId :=
  logOf_mono h.applied entityId

variable [DecidableEq ι] (E : Env) (current : Prop) (x : ι → Operation A kindOf)
  (allowed : World ι → Ask → Prop) (i : ι)

structure Advances (w w' : World ι) : Prop where
  consistent : w'.Consistent E current x
  applied : w.applied <+: w'.applied
  others : ∀ j, j ≠ i → w'.started j = w.started j

abbrev Operates {α : Type} (post : α → World ι → Prop) (p : Program α) (w : World ι) : Prop :=
  Script.Safe (ActsWhen E allowed i) (Grows i) (Consistent E current x) (Advances E current x i)
    post p w

/-- The event after a read's sequence, if there is one, is still stored. -/
def Readable (w : World ι) (a : Ask) : Prop :=
  ∀ entityId after, a = .eventsAfter entityId after → after < (w.stores.held entityId).head →
    (w.stores.held entityId).events.contains (after + 1) = true

variable {E current x allowed i}

section Calls

variable {w w' : World ι} {a : Ask} {answer : Answer a}

theorem Acts.started_other {j : ι} (h : Acts E i w a answer w') (hj : j ≠ i) :
    w'.started j = w.started j := by
  cases h with
  | span entityId => simp [hj]
  | _ => rfl

theorem Acts.started_own (h : Acts E i w a answer w') (ha : ∀ entityId, a ≠ .span entityId) :
    w'.started i = w.started i := by
  cases h with
  | span entityId => exact absurd rfl (ha entityId)
  | _ => rfl

omit [DecidableEq ι] in
theorem Moves.started {others : Writers ι} (h : Moves E others w w') : w'.started = w.started := by
  rcases h with h | h
  · cases h
    rfl
  · cases h <;> rfl

theorem Acts.advances (h : Acts E i w a answer w') (hw : w.Consistent E current x)
    (hsubmit : ∀ q, a = .submit q → (x i).Submits E current w.applied (w.started i) q)
    (hput : ∀ snapshot, a = .putSnapshot snapshot →
      snapshot.Of (A (kindOf snapshot.entityId)) (w.log snapshot.entityId)) :
    Advances E current x i w w' := by
  have hgrown := h.effect.grows
  refine ⟨h.effect.consistent hw ?_ hput ?_ ?_, hgrown, fun j hj => h.started_other hj⟩
  · rintro author started q ⟨rfl, rfl, ha⟩
    exact ⟨i, rfl, hsubmit q ha⟩
  · intro f hf
    rcases h.inFlight f hf with hf | ⟨rfl, hstarted, ha⟩
    · exact hw.inFlight f hf
    · rw [hstarted]
      exact hsubmit _ ha
  · intro j
    have hlength := hgrown.length_le
    by_cases hj : j = i
    · subst hj
      cases h with
      | span entityId => simp [World.version]
      | _ => exact (hw.started _).trans hlength
    · rw [h.started_other hj]
      exact (hw.started j).trans hlength

omit [DecidableEq ι] in
theorem Moves.advances (h : Moves E noOne w w') (hw : w.Consistent E current x) :
    w'.Consistent E current x ∧ ∀ i, Grows i w w' := by
  have hgrown := h.effect.grows
  refine ⟨h.effect.consistent hw ?_ ?_ (fun f hf => hw.inFlight f (h.inFlight f hf)) ?_,
    fun i => ⟨hgrown, by rw [h.started]⟩⟩
  · rintro author started q (⟨f, hf, rfl, rfl, rfl⟩ | ⟨-, hq⟩)
    · exact ⟨f.author, rfl, hw.inFlight f hf⟩
    · cases hq
  · intro snapshot hs
    cases hs
  · intro i
    rw [h.started]
    exact (hw.started i).trans hgrown.length_le

theorem operates_ask (ha : ∀ entityId, a ≠ .span entityId) {post : Answer a → World ι → Prop}
    (hsubmit : ∀ t q, Grows i w t → a = .submit q →
      (x i).Submits E current t.applied (t.started i) q)
    (hput : ∀ t snapshot, Grows i w t → a = .putSnapshot snapshot →
      snapshot.Of (A (kindOf snapshot.entityId)) (t.log snapshot.entityId))
    (h : ∀ t answer u, Grows i w t → t.Consistent E current x → u.Consistent E current x →
      allowed t a → Acts E i t a answer u → Grows i w u → post answer u) :
    Operates E current x allowed i post (ask a) w := by
  refine Script.Safe.ask fun t hgrows ht answer u hact => ?_
  have hadvances := hact.2.advances ht (fun q => hsubmit t q hgrows) fun s => hput t s hgrows
  refine ⟨hadvances, h t answer u hgrows ht hadvances.consistent hact.1 hact.2 (hgrows.trans ?_)⟩
  exact ⟨hadvances.applied, hact.2.started_own ha⟩

theorem operates_read (ha : a.quiet = true) {post : Answer a → World ι → Prop}
    (h : ∀ t answer u, t.Consistent E current x → u.Consistent E current x → allowed t a →
      Acts E i t a answer u → Grows i w t → Grows i w u → post answer u) :
    Operates E current x allowed i post (ask a) w := by
  refine operates_ask ?_ ?_ ?_ fun t answer u hg ht hu hallowed hact =>
    h t answer u ht hu hallowed hact hg
  · rintro _ rfl
    cases ha
  · rintro _ _ _ rfl
    cases ha
  · rintro _ _ _ rfl
    cases ha

theorem operates_quiet {α : Type} {p : Program α} (hp : p.Quiet) :
    Operates E current x allowed i (fun _ u => Grows i w u) p w := by
  refine Script.Safe.of_asks hp (.refl i w) (fun _ _ ht hu => ht.trans hu) ?_
  intro t a answer u ha ht hgrows hact
  have hadvances := hact.2.advances ht (fun q hq => absurd hq (Ask.ne_submit_of_quiet ha q)) (by
    rintro _ rfl
    cases ha)
  refine ⟨hadvances, hgrows.trans ⟨hadvances.applied, hact.2.started_own ?_⟩⟩
  rintro _ rfl
  cases ha

theorem putSnapshot_operates {snapshot : SerializedSnapshot}
    (h : snapshot.Of (A (kindOf snapshot.entityId)) (w.log snapshot.entityId)) :
    Operates E current x allowed i (fun _ u => Grows i w u) (ask (.putSnapshot snapshot)) w := by
  refine operates_ask (by simp) (by simp) ?_ fun t answer u _ _ _ _ _ hu => hu
  rintro t _ ht ⟨⟩
  exact h.mono (ht.log _)

end Calls

section Load

variable {w : World ι}

variable (current i) in
/-- The fold of a prefix, and with current reads a state the stream had since the load began. -/
structure LoadedAt (entityId : EntityId) (w : World ι) (loaded : Loaded (A (kindOf entityId))) :
    Prop where
  same : loaded.entityId = entityId
  prefixed : loaded.Of (w.log entityId)
  now : current → Had (A (kindOf entityId)) w.applied (w.started i) entityId loaded.aggregate

omit [DecidableEq ι] in
theorem LoadedAt.mono {entityId : EntityId} {loaded : Loaded (A (kindOf entityId))} {w' : World ι}
    (h : LoadedAt current i entityId w loaded) (hgrows : Grows i w w') :
    LoadedAt current i entityId w' loaded :=
  ⟨h.same, h.prefixed.mono (hgrows.log entityId), fun hc => by
    rw [hgrows.started]
    exact (h.now hc).mono hgrows.applied⟩

variable (hA : ∀ kind, (A kind).RoundTrips)
  (hallowed : current → ∀ (w : World ι) a, allowed w a → Readable w a)

include hA hallowed

omit [DecidableEq ι] hA in
/-- Folding what an event read found, at the moment of the read. -/
theorem loadedAt_replayAll {entityId : EntityId} (hw : w.Consistent E current x)
    {loaded loaded' : Loaded (A (kindOf entityId))} (hid : loaded.entityId = entityId)
    (hof : loaded.Of (w.log entityId))
    (hread : allowed w (.eventsAfter entityId loaded.sequence))
    (h : loaded.replayAll (w.stores.eventsAfter entityId loaded.sequence) = .ok loaded') :
    LoadedAt current i entityId w loaded' := by
  have hholds : (w.stores.held entityId).Holds (w.log entityId) := hw.sound entityId
  obtain ⟨k, hk, hevents, hplace⟩ := hholds.eventsAfter hof.nonneg
  rw [hevents] at h
  obtain ⟨hof', hid', hend⟩ := Loaded.replayAll_drop hholds.numbered hof hk h
  refine ⟨hid'.trans hid, hof', fun hcurrent => ⟨w.applied.length, hw.started i, le_rfl, ?_⟩⟩
  have hhead := hholds.head
  have hwithin := hof.within
  have hat := hplace (fun hlt => hallowed hcurrent w _ hread entityId _ rfl hlt) (by omega)
  have hstate := hof'.state
  rw [hend hat] at hstate
  rw [List.take_length, ← log_eq]
  simpa using hstate

theorem loadOnce_operates (entityId : EntityId) :
    Operates E current x allowed i (fun r u => Grows i w u ∧
        ∀ loaded, r.map Prod.fst = .ok loaded → LoadedAt current i entityId u loaded)
      (loadOnce (A (kindOf entityId)) entityId) w := by
  refine .andThen (fun r u => Grows i w u ∧ ∀ found, r = .ok found → ∀ snapshot,
    found = some snapshot → snapshot.Of (A (kindOf entityId)) (u.log entityId)) ?_ ?_ ?_
  · refine operates_read rfl fun t answer u ht hu _ hact _ hgrows => ⟨hgrows, ?_⟩
    cases hact with
    | snapshot =>
      rintro _ ⟨⟩ snapshot hs
      exact ht.snapshots entityId snapshot hs
    | snapshotFails => simp
  · exact fun e t h => ⟨h.1, by rintro _ ⟨⟩⟩
  · rintro found t ⟨ht, hfound⟩
    refine .check (fun e _ => ⟨ht, by rintro _ ⟨⟩⟩) fun loaded hloaded => ?_
    obtain ⟨hof, hid⟩ := Loaded.start_of (hA _) (hfound found rfl) hloaded
    refine .andThen (fun r u => Grows i w u ∧ ∀ events, r = .ok events → ∀ loaded',
      loaded.replayAll events = .ok loaded' → LoadedAt current i entityId u loaded') ?_ ?_ ?_
    · refine operates_read rfl fun t' answer u ht' hu hread hact hgrows' hgrows => ?_
      refine ⟨ht.trans hgrows, ?_⟩
      cases hact with
      | eventsAfter =>
        rintro _ ⟨⟩ loaded' hloaded'
        exact loadedAt_replayAll hallowed ht' hid (hof.mono (hgrows'.log entityId)) hread
          hloaded'
      | eventsAfterFails => simp
    · exact fun e t h => ⟨h.1, by rintro _ ⟨⟩⟩
    · rintro events t' ⟨ht', hevents⟩
      refine .check (fun e _ => ⟨ht', by rintro _ ⟨⟩⟩) fun loaded' hloaded' => ⟨ht', ?_⟩
      rintro _ ⟨⟩
      exact hevents events rfl loaded' hloaded'

/-- A load, with its catch-up snapshot: the logs only grew, and the result is the fold of
a prefix. -/
theorem loadWithCatchUp_operates (entityId : EntityId) (threshold : Nat) :
    Operates E current x allowed i (fun r u => w.applied <+: u.applied ∧
        ∀ loaded, r = .ok loaded → LoadedAt current i entityId u loaded)
      (loadWithCatchUp (A (kindOf entityId)) entityId threshold) w := by
  have hspan : Operates E current x allowed i (fun _ u => w.applied <+: u.applied)
      (ask (.span entityId)) w := by
    refine Script.Safe.ask fun t hgrows ht answer u hact => ?_
    have hadvances := hact.2.advances ht (by simp) (by simp)
    exact ⟨hadvances, hgrows.applied.trans hadvances.applied⟩
  refine safe_load hspan ?_ (fun _ _ h => h.1) ?_ threshold
  · intro t ht
    refine (loadOnce_operates hA hallowed entityId).mono fun _ _ h => ?_
    exact ⟨ht.trans h.1.applied, h.2⟩
  · rintro loaded payload t ⟨ht, h⟩ hpayload
    have h := h _ rfl
    refine (putSnapshot_operates ?_).mono fun stored u hu => ?_
    · obtain ⟨hnonneg, hwithin, hstate⟩ := h.prefixed
      simp only [h.same]
      exact ⟨hnonneg, hwithin, _, hstate, hpayload⟩
    have hloaded := h.mono hu
    have hlater := ht.trans hu.applied
    refine ⟨⟨hlater, ?_⟩, fun _ => ⟨hlater, ?_⟩⟩
    · rintro _ ⟨⟩
      exact hloaded
    · rintro _ ⟨⟩
      exact ⟨hloaded.same, ⟨hloaded.prefixed.nonneg, hloaded.prefixed.within,
        hloaded.prefixed.state⟩, hloaded.now⟩

end Load

end World

end EventStore
