import EventStore.Memory.StreamLog

/-!
The cached markers of many handles on one store. A handle skips the validation when the stored
version is the one it cached, and clones copy the cache. Versions only grow, so a cached version
that is still stored names a manifest its handle validated.
-/
namespace EventStore

open Result

/-- The manifest declares stream heads and only what the writer supports. -/
def FeatureManifest.Writable (E : Env) (journaling : Bool) (m : FeatureManifest) : Prop :=
  (∀ (name : String) (version : Int), m.features[name]? = some version →
    (name, version) ∈ supportedFeatures E ∧
      (name ∈ FeatureManifest.journalOnly → journaling = true)) ∧
    m.declaresStreamHeads = true

namespace FeatureManifest

theorem validateSupported_ok {E : Env} {m : FeatureManifest} (h : m.validateSupported E = .ok ())
    {name : String} {version : Int} (hm : m.features[name]? = some version) :
    (name, version) ∈ supportedFeatures E := by
  unfold validateSupported at h
  split at h
  · cases h
  · rename_i hnone
    simpa using List.find?_eq_none.mp hnone _ (OrdMap.mem_toList.mpr hm)

theorem refuseJournal_ok {m : FeatureManifest} (h : m.refuseJournal = .ok ()) {name : String}
    (hname : name ∈ journalOnly) : m.features[name]? = none := by
  unfold refuseJournal at h
  split at h
  · cases h
  · rename_i hnone
    simpa using List.findSome?_eq_none_iff.mp hnone name hname

theorem supported_of_checks {E : Env} {journaling : Bool} {m : FeatureManifest}
    (hsupported : m.validateSupported E = .ok ())
    (hjournal : (if journaling then pure () else m.refuseJournal) = (.ok () : Except Error Unit))
    (name : String) (version : Int) (hm : m.features[name]? = some version) :
    (name, version) ∈ supportedFeatures E ∧ (name ∈ journalOnly → journaling = true) := by
  refine ⟨validateSupported_ok hsupported hm, ?_⟩
  intro hname
  cases journaling with
  | true => rfl
  | false => simp [refuseJournal_ok hjournal hname] at hm

theorem Writable.journaling {E : Env} {journaling : Bool} {m : FeatureManifest}
    (h : m.Writable E journaling) : m.Writable E true :=
  ⟨fun name version hm => ⟨(h.1 name version hm).1, fun _ => rfl⟩, h.2⟩

theorem writable_declared {E : Env} {journaling : Bool} {stored : Option FeatureManifest}
    (h : ∀ m, stored = some m → ∀ (name : String) (version : Int),
      m.features[name]? = some version → (name, version) ∈ supportedFeatures E ∧
        (name ∈ journalOnly → journaling = true)) :
    (declaredManifest stored).Writable E journaling := by
  have hfeatures (name : String) : (declaredManifest stored).features[name]? =
      if name = streamHeadsFeature then some streamHeadsVersion
      else (stored.getD .empty).features[name]? := OrdMap.get_insert _ _ _ _
  refine ⟨fun name version hm => ?_, ?_⟩
  · rw [hfeatures] at hm
    split at hm
    · rename_i hname
      cases hm
      subst hname
      refine ⟨?_, by simp [journalOnly, streamHeadsFeature, journalFeature,
        journalCompactionFeature]⟩
      unfold supportedFeatures
      split <;> simp
    · cases stored with
      | none => simp [empty] at hm
      | some m => exact h m rfl name version hm
  · simp [declaresStreamHeads, hfeatures]

end FeatureManifest

theorem validateMarkerForWrite_some (E : Env) (journaling : Bool) (m : FeatureManifest) :
    validateMarkerForWrite E journaling (some m) = (do
      m.validateSupported E
      (if journaling then pure () else m.refuseJournal : Except Error Unit) >>= fun _ => do
        refuse (!m.declaresStreamHeads) .streamHeadsNotMigrated
        return .version m.version) := by
  cases journaling <;> rfl

/-- A validated marker is the version of a manifest to write under. -/
theorem validateMarkerForWrite_ok {E : Env} {journaling : Bool}
    {stored : Option FeatureManifest} {marker : ValidatedMarker}
    (h : validateMarkerForWrite E journaling stored = .ok marker) :
    ∃ m, stored = some m ∧ marker = .version m.version ∧ m.Writable E journaling := by
  cases stored with
  | none => cases h
  | some m =>
    simp only [validateMarkerForWrite_some, seq_eq_ok, refuse_eq_ok] at h
    obtain ⟨hsupported, hjournal, hheads, hmarker⟩ := h
    cases hmarker
    exact ⟨m, rfl, rfl, FeatureManifest.supported_of_checks hsupported hjournal,
      by simpa using hheads⟩

/-- A manifest refused only for its missing stream heads may be declared. -/
theorem writable_of_notMigrated {E : Env} {journaling : Bool} {stored : Option FeatureManifest}
    (h : validateMarkerForWrite E journaling stored = .error .streamHeadsNotMigrated) :
    (declaredManifest stored).Writable E journaling := by
  refine FeatureManifest.writable_declared fun m hm => ?_
  subst hm
  simp only [validateMarkerForWrite_some, seq_eq_error] at h
  rcases h with h | ⟨hsupported, h | ⟨hjournal, -⟩⟩
  · unfold FeatureManifest.validateSupported at h
    split at h <;> cases h
  · cases journaling with
    | true => cases h
    | false =>
      simp only [Bool.false_eq_true, if_false, FeatureManifest.refuseJournal] at h
      split at h <;> cases h
  · exact FeatureManifest.supported_of_checks hsupported hjournal

def Follows (stored next : Option FeatureManifest) : Prop :=
  next = stored ∨ ∃ m, next = some m ∧ ∀ old, stored = some old → old.version < m.version

theorem follows_declared (stored : Option FeatureManifest) :
    Follows stored (some (declaredManifest stored)) := by
  refine .inr ⟨_, rfl, ?_⟩
  rintro old rfl
  simp [declaredManifest]

namespace Handle

/-- The cached marker is a version the store has had; while it is the stored one, the
handle may write. -/
def Sound (E : Env) (stored : Option FeatureManifest) (handle : Handle) : Prop :=
  ∀ marker, handle.validated = some marker → ∃ m v, stored = some m ∧ marker = .version v ∧
    v ≤ m.version ∧ (v = m.version → m.Writable E handle.journaling)

theorem Sound.follows {E : Env} {stored next : Option FeatureManifest} {handle : Handle}
    (h : handle.Sound E stored) (hnext : Follows stored next) : handle.Sound E next := by
  rcases hnext with rfl | ⟨m, rfl, hlarger⟩
  · exact h
  · intro marker hmarker
    obtain ⟨old, v, rfl, rfl, hle, -⟩ := h marker hmarker
    have := hlarger old rfl
    exact ⟨m, v, rfl, rfl, by omega, by omega⟩

theorem sound_validated {E : Env} {journaling : Bool} {m : FeatureManifest}
    (h : m.Writable E journaling) :
    Sound E (some m) ⟨some (.version m.version), journaling⟩ := by
  rintro marker ⟨⟩
  exact ⟨m, m.version, rfl, rfl, le_rfl, fun _ => h⟩

end Handle

namespace MemRepository

def handle (r : MemRepository) : Handle := ⟨r.validated, r.journaling⟩

/-- The marker check moves the manifest forward, and passes only where the handle may write. -/
theorem checkManifest_sound {E : Env} {r : MemRepository}
    (h : r.handle.Sound E r.stores.manifest) :
    Follows r.stores.manifest (r.checkManifest E).2.stores.manifest ∧
      (r.checkManifest E).2.handle.Sound E (r.checkManifest E).2.stores.manifest ∧
      ((r.checkManifest E).1 = .ok () → ∃ m,
        (r.checkManifest E).2.stores.manifest = some m ∧ m.Writable E r.journaling) := by
  unfold checkManifest
  split
  · rename_i hmatches
    refine ⟨.inl rfl, h, fun _ => ?_⟩
    unfold markerMatches at hmatches
    split at hmatches
    · rename_i hvalidated _
      obtain ⟨m, v, -, hmarker, -⟩ := h _ hvalidated
      cases hmarker
    · rename_i version manifest hvalidated hstored
      obtain ⟨m, v, hm, hmarker, -, hwritable⟩ := h _ hvalidated
      rw [hstored] at hm
      cases hm
      cases hmarker
      exact ⟨manifest, hstored, hwritable (by simpa using hmatches.symm : _ = _).symm⟩
    · cases hmatches
  · split
    · rename_i marker hmarker
      obtain ⟨m, hm, rfl, hwritable⟩ := validateMarkerForWrite_ok hmarker
      refine ⟨.inl rfl, ?_, fun _ => ⟨m, hm, hwritable⟩⟩
      simp only [hm]
      exact Handle.sound_validated hwritable
    · rename_i hmarker
      have hwritable := writable_of_notMigrated hmarker
      split
      · exact ⟨.inl rfl, h, by simp⟩
      · exact ⟨follows_declared _, Handle.sound_validated hwritable, fun _ => ⟨_, rfl, hwritable⟩⟩
    · exact ⟨.inl rfl, h, by simp⟩

end MemRepository

inductive HandleCall where
  | submit (request : Request)
  | putSnapshot (snapshot : SerializedSnapshot)
  | compactBelow (entityId : EntityId) (through : Int)
  | updateManifest (change : FeatureManifest → FeatureManifest)
  | initializeStore
  | acceptJournal

namespace HandleCall

def run (E : Env) (r : MemRepository) : HandleCall → Bool × MemRepository
  | .submit q => (!(History.appliedBy E q (q.run E r).1).isEmpty, (q.run E r).2)
  | .putSnapshot snapshot =>
    (match (r.putSnapshot E snapshot).1 with | .ok stored => stored | .error _ => false,
      (r.putSnapshot E snapshot).2)
  | .compactBelow entityId through =>
    (match (r.compactBelow E entityId through).1 with
      | .ok _ => decide (1 ≤ through)
      | .error _ => false,
      (r.compactBelow E entityId through).2)
  | .updateManifest change => (false, r.updateManifest change)
  | .initializeStore => (false, (r.initializeStore E).2)
  | .acceptJournal => (false, r.acceptJournal)

/-- One call: the manifest moves forward, and data changes only under one the handle may write. -/
structure Marked (E : Env) (r : MemRepository) (result : Bool × MemRepository) : Prop where
  follows : Follows r.stores.manifest result.2.stores.manifest
  sound : result.2.handle.Sound E result.2.stores.manifest
  writes : result.1 = true →
    ∃ m, result.2.stores.manifest = some m ∧ m.Writable E r.journaling
  same : result.1 = false → SameData r.stores result.2.stores

variable {E : Env} {r : MemRepository}

theorem Marked.unchanged (h : r.handle.Sound E r.stores.manifest) : Marked E r (false, r) :=
  ⟨.inl rfl, h, by simp, fun _ => .refl _⟩

theorem submit_marked (h : r.handle.Sound E r.stores.manifest) (q : Request) :
    Marked E r (run E r (.submit q)) := by
  simp only [run]
  rw [Request.run_eq]
  cases hplan : q.plan E with
  | error error => exact .unchanged h
  | ok planned =>
    cases planned with
    | none => simpa [History.appliedBy, hplan] using Marked.unchanged h
    | some w =>
      obtain ⟨hfollows, hsound, hwritable⟩ := MemRepository.checkManifest_sound h
      have hsame := sameData_checkManifest E r
      rcases MemRepository.perform_cases E r w with ⟨e, -, he⟩ | ⟨-, e, -, he⟩ | ⟨hok, -, he⟩
      · simp only [he]
        exact ⟨hfollows, hsound, by simp [History.appliedBy], fun _ => hsame⟩
      · simp only [he]
        exact ⟨hfollows, hsound, by simp [History.appliedBy], fun _ => hsame⟩
      · simp only [he]
        exact ⟨hfollows, hsound, fun _ => hwritable hok, by simp [History.appliedBy, hplan]⟩

theorem putSnapshot_marked (h : r.handle.Sound E r.stores.manifest)
    (snapshot : SerializedSnapshot) : Marked E r (run E r (.putSnapshot snapshot)) := by
  simp only [run, MemRepository.putSnapshot]
  cases checkNotReserved snapshot.entityId with
  | error error => exact .unchanged h
  | ok u =>
    obtain ⟨hfollows, hsound, hwritable⟩ := MemRepository.checkManifest_sound h
    have hsame := sameData_checkManifest E r
    rcases hm : r.checkManifest E with ⟨_ | _, r'⟩ <;>
      rw [hm] at hfollows hsound hwritable hsame <;> simp only at hfollows hsound hsame ⊢
    · exact ⟨hfollows, hsound, by simp, fun _ => hsame⟩
    · cases MemRepository.checkPutSnapshot r'.stores snapshot with
      | error error => exact ⟨hfollows, hsound, by simp, fun _ => hsame⟩
      | ok stored =>
        cases stored with
        | false => exact ⟨hfollows, hsound, by simp, fun _ => hsame⟩
        | true => exact ⟨hfollows, hsound, fun _ => hwritable rfl, by simp⟩

theorem compactBelow_marked (h : r.handle.Sound E r.stores.manifest) (entityId : EntityId)
    (through : Int) : Marked E r (run E r (.compactBelow entityId through)) := by
  simp only [run, MemRepository.compactBelow]
  cases checkNotReserved entityId with
  | error error => exact .unchanged h
  | ok u =>
    by_cases hthrough : through < 1
    · simp only [hthrough, if_true, show ¬1 ≤ through by omega, decide_false]
      exact .unchanged h
    · simp only [hthrough, if_false]
      cases hcheck : r.checkCompaction E entityId through with
      | error error => exact .unchanged h
      | ok stream =>
        unfold MemRepository.checkCompaction at hcheck
        obtain ⟨u, hmarker, -⟩ := bind_eq_ok.mp hcheck
        obtain ⟨marker, hmarker, -⟩ := map_eq_ok.mp hmarker
        obtain ⟨m, hm, -, hwritable⟩ := validateMarkerForWrite_ok hmarker
        exact ⟨.inl rfl, h, fun _ => ⟨m, hm, hwritable⟩,
          by simp [show 1 ≤ through by omega]⟩

theorem updateManifest_marked (change : FeatureManifest → FeatureManifest) :
    Marked E r (run E r (.updateManifest change)) := by
  refine ⟨.inr ⟨_, rfl, ?_⟩, by rintro marker ⟨⟩, by simp [run], fun _ => ⟨rfl, rfl, rfl⟩⟩
  intro old hold
  simp [hold]

theorem initializeStore_marked (h : r.handle.Sound E r.stores.manifest) :
    Marked E r (run E r .initializeStore) := by
  simp only [run, MemRepository.initializeStore]
  split
  · exact .unchanged h
  · exact .unchanged h
  · split
    · exact .unchanged h
    · exact ⟨follows_declared _, by rintro marker ⟨⟩, by simp, fun _ => ⟨rfl, rfl, rfl⟩⟩

theorem run_marked (h : r.handle.Sound E r.stores.manifest) (call : HandleCall) :
    Marked E r (call.run E r) := by
  cases call with
  | submit q => exact submit_marked h q
  | putSnapshot snapshot => exact putSnapshot_marked h snapshot
  | compactBelow entityId through => exact compactBelow_marked h entityId through
  | updateManifest change => exact updateManifest_marked change
  | initializeStore => exact initializeStore_marked h
  | acceptJournal =>
    refine ⟨.inl rfl, ?_, by simp [run], fun _ => .refl _⟩
    intro marker hmarker
    obtain ⟨m, v, hm, hv, hle, hwritable⟩ := h marker hmarker
    exact ⟨m, v, hm, hv, hle, fun heq => (hwritable heq).journaling⟩

end HandleCall

/-- Handles on one store: clones share the stores and keep their own cached marker. -/
structure Handles (ι : Type) where
  stores : Stores
  handle : ι → Handle

/-- One turn: a call, a clone in another's place, or a change of rows and fence. -/
inductive HandleTurn (ι : Type) where
  | call (i : ι) (call : HandleCall)
  | clone (i j : ι)
  | other (views : OrdMap ViewKey ViewRow) (rebuild : RebuildState)

namespace Handles

variable {ι : Type}

def repository (w : Handles ι) (i : ι) : MemRepository := (w.handle i).over w.stores

variable [DecidableEq ι]

def step (E : Env) (w : Handles ι) : HandleTurn ι → Handles ι
  | .call i call =>
    let r := (call.run E (w.repository i)).2
    ⟨r.stores, Function.update w.handle i r.handle⟩
  | .clone i j => { w with handle := Function.update w.handle j (w.handle i) }
  | .other views rebuild => { w with stores := { w.stores with views, rebuild } }

def run (E : Env) (w : Handles ι) (turns : List (HandleTurn ι)) : Handles ι :=
  turns.foldl (step E) w

def Sound (E : Env) (w : Handles ι) : Prop := ∀ i, (w.handle i).Sound E w.stores.manifest

theorem Sound.step {E : Env} {w : Handles ι} (h : w.Sound E) (turn : HandleTurn ι) :
    (w.step E turn).Sound E := by
  intro k
  cases turn with
  | call i call =>
    have hmarked := HandleCall.run_marked (r := w.repository i) (h i) call
    simp only [Handles.step, Function.update_apply]
    split
    · exact hmarked.sound
    · exact (h k).follows hmarked.follows
  | clone i j =>
    simp only [Handles.step, Function.update_apply]
    split
    · exact h i
    · exact h k
  | other views rebuild => exact h k

theorem Sound.run {E : Env} {w : Handles ι} (h : w.Sound E) (turns : List (HandleTurn ι)) :
    (w.run E turns).Sound E := by
  induction turns generalizing w with
  | nil => exact h
  | cons turn turns ih => exact ih (h.step turn)

/-- No write lands under a manifest its writer does not support, whatever handles and clones did
before, and a call that applies no write changes no data. -/
theorem writes_under_supported_manifest (E : Env) (w : Handles ι)
    (hfresh : ∀ i, (w.handle i).validated = none) (turns : List (HandleTurn ι)) (i : ι)
    (call : HandleCall) :
    let before := w.run E turns
    let result := call.run E (before.repository i)
    (result.1 = true → ∃ m, result.2.stores.manifest = some m ∧
      m.Writable E (before.handle i).journaling) ∧
    (result.1 = false → SameData before.stores result.2.stores) := by
  have hsound : w.Sound E := by
    intro k marker hmarker
    simp [hfresh k] at hmarker
  have hmarked := HandleCall.run_marked (r := (w.run E turns).repository i)
    (hsound.run turns i) call
  exact ⟨hmarked.writes, hmarked.same⟩

def firstCommit (entityId : EntityId) : HandleCall :=
  .submit (.commit
    { entityId, events := [⟨.forEvent entityId 1, 1, "made", 1, entityId, "T", .empty, {}⟩]
      snapshot := none, outcome := none })

def journalDeclared : List (HandleTurn Bool) :=
  [.call false (firstCommit "a"), .clone false true,
    .call true (.updateManifest fun m =>
      { m with features := m.features.insert journalFeature journalVersion }),
    .call true .acceptJournal]

theorem journal_writer_writes :
    let E := { Env.plain with journalBuild := true }
    let start : Handles Bool := ⟨.empty, fun _ => ⟨none, false⟩⟩
    let before := start.run E journalDeclared
    let result := (firstCommit "b").run E (before.repository true)
    result.1 = true ∧ ((firstCommit "b").run E (before.repository false)).1 = false ∧
      ∃ m, result.2.stores.manifest = some m ∧ m.Writable E (before.handle true).journaling :=
  ⟨by decide +kernel, by decide +kernel,
    (writes_under_supported_manifest _ _ (fun _ => rfl) _ _ _).1 (by decide +kernel)⟩

end Handles

end EventStore
