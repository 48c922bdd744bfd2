import EventStore.Memory.Validity

/-!
One account of the repository's two commit calls. Both plan a write before any store is read; the
write is then accepted by the marker check and the ranked checks, and changes what it names.
-/
namespace EventStore

open Result

structure Write where
  streams : List (Commit Empty)
  fences : List ReadFence
  views : List ProjectedView
  outcome : Option Outcome
  checkRetention : Option FeatureManifest → Except Error Unit

inductive Request where
  | commit (c : Commit Empty)
  | transaction (t : TransactionCommit Empty)

variable {w : Write}

namespace Write

def ofCommit (c : Commit Empty) : Write :=
  ⟨[c], [], c.views, c.storedOutcome, fun _ => .ok ()⟩

def ofTransaction (t : TransactionCommit Empty) : Write :=
  ⟨t.streams, t.fences, t.views, t.storedOutcome, fun manifest =>
    t.checkRetention manifest fun _ => false⟩

def check (s : Stores) (w : Write) : Except Error Unit :=
  checkWrite s w.streams w.fences w.views w.outcome w.checkRetention

def apply (s : Stores) (w : Write) : Stores := applyWrite s w.streams w.views w.outcome

def events (w : Write) : List SerializedEvent := w.streams.flatMap (·.events)

structure Sound (w : Write) : Prop where
  valid : ∀ c ∈ w.streams, c.Valid
  sorted : w.streams.Pairwise fun a b => a.entityId < b.entityId
  views : (w.views.map (·.op.key)).Nodup ∧ ∀ view ∈ w.views, invalidReason view.op = none
  unwritten : ∀ fence ∈ w.fences, ∀ c ∈ w.streams, c.entityId ≠ fence.entityId

structure Accepted (s : Stores) (w : Write) : Prop where
  rebuild : checkRebuild s = .ok ()
  outcome : ∀ outcome, w.outcome = some outcome → s.outcomes[outcome.commandId]? = none
  streams : ∀ c ∈ w.streams, streamFailure (s.held c.entityId) c = none
  fences : ∀ fence ∈ w.fences, writes w.streams fence.entityId = false →
    (s.held fence.entityId).head = fence.head
  views : ∀ view ∈ w.views, viewHolds s.views[view.op.key]? view.op = true

variable {s : Stores}

theorem failures_eq_nil {streams : List (Commit Empty)} {fences : List ReadFence} :
    failures s streams fences = [] ↔
      (∀ c ∈ streams, streamFailure (s.held c.entityId) c = none) ∧
      ∀ fence ∈ fences, writes streams fence.entityId = false →
        (s.held fence.entityId).head = fence.head := by
  simp only [failures, List.append_eq_nil_iff, List.filterMap_eq_nil_iff]
  refine and_congr_right fun _ => forall₂_congr fun fence _ => ?_
  by_cases h : writes streams fence.entityId = true <;> simp [h, fenceFailure]

theorem checkRanked_eq_ok {streams : List (Commit Empty)} {fences : List ReadFence} :
    checkRanked s streams fences = .ok () ↔ failures s streams fences = [] := by
  unfold checkRanked
  split
  · rename_i error h
    simp only [reduceCtorEq, false_iff]
    intro hnil
    simp [Heads.rank_eq_none.mpr hnil] at h
  · rename_i h
    simp [Heads.rank_eq_none.mp h]

theorem check_eq_ok : w.check s = .ok () ↔ w.checkRetention s.manifest = .ok () ∧ w.Accepted s := by
  have hviews : checkViewConditions s.views w.views = .ok () ↔
      ∀ view ∈ w.views, viewHolds s.views[view.op.key]? view.op = true := by
    unfold checkViewConditions
    split
    · rename_i view h
      obtain ⟨hview, hmem⟩ := List.find?_some h, List.mem_of_find?_eq_some h
      simp only [reduceCtorEq, false_iff, not_forall]
      exact ⟨view, hmem, by simpa using hview⟩
    · rename_i h
      simpa using h
  have houtcome : checkOutcomeRow s w.outcome = .ok () ↔
      ∀ outcome, w.outcome = some outcome → s.outcomes[outcome.commandId]? = none := by
    cases w.outcome with
    | none => simp [checkOutcomeRow]
    | some outcome => simp [checkOutcomeRow]
  simp only [check, checkWrite, seq_eq_ok, checkRanked_eq_ok, hviews, houtcome, failures_eq_nil]
  constructor
  · rintro ⟨hretention, hrebuild, ho, ⟨hs, hf⟩, hv⟩
    exact ⟨hretention, hrebuild, ho, hs, hf, hv⟩
  · rintro ⟨hretention, hrebuild, ho, hs, hf, hv⟩
    exact ⟨hretention, hrebuild, ho, ⟨hs, hf⟩, hv⟩

end Write

namespace Request

def outcome : Request → Option Outcome
  | .commit c => c.outcome
  | .transaction t => t.outcome

/-- The write a commit call plans, nothing, or the refusal made before any store is read. -/
def plan (E : Env) : Request → Except Error (Option Write)
  | .commit c => do
    MemRepository.checkCommit E c
    if c.events.isEmpty && c.outcome.isNone then return none
    else do
      MemRepository.budget E c
      return some (.ofCommit c)
  | .transaction t => do
    let t ← t.normalize E
    if t.isEmpty then return none
    else do
      MemRepository.transactionBudget E t
      return some (.ofTransaction t)

def run (E : Env) (r : MemRepository) : Request → Except Error Unit × MemRepository
  | .commit c => r.commit E c
  | .transaction t => r.commitTransaction E t

end Request

namespace MemRepository

def perform (E : Env) (r : MemRepository) (w : Write) : Except Error Unit × MemRepository :=
  r.write E w.streams w.fences w.views w.outcome w.checkRetention

end MemRepository

theorem Request.run_eq (E : Env) (r : MemRepository) (q : Request) :
    q.run E r = match q.plan E with
      | .error error => (.error error, r)
      | .ok none => (.ok (), r)
      | .ok (some w) => r.perform E w := by
  cases q with
  | commit c =>
    simp only [Request.run, Request.plan, MemRepository.commit]
    cases MemRepository.checkCommit E c with
    | error error => rfl
    | ok u =>
      by_cases hempty : (c.events.isEmpty && c.outcome.isNone) = true
      · simp [hempty, bind, Except.bind, pure, Except.pure]
      · simp only [hempty, bind, Except.bind]
        cases MemRepository.budget E c <;> rfl
  | transaction t =>
    simp only [Request.run, Request.plan, MemRepository.commitTransaction]
    cases t.normalize E with
    | error error => rfl
    | ok n =>
      by_cases hempty : n.isEmpty = true
      · simp [hempty, bind, Except.bind, pure, Except.pure]
      · simp only [hempty, bind, Except.bind]
        cases MemRepository.transactionBudget E n <;> rfl

variable {E : Env}

/-- A planned write comes from a validated commit or a normalized transaction. -/
theorem Request.plan_eq_some {q : Request} (h : q.plan E = .ok (some w)) :
    (∃ c, (q = .commit c ∧ MemRepository.checkCommit E c = .ok ()) ∧ w = .ofCommit c) ∨
    ∃ t, (q = .transaction t ∧ t.normalize E = .ok t.normalized) ∧
      w = .ofTransaction t.normalized := by
  cases q with
  | commit c =>
    simp only [plan, seq_eq_ok] at h
    obtain ⟨hvalid, h⟩ := h
    split at h
    · cases h
    · obtain ⟨-, h⟩ := seq_eq_ok.mp h
      cases h
      exact .inl ⟨c, ⟨rfl, hvalid⟩, rfl⟩
  | transaction t =>
    simp only [plan, bind_eq_ok] at h
    obtain ⟨n, hn, h⟩ := h
    obtain ⟨rfl, -⟩ := TransactionCommit.normalize_ok hn
    split at h
    · cases h
    · obtain ⟨-, h⟩ := seq_eq_ok.mp h
      cases h
      exact .inr ⟨t, ⟨rfl, hn⟩, rfl⟩

theorem Request.plan_sound {q : Request} (h : q.plan E = .ok (some w)) : w.Sound := by
  rcases plan_eq_some h with ⟨c, ⟨-, hc⟩, rfl⟩ | ⟨t, ⟨-, ht⟩, rfl⟩
  · have hv := Commit.validate_ok (seq_eq_ok.mp hc).1
    exact ⟨by simpa [Write.ofCommit] using hv, by simp [Write.ofCommit],
      by simpa [Write.ofCommit] using hv.views, by simp [Write.ofCommit]⟩
  · obtain ⟨-, hnormal⟩ := TransactionCommit.normalize_ok ht
    exact ⟨hnormal.valid, hnormal.sorted, hnormal.views, hnormal.unwritten⟩

namespace MemRepository

theorem checkManifest_stores (E : Env) (r : MemRepository) :
    (r.checkManifest E).2.stores =
      { r.stores with manifest := (r.checkManifest E).2.stores.manifest } := by
  unfold checkManifest
  split
  · rfl
  · split
    · rfl
    · split <;> rfl
    · rfl

/-- A write stops at the marker check, at a later check, or applies. -/
theorem perform_cases (E : Env) (r : MemRepository) (w : Write) :
    (∃ error, (r.checkManifest E).1 = .error error ∧
      r.perform E w = (.error error, (r.checkManifest E).2)) ∨
    ((r.checkManifest E).1 = .ok () ∧ ∃ error,
      w.check (r.checkManifest E).2.stores = .error error ∧
      r.perform E w = (.error error, (r.checkManifest E).2)) ∨
    ((r.checkManifest E).1 = .ok () ∧ w.check (r.checkManifest E).2.stores = .ok () ∧
      r.perform E w = (.ok (), { (r.checkManifest E).2 with
        stores := w.apply (r.checkManifest E).2.stores })) := by
  unfold perform write
  rcases hm : r.checkManifest E with ⟨_ | _, r'⟩
  · exact .inl ⟨_, rfl, rfl⟩
  · cases hc : w.check r'.stores with
    | error error =>
      refine .inr (.inl ⟨rfl, error, rfl, ?_⟩)
      simp only [Write.check] at hc
      simp [hc]
    | ok u =>
      refine .inr (.inr ⟨rfl, rfl, ?_⟩)
      simp only [Write.check] at hc
      simp [hc, Write.apply]

theorem perform_eq_ok {r r' : MemRepository} (h : r.perform E w = (.ok (), r')) :
    w.Accepted r.stores ∧ r'.stores =
      { w.apply r.stores with manifest := (r.checkManifest E).2.stores.manifest } := by
  rcases perform_cases E r w with ⟨e, -, he⟩ | ⟨-, e, -, he⟩ | ⟨-, hcheck, hok⟩
  · simp [he] at h
  · simp [he] at h
  · rw [hok] at h
    obtain ⟨-, rfl⟩ := Prod.mk.inj h
    have haccepted := (Write.check_eq_ok.mp hcheck).2
    rw [checkManifest_stores] at haccepted
    refine ⟨⟨haccepted.rebuild, haccepted.outcome, haccepted.streams, haccepted.fences,
      haccepted.views⟩, ?_⟩
    conv_lhs => rw [show (r.checkManifest E).2.stores = _ from checkManifest_stores E r]
    rfl

theorem perform_eq_error {r r' : MemRepository} {error : Error}
    (h : r.perform E w = (.error error, r')) : r' = (r.checkManifest E).2 := by
  rcases perform_cases E r w with ⟨e, -, he⟩ | ⟨-, e, -, he⟩ | ⟨-, -, hok⟩
  · rw [he] at h
    exact (Prod.mk.inj h).2.symm
  · rw [he] at h
    exact (Prod.mk.inj h).2.symm
  · simp [hok] at h

end MemRepository

end EventStore
