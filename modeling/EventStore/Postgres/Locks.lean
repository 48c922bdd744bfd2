import EventStore.Core.PostgresLocks
import Mathlib.Data.Prod.Lex
import Mathlib.Data.List.Sort

/-!
The advisory locks of PostgreSQL transactions. A commit locks the hashes of its streams in the
order of their IDs, so the keys ascend in one order only as long as the hash does not confuse IDs.
-/
namespace EventStore.Postgres

open Encodings Locking

variable {κ : Type*}

section Order

variable {α : Type*} [LinearOrder α] {hash : String → κ} {rank : κ → α}

/-- Every key that is met for the first time is above all those before it. -/
def FirstAscending (rank : κ → α) (keys : List κ) : Prop :=
  ∀ before key after, keys = before ++ key :: after → key ∉ before →
    ∀ earlier ∈ before, rank earlier < rank key

/-- The keys of a transaction's streams, in the order of their IDs, ascend in the ranking. -/
def Transaction.Ascends (hash : String → κ) (rank : κ → α) (x : Transaction) : Prop :=
  FirstAscending rank (x.streams.map hash)

/-- The ranking of keys by their space first. -/
def spaced (rank : κ → α) (key : Nat × κ) : Nat ×ₗ α := toLex (key.1, rank key.2)

/-- Nested requests for exclusive locks are for streams. -/
def Nested (lock : Lock (Nat × κ)) : Prop := lock.mode = .exclusive → lock.key.1 = entitySpace

theorem nested_entityLock (entityId : String) : Nested (entityLock hash entityId) := fun _ => rfl

theorem nested_featuresLockShared (key : String) : Nested (featuresLockShared hash key) := by
  intro h
  cases h

theorem not_conflicts_featuresLockShared {other : Lock (Nat × κ)} {key : String}
    (hother : Nested other) : ¬other.Conflicts (featuresLockShared hash key) := by
  rintro ⟨hkey, hexclusive | hexclusive⟩
  · have hspace := hother hexclusive
    rw [hkey] at hspace
    cases hspace
  · cases hexclusive

theorem ordered_singleton (lock : Lock (Nat × κ)) : Ordered (spaced rank) Nested [lock] where
  requests before other after h hne := by
    cases before with
    | nil => exact absurd rfl hne
    | cons a before => simp at h
  ascending before other after h _ held hheld := by
    cases before with
    | nil => exact absurd hheld List.not_mem_nil
    | cons a before => simp at h

theorem ordered_append (ids keys : List String) (hids : FirstAscending rank (ids.map hash)) :
    Ordered (spaced rank) Nested
      (ids.map (entityLock hash) ++ keys.map (featuresLockShared hash)) where
  requests before lock after h _ := by
    have hmem : lock ∈ before ++ lock :: after := by simp
    rw [← h, List.mem_append, List.mem_map, List.mem_map] at hmem
    rcases hmem with ⟨id, -, rfl⟩ | ⟨key, -, rfl⟩
    · exact nested_entityLock id
    · exact nested_featuresLockShared key
  ascending before lock after h hnew held hheld hconflicts := by
    obtain ⟨other, hother, hconflict⟩ := hconflicts
    have hstream : held ∈ ids.map (entityLock hash) := by
      have hmem : held ∈ before ++ lock :: after := List.mem_append_left _ hheld
      rw [← h, List.mem_append] at hmem
      refine hmem.resolve_right fun hshared => ?_
      obtain ⟨key, -, rfl⟩ := List.mem_map.mp hshared
      exact not_conflicts_featuresLockShared hother hconflict
    obtain ⟨id, -, rfl⟩ := List.mem_map.mp hstream
    have hlater : lock ∈ keys.map (featuresLockShared hash) →
        spaced rank (entityLock hash id).key < spaced rank lock.key := by
      intro hlock
      obtain ⟨key, -, rfl⟩ := List.mem_map.mp hlock
      exact Prod.Lex.toLex_lt_toLex.mpr (.inl (show entitySpace < featuresSpace by decide))
    obtain ⟨more, -, hrest⟩ | ⟨more, hsplit, hrest⟩ := List.append_eq_append_iff.mp h
    · exact hlater (by rw [hrest]; simp)
    · cases more with
      | nil => exact hlater (by rw [← List.nil_append (keys.map _), ← hrest]; simp)
      | cons first more =>
        obtain ⟨rfl, -⟩ := List.cons.inj hrest
        obtain ⟨front, back, rfl, rfl, hback⟩ := List.map_eq_append_iff.mp hsplit
        obtain ⟨id', back, rfl, rfl, -⟩ := List.map_eq_cons_iff.mp hback
        refine Prod.Lex.toLex_lt_toLex.mpr (.inr ⟨rfl, ?_⟩)
        refine hids (front.map hash) (hash id') (back.map hash) (by simp) (fun hmem => hnew ?_) _ ?_
        · obtain ⟨i, hi, heq⟩ := List.mem_map.mp hmem
          exact List.mem_map.mpr ⟨i, hi, by rw [entityLock, heq, entityLock]⟩
        · obtain ⟨i, hi, heq⟩ := List.mem_map.mp hheld
          simp only [entityLock, Lock.mk.injEq, Prod.mk.injEq, true_and, and_true] at heq
          exact List.mem_map.mpr ⟨i, hi, heq⟩

theorem Transaction.Ascends.ordered {x : Transaction} (h : x.Ascends hash rank) :
    Ordered (spaced rank) Nested (x.locks hash) := by
  cases x with
  | writeCommit events written fenced =>
    exact ordered_append _ [featuresLockKey events, rebuildLockKey events] h
  | putSnapshot events entityId =>
    refine ordered_append [entityId] [featuresLockKey events] ?_
    intro before key after hkeys
    cases before with
    | nil => exact fun _ _ hearlier => absurd hearlier List.not_mem_nil
    | cons a before => simp at hkeys
  | compactBelow events => exact ordered_singleton _
  | writeCompaction events epoch =>
    cases epoch with
    | true => exact ordered_singleton _
    | false => exact ordered_nil
  | declare events => exact ordered_singleton _
  | rebuildLifecycle events => exact ordered_singleton _
  | ensureSchema events => exact ordered_singleton _

/-- A hash that tells the streams apart ranks its keys as their IDs. -/
theorem ascends_of_injOn {ids : Set String} (hinj : Set.InjOn hash ids) {x : Transaction}
    (hx : ∀ id ∈ x.streams, id ∈ ids) :
    x.Ascends hash (Function.invFunOn hash ids) := by
  have hsorted : x.streams.Pairwise (· < ·) := by
    cases x with
    | writeCommit events written fenced =>
      have hascending := (written ++ fenced).pairwise_insertionSort (· ≤ ·)
      exact pairwise_compact (Function.injective_id : Function.Injective (id : String → String))
        hascending
    | putSnapshot | compactBelow | writeCompaction | declare | rebuildLifecycle | ensureSchema =>
      exact .nil
  intro before key after hkeys _ earlier hearlier
  obtain ⟨front, back, hsplit, rfl, hback⟩ := List.map_eq_append_iff.mp hkeys
  obtain ⟨later, back, rfl, rfl, -⟩ := List.map_eq_cons_iff.mp hback
  obtain ⟨first, hfirst, rfl⟩ := List.mem_map.mp hearlier
  rw [hsplit] at hsorted hx
  rw [hinj.leftInvOn_invFunOn (hx first (by simp [hfirst])),
    hinj.leftInvOn_invFunOn (hx later (by simp))]
  exact (List.pairwise_append.mp hsorted).2.2 first hfirst later List.mem_cons_self

end Order

section Runs

variable {hash : String → κ} {begun : List Transaction} {s : State (Nat × κ)}

/-- Commits that take their keys in the order of one ranking never wait in a circle; a hash without
collisions is enough. -/
theorem advisory_locks_not_deadlocked (h : Run (begun.map (·.locks hash)) s) :
    (∀ (α : Type) [LinearOrder α] (rank : κ → α), (∀ x ∈ begun, x.Ascends hash rank) →
        ¬Deadlocked s) ∧
      (Set.InjOn hash {id | ∃ x ∈ begun, id ∈ x.streams} → ¬Deadlocked s) := by
  have hranked : ∀ (α : Type) [LinearOrder α] (rank : κ → α),
      (∀ x ∈ begun, x.Ascends hash rank) → ¬Deadlocked s := by
    intro α _ rank hbegun
    have hordered : ∀ program ∈ begun.map (·.locks hash), Ordered (spaced rank) Nested program := by
      intro program hprogram
      obtain ⟨x, hx, rfl⟩ := List.mem_map.mp hprogram
      exact (hbegun x hx).ordered
    exact h.not_deadlocked hordered
  refine ⟨hranked, fun hinj => ?_⟩
  have hascends : ∀ x ∈ begun, x.Ascends hash (Function.invFunOn hash _) := fun x hx =>
    ascends_of_injOn hinj fun id hid => ⟨x, hx, hid⟩
  exact hranked String _ hascends

def commitOf (ids : List String) : Transaction := .writeCommit "evt_events" ids []

/-- Without collisions: a commit of two streams and a declaration, both begun. -/
theorem advisory_locks_not_deadlocked_begun :
    ¬Deadlocked ((State.idle.set 0 ⟨[], (commitOf ["b", "a"]).locks id⟩).set 1
      ⟨[], (Transaction.declare "evt_events").locks id⟩) := by
  have hrun : Run ([.declare "evt_events", commitOf ["b", "a"]].map (·.locks id)) _ :=
    .begins (.begins .idle 0 _ ⟨rfl, rfl⟩) 1 _ ⟨rfl, rfl⟩
  exact (advisory_locks_not_deadlocked hrun).2 Function.injective_id.injOn

def collidingHash (name : String) : Nat := if name = "b" then 2 else 1

/-- Each commit has locked the key that the other one wants next. -/
theorem colliding_commits_deadlock :
    ∃ s, Run ([commitOf ["b", "c"], commitOf ["a", "b"]].map (·.locks collidingHash)) s ∧
      Deadlocked s := by
  have hfirst : (commitOf ["a", "b"]).locks collidingHash = ⟨(entitySpace, 1), .exclusive⟩ ::
      ⟨(entitySpace, 2), .exclusive⟩ :: ((commitOf ["a", "b"]).locks collidingHash).drop 2 := by
    decide +kernel
  have hsecond : (commitOf ["b", "c"]).locks collidingHash = ⟨(entitySpace, 2), .exclusive⟩ ::
      ⟨(entitySpace, 1), .exclusive⟩ :: ((commitOf ["b", "c"]).locks collidingHash).drop 2 := by
    decide +kernel
  rw [List.map_cons, List.map_cons, List.map_nil, hfirst, hsecond]
  refine ⟨_,
    .acquires (.acquires (.begins (.begins .idle 0 _ ⟨rfl, rfl⟩) 1 _ ⟨rfl, rfl⟩) 0 _ _ rfl ?_)
    1 _ _ rfl ?_, 0, .tail (b := 1) (.single ?_) ?_⟩
  · intro u hu held hheld
    by_cases hone : u = 1 <;> simp [State.set, State.idle, hone, hu] at hheld
  · intro u hu held hheld
    by_cases hzero : u = 0 <;> simp [State.set, State.idle, hzero, hu] at hheld
    subst hheld
    simp [Lock.Conflicts]
  · exact ⟨by decide, _, rfl, _, List.mem_singleton_self _, rfl, .inl rfl⟩
  · exact ⟨by decide, _, rfl, _, List.mem_singleton_self _, rfl, .inl rfl⟩

end Runs

end EventStore.Postgres
