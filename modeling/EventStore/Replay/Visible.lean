import EventStore.Core.Projection

/-!
What a projector can tell apart. Commits that differ only in what its view leaves out are one view
to it: the engine's allocations, and what the history it names does not show.
-/
namespace EventStore

open Result

namespace CommitView

/-- Events that differ at most in the engine's allocation. -/
def SameEvent (event event' : SerializedEvent) : Prop :=
  { event with metadata := { event.metadata with extensions := ∅ } } =
      { event' with metadata := { event'.metadata with extensions := ∅ } } ∧
    ∀ key : String, key ≠ engineAllocationKey →
      event.metadata.extensions[key]? = event'.metadata.extensions[key]?

/-- Streams that differ at most in what a projector of the history does not see. -/
structure SameStream (history : List EntityType) (stream stream' : CommitStream) : Prop where
  entityId : stream.entityId = stream'.entityId
  entityType : stream.entityType = stream'.entityType
  state : history = [] ∨ stream.entityType ∈ history → stream.state = stream'.state
  events : stream.entityType ∈ history → List.Forall₂ SameEvent stream.events stream'.events

structure SameFor (history : List EntityType) (view view' : CommitView) : Prop where
  commitId : history ≠ [] → view.commitId = view'.commitId
  streams : List.Forall₂ (SameStream history) view.streams view'.streams

theorem SameEvent.withoutAllocation_eq {event event' : SerializedEvent}
    (h : SameEvent event event') : withoutAllocation event = withoutAllocation event' := by
  have hextensions : event.metadata.extensions.erase engineAllocationKey =
      event'.metadata.extensions.erase engineAllocationKey := by
    refine OrdMap.ext_get fun key => ?_
    rw [OrdMap.get_erase, OrdMap.get_erase]
    split
    · rfl
    · exact h.2 key ‹_›
  have hrest := congrArg (fun e : SerializedEvent => { e with metadata :=
    { e.metadata with extensions := event.metadata.extensions.erase engineAllocationKey } }) h.1
  simpa only [withoutAllocation, hextensions] using hrest

theorem map_eq_of_forall₂ {α β : Type*} {R : α → α → Prop} {f : α → β}
    (hf : ∀ a b, R a b → f a = f b) {l l' : List α} (h : List.Forall₂ R l l') :
    l.map f = l'.map f := by
  induction h with
  | nil => rfl
  | cons hab _ ih => rw [List.map_cons, List.map_cons, hf _ _ hab, ih]

theorem SameFor.visibleTo_eq {history : List EntityType} {view view' : CommitView}
    (h : SameFor history view view') :
    view.visibleTo history false = view'.visibleTo history false := by
  simp only [visibleTo, shown, Bool.false_eq_true, ite_false, List.map_map]
  cases history with
  | nil =>
    refine congrArg (CommitView.mk "") (map_eq_of_forall₂ (fun s s' hs => ?_) h.streams)
    simp [hs.entityId, hs.entityType, hs.state (.inl rfl)]
  | cons first more =>
    simp only [List.isEmpty_cons, Bool.false_eq_true, ite_false, h.commitId (List.cons_ne_nil _ _)]
    refine congrArg (CommitView.mk _) (map_eq_of_forall₂ (fun s s' hs => ?_) h.streams)
    by_cases hnamed : s.entityType ∈ first :: more
    · have hevents := map_eq_of_forall₂ (fun _ _ he => SameEvent.withoutAllocation_eq he)
        (hs.events hnamed)
      simp [← hs.entityType, hs.entityId, hs.state (.inr hnamed), hevents]
    · have hcontains : (first :: more).contains s.entityType = false := by simpa using hnamed
      simp only [Function.comp_apply, ← hs.entityType, hcontains, hs.entityId,
        Bool.false_eq_true, ite_false]

theorem SameFor.checkOwner_eq {history : List EntityType} {view view' : CommitView}
    (h : SameFor history view view') (item : ProjectedView) :
    checkOwner item view history = checkOwner item view' history := by
  obtain ⟨-, hstreams⟩ := h
  unfold checkOwner
  generalize view.streams = streams at hstreams
  generalize view'.streams = streams' at hstreams
  induction hstreams with
  | nil => rfl
  | @cons s s' streams streams' hs _ ih =>
    rw [List.find?_cons, List.find?_cons, ← hs.entityId]
    cases s.entityId == item.op.owner with
    | true => simp only [hs.entityType]
    | false => exact ih

end CommitView

section Projecting

open CommitView

variable {view view' : CommitView}

theorem checkEmitted_eq {projector : CommitProjector} (h : SameFor projector.history view view')
    (items : List ProjectedView) :
    checkEmitted projector view items = checkEmitted projector view' items := by
  induction items with
  | nil => rfl
  | cons item items ih => rw [checkEmitted, checkEmitted, h.checkOwner_eq, ih]

theorem projectOne_eq {projector : CommitProjector}
    (happlication : projector.engineMetadata = false)
    (h : SameFor projector.history view view') (index : Nat) :
    projectOne view projector index = projectOne view' projector index := by
  simp only [projectOne, happlication, h.visibleTo_eq, checkEmitted_eq h]

/-- Projectors that cannot tell two commits apart see, emit and check the same. -/
theorem projectors_given_same_views {projectors : List (CommitProjector × Nat)}
    (happlication : ∀ p ∈ projectors, p.1.engineMetadata = false)
    (h : ∀ p ∈ projectors, SameFor p.1.history view view') :
    (∀ p ∈ projectors,
      view.visibleTo p.1.history p.1.engineMetadata =
        view'.visibleTo p.1.history p.1.engineMetadata ∧
        p.1.project (view.visibleTo p.1.history p.1.engineMetadata) =
          p.1.project (view'.visibleTo p.1.history p.1.engineMetadata)) ∧
      projectWith projectors view = projectWith projectors view' := by
  have hvisible : ∀ p ∈ projectors, view.visibleTo p.1.history p.1.engineMetadata =
      view'.visibleTo p.1.history p.1.engineMetadata := fun p hp => by
    rw [happlication p hp, (h p hp).visibleTo_eq]
  refine ⟨fun p hp => ⟨hvisible p hp, by rw [hvisible p hp]⟩, ?_⟩
  have heach : projectEach view projectors = projectEach view' projectors := by
    clear hvisible
    induction projectors with
    | nil => rfl
    | cons p projectors ih =>
      rw [List.forall_mem_cons] at happlication h
      rw [projectEach, projectEach, projectOne_eq happlication.1 h.1, ih happlication.2 h.2]
  rw [projectWith, projectWith, heach]

def orderEvent (extensions : OrdMap String String) : SerializedEvent :=
  ⟨"order-1:1", 1, "placed", 1, "order-1", "order", .empty, { extensions, commitId := "c1" }⟩

def orderCommit (extensions : OrdMap String String) (events : List SerializedEvent) : CommitView :=
  ⟨"c1", [⟨"order-1", "order", [orderEvent extensions], .empty⟩,
    ⟨"user-1", "user", events, .empty⟩]⟩

theorem orderCommit_same (history : List EntityType) (huser : "user" ∉ history)
    (allocations : String) (events : List SerializedEvent) :
    SameFor history (orderCommit ∅ [])
      (orderCommit (.insert ∅ engineAllocationKey allocations) events) := by
  have hevent : SameEvent (orderEvent ∅)
      (orderEvent (.insert ∅ engineAllocationKey allocations)) :=
    ⟨rfl, fun key hkey => (OrdMap.get_insert_ne _ _ hkey).symm⟩
  exact ⟨fun _ => rfl, .cons ⟨rfl, rfl, fun _ => rfl, fun _ => .cons hevent .nil⟩
    (.cons ⟨rfl, rfl, fun _ => rfl, fun h => absurd h huser⟩ .nil)⟩

/-- The same commit before and after its allocation, to a projector of orders and one of states. -/
theorem projectors_given_same_views_allocated :
    projectWith [(⟨"orders", ["order"], false, fun _ => .ok []⟩, 0),
        (⟨"states", [], false,
          fun view => if view.commitId = "" then .ok [] else .error "history"⟩, 1)]
        (orderCommit ∅ []) =
      projectWith [(⟨"orders", ["order"], false, fun _ => .ok []⟩, 0),
        (⟨"states", [], false,
          fun view => if view.commitId = "" then .ok [] else .error "history"⟩, 1)]
        (orderCommit (.insert ∅ engineAllocationKey "[7]") [orderEvent ∅]) := by
  refine (projectors_given_same_views ?_ ?_).2
  · simp
  · intro p hp
    simp only [List.mem_cons, List.not_mem_nil, or_false] at hp
    rcases hp with rfl | rfl
    · exact orderCommit_same ["order"] (by decide) "[7]" [orderEvent ∅]
    · exact orderCommit_same [] (by decide) "[7]" [orderEvent ∅]

end Projecting

end EventStore
