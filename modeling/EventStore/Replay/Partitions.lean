import EventStore.Core.Partitions

/-!
What Go's enumeration of the in-memory store yields, for an aggregate that applies every event: the
streams, joined where the aggregate does not name the entity it is of.
-/
namespace EventStore
namespace Partitions

section Total

variable {σ : Type} (apply : SerializedEvent → Option σ → σ) (getId : σ → EntityId)

def total (event : SerializedEvent) (aggregate : Option σ) : Option σ × Option Empty :=
  (some (apply event aggregate), none)

/-- The same with the events each aggregate was folded from. -/
def traced (event : SerializedEvent) (aggregate : Option (σ × List SerializedEvent)) :
    σ × List SerializedEvent :=
  (apply event (aggregate.map (·.1)), (aggregate.map (·.2)).getD [] ++ [event])

def folded : σ → List SerializedEvent → σ :=
  List.foldl fun aggregate event => apply event (some aggregate)

/-- The streams an enumeration should yield: what is visited and has events. -/
def streams (filter : StreamFilter) (partitions : List Partition) : List (List SerializedEvent) :=
  ((partitions.filter (isVisited filter)).map fun partition =>
    partition.events.filter (·.sequence ≠ 0)).filter (· ≠ [])

def eachOnce : List (List SerializedEvent) → List (σ × List SerializedEvent)
  | [] => []
  | [] :: streams => eachOnce streams
  | (first :: events) :: streams =>
    (folded apply (apply first none) events, first :: events) :: eachOnce streams

/-- Every next event of the stream names the aggregate so far. -/
def Joined (aggregate : σ) : List SerializedEvent → Prop
  | [] => True
  | event :: events =>
    event.entityId = getId aggregate ∧ Joined (apply event (some aggregate)) events

/-- No event follows the aggregate, or one that does not name it. -/
def Ends (aggregate : σ) (events : List SerializedEvent) : Prop :=
  ∀ next ∈ events.head?, next.entityId ≠ getId aggregate

/-- The events of each stream are joined, and its aggregate ends at the next. -/
def Told : List (List SerializedEvent) → Prop
  | [] => True
  | [] :: streams => Told streams
  | (first :: events) :: streams =>
    Joined apply getId (apply first none) events ∧
      Ends getId (folded apply (apply first none) events) streams.flatten ∧ Told streams

def remaining : Option σ → List SerializedEvent → List σ
  | aggregate, [] => aggregate.toList
  | none, event :: events => remaining (some (apply event none)) events
  | some aggregate, event :: events =>
    if event.entityId = getId aggregate then remaining (some (apply event (some aggregate))) events
    else aggregate :: remaining (some (apply event none)) events

theorem foldl_takeEvent (events : List SerializedEvent) (state : State σ Empty) :
    let after := events.foldl (takeEvent getId (total apply)) state
    after.2 ++ (after.1.map Yield.ok).toList =
      state.2 ++ (remaining apply getId state.1 (events.filter (·.sequence ≠ 0))).map .ok := by
  induction events generalizing state with
  | nil => obtain ⟨_ | aggregate, sent⟩ := state <;> rfl
  | cons event events ih =>
    rw [List.foldl_cons]
    refine (ih _).trans ?_
    by_cases hzero : event.sequence = 0
    · simp [takeEvent, hzero]
    · obtain ⟨_ | aggregate, sent⟩ := state
      · simp [takeEvent, hzero, finishStream, total, remaining]
      · by_cases hsame : event.entityId = getId aggregate <;>
          simp [takeEvent, hzero, finishStream, total, remaining, hsame]

theorem streamEntities_eq (filter : StreamFilter) (partitions : List Partition) :
    streamEntities getId (total apply) filter partitions =
      (remaining apply getId none (streams filter partitions).flatten).map .ok := by
  have hevents : (streams filter partitions).flatten =
      ((partitions.filter (isVisited filter)).flatMap (·.events)).filter (·.sequence ≠ 0) := by
    rw [streams, List.flatten_filter_ne_nil, List.filter_flatMap, List.flatMap_def]
  rw [streamEntities, hevents, ← List.foldl_filter, ← List.foldl_flatMap]
  exact (foldl_takeEvent apply getId _ _).trans (List.nil_append _)

theorem remaining_traced (events : List SerializedEvent)
    (aggregate : Option (σ × List SerializedEvent)) :
    (remaining (traced apply) (getId ∘ Prod.fst) aggregate events).map Prod.fst =
      remaining apply getId (aggregate.map Prod.fst) events := by
  induction events generalizing aggregate with
  | nil => cases aggregate <;> rfl
  | cons event events ih =>
    cases aggregate with
    | none => exact ih _
    | some aggregate =>
      by_cases hsame : event.entityId = getId aggregate.1
      · simp only [remaining, Option.map_some, Function.comp_apply, hsame, if_true]
        exact ih _
      · simp only [remaining, Option.map_some, Function.comp_apply, hsame, if_false, List.map_cons]
        exact congrArg _ (ih _)

/-- What is sent next was folded from all that is held. -/
theorem remaining_head (aggregate : σ) (seen events : List SerializedEvent) :
    ∃ next more sent, remaining (traced apply) (getId ∘ Prod.fst) (some (aggregate, seen)) events =
      (next, seen ++ more) :: sent := by
  induction events generalizing aggregate seen with
  | nil => exact ⟨aggregate, [], [], by simp [remaining]⟩
  | cons event events ih =>
    by_cases hsame : event.entityId = getId aggregate
    · obtain ⟨next, more, sent, h⟩ := ih (apply event (some aggregate)) (seen ++ [event])
      refine ⟨next, event :: more, sent, ?_⟩
      simp only [remaining, Function.comp_apply, hsame, if_true, traced, Option.map_some,
        Option.getD_some, h]
      simp
    · exact ⟨aggregate, [], _, by
        simp only [remaining, Function.comp_apply, hsame, if_false, List.append_nil]; rfl⟩

/-- The rest of a stream is taken whole exactly if its events are joined. -/
theorem remaining_stream {Ended : σ → Prop} {tail : List SerializedEvent}
    {sent : List (σ × List SerializedEvent)}
    (htail : ∀ aggregate seen,
      remaining (traced apply) (getId ∘ Prod.fst) (some (aggregate, seen)) tail =
      (aggregate, seen) :: sent ↔ Ended aggregate) (events : List SerializedEvent) (aggregate : σ)
    (seen : List SerializedEvent) :
    remaining (traced apply) (getId ∘ Prod.fst) (some (aggregate, seen)) (events ++ tail) =
        (folded apply aggregate events, seen ++ events) :: sent ↔
      Joined apply getId aggregate events ∧ Ended (folded apply aggregate events) := by
  induction events generalizing aggregate seen with
  | nil => simpa [Joined, folded] using htail aggregate seen
  | cons event events ih =>
    have hstep := ih (apply event (some aggregate)) (seen ++ [event])
    rw [List.append_assoc, List.singleton_append] at hstep
    by_cases hsame : event.entityId = getId aggregate
    · simp only [List.cons_append, remaining, Function.comp_apply, hsame, if_true, Joined, true_and]
      exact hstep
    · simp [remaining, hsame, Joined]

theorem remaining_streams (streams : List (List SerializedEvent)) (aggregate : σ)
    (seen : List SerializedEvent) :
    remaining (traced apply) (getId ∘ Prod.fst) (some (aggregate, seen)) streams.flatten =
        (aggregate, seen) :: eachOnce apply streams ↔
      Ends getId aggregate streams.flatten ∧ Told apply getId streams := by
  fun_induction eachOnce apply streams generalizing aggregate seen with
  | case1 => simp [remaining, Ends, Told]
  | case2 streams ih => exact ih aggregate seen
  | case3 first events streams ih =>
    rw [List.flatten_cons, List.cons_append]
    by_cases hsame : first.entityId = getId aggregate
    · obtain ⟨next, more, sent, h⟩ := remaining_head apply getId (apply first (some aggregate))
        (seen ++ [first]) (events ++ streams.flatten)
      refine iff_of_false (fun heq => ?_) fun hends => hends.1 first rfl hsame
      simp only [remaining, Function.comp_apply, hsame, if_true] at heq
      have := congrArg (fun sent => (sent.head?.map (·.2.length)).getD 0) (h.symm.trans heq)
      simp at this
    · simp only [remaining, Function.comp_apply, hsame, if_false, List.cons.injEq, true_and]
      refine (remaining_stream apply getId ih events (apply first none) [first]).trans ?_
      simp [Ends, Told, hsame]

theorem remaining_all (streams : List (List SerializedEvent)) :
    remaining (traced apply) (getId ∘ Prod.fst) none streams.flatten = eachOnce apply streams ↔
      Told apply getId streams := by
  fun_induction eachOnce apply streams with
  | case1 => simp [remaining, Told]
  | case2 streams ih => exact ih
  | case3 first events streams _ =>
    exact remaining_stream apply getId (remaining_streams apply getId streams) events
      (apply first none) [first]

/-- Each stream is yielded once, with its own events, if and only if the aggregates name their
streams. -/
theorem streams_yielded_once_iff (filter : StreamFilter) (partitions : List Partition) :
    (streamEntities (getId ∘ Prod.fst) (total (traced apply)) filter partitions).map
        (Yield.map Prod.fst) = streamEntities getId (total apply) filter partitions ∧
      (streamEntities (getId ∘ Prod.fst) (total (traced apply)) filter partitions =
        (eachOnce apply (streams filter partitions)).map .ok ↔
        Told apply getId (streams filter partitions)) := by
  rw [streamEntities_eq, streamEntities_eq, List.map_map]
  constructor
  · rw [show none = (none : Option (σ × List SerializedEvent)).map Prod.fst from rfl,
      ← remaining_traced, List.map_map]
    rfl
  · refine Iff.trans ?_ (remaining_all apply getId (streams filter partitions))
    exact (List.map_injective_iff.mpr fun _ _ h => Yield.ok.inj h).eq_iff

end Total

def added (sequence : Int) : SerializedEvent :=
  ⟨"a:1:" ++ toString sequence, sequence, "added", 1, "a:1", "a", .empty, {}⟩

/-- A stream whose aggregate has a shorter ID than its key is yielded twice. -/
theorem abbreviated_id_yielded_twice :
    let count := fun (_ : SerializedEvent) (aggregate : Option Nat) => aggregate.getD 0 + 1
    let partitions : List Partition := [⟨"a:1", [added 1, added 2], ""⟩]
    streamEntities (fun _ => "a") (total count) ⟨""⟩ partitions = [.ok 1, .ok 1] ∧
      (eachOnce count (streams ⟨""⟩ partitions)).map Prod.fst = [2] := by
  decide +kernel

end Partitions
end EventStore
