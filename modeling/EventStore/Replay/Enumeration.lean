import EventStore.Lib.FirstSeen
import EventStore.Core.Enumerate
import EventStore.Runs.Folding
import EventStore.Runs.Schedule

/-!
Enumeration does not depend on how the log delivers its events. What a stream still has to yield
is a function of its state, which a poll leaves as it is or takes the first item of.
-/
namespace EventStore

open FirstSeen

def eventsOf (events : List SerializedEvent) (id : EntityId) : List SerializedEvent :=
  events.filter fun event => event.entityId = id

theorem eventsOf_append (left right : List SerializedEvent) (id : EntityId) :
    eventsOf (left ++ right) id = eventsOf left id ++ eventsOf right id :=
  List.filter_append left right

variable {events : List SerializedEvent}

theorem eventsOf_eq_nil {id : EntityId} (h : id ∉ events.map (·.entityId)) :
    eventsOf events id = [] := by
  refine List.filter_eq_nil_iff.mpr fun event hevent => ?_
  simp only [decide_eq_true_eq]
  exact fun heq => h (List.mem_map.mpr ⟨event, hevent, heq⟩)

theorem eventsOf_singleton_self (event : SerializedEvent) :
    eventsOf [event] event.entityId = [event] := by
  simp [eventsOf]

/-- The entities of some events with their events, in the order in which they are first seen. -/
def grouped (events : List SerializedEvent) : List (EntityId × List SerializedEvent) :=
  (firsts (events.map (·.entityId))).map fun id => (id, eventsOf events id)

variable {group : Group}

namespace Group

structure Holds (group : Group) (events : List SerializedEvent) : Prop where
  order : group.order = firsts (events.map (·.entityId))
  events : ∀ id, group.events[id]? =
    if id ∈ events.map (·.entityId) then some (eventsOf events id) else none

theorem holds_empty : Holds .empty [] := ⟨rfl, fun id => by simp [empty]⟩

theorem Holds.push (h : Holds group events) (event : SerializedEvent) :
    Holds (group.push event) (events ++ [event]) := by
  constructor
  · rw [List.map_append, List.map_singleton, firsts_concat, see]
    simp only [Group.push, OrdMap.contains_eq, h.events, h.order, mem_firsts]
    by_cases hseen : event.entityId ∈ events.map (·.entityId)
    · rw [if_pos hseen, if_pos hseen]
      rfl
    · rw [if_neg hseen, if_neg hseen]
      rfl
  · intro id
    rw [List.map_append, List.map_singleton, eventsOf_append]
    simp only [Group.push, OrdMap.get_insert, h.events, List.mem_append, List.mem_singleton]
    by_cases hid : id = event.entityId
    · subst hid
      rw [if_pos rfl, if_pos (Or.inr rfl), eventsOf_singleton_self]
      by_cases hseen : event.entityId ∈ events.map (·.entityId)
      · rw [if_pos hseen, Option.getD_some]
      · rw [if_neg hseen, eventsOf_eq_nil hseen, Option.getD_none]
    · have hother : eventsOf [event] id = [] := eventsOf_eq_nil (by simpa using hid)
      rw [if_neg hid, hother, List.append_nil]
      simp only [hid, or_false]

theorem Holds.add (h : Holds group events) (batch : List SerializedEvent) :
    Holds (group.add batch) (events ++ batch) := by
  induction batch generalizing group events with
  | nil => simpa [Group.add] using h
  | cons event batch ih =>
    have hnext := ih (h.push event)
    rwa [List.append_assoc] at hnext

theorem remove_eq {events : OrdMap EntityId (List SerializedEvent)} {ids : List EntityId}
    {found : EntityId → List SerializedEvent} (hids : ids.Nodup)
    (h : ∀ id ∈ ids, events[id]? = some (found id)) :
    remove ids events = ids.map fun id => (id, found id) := by
  induction ids generalizing events with
  | nil => rfl
  | cons id ids ih =>
    obtain ⟨hid, hids⟩ := List.nodup_cons.mp hids
    obtain ⟨hfound, hrest⟩ := List.forall_mem_cons.mp h
    simp only [remove, hfound, List.map_cons]
    rw [ih hids fun other hother => ?_]
    have hne : other ≠ id := fun heq => hid (heq ▸ hother)
    rw [OrdMap.get_erase, if_neg hne, hrest other hother]

/-- Taking a group gives the entities in order with their events. -/
theorem Holds.take (h : Holds group events) : group.take = grouped events := by
  rw [Group.take, h.order]
  refine remove_eq (nodup_firsts _) fun id hid => ?_
  rw [h.events, if_pos (mem_firsts.mp hid)]

end Group

section Streams

variable (A : Aggregate)

def folded (entity : EntityId × List SerializedEvent) : Except Error (Loaded A) :=
  foldEntity A entity.1 entity.2

def remainingFrom (grouping : Bool) : List (Poll EventBatch) → Group →
    List (Except Error (Loaded A))
  | [], group => group.take.map (folded A)
  | .pending :: events, group => remainingFrom grouping events group
  | .ready (.error error) :: _, _ => [.error error]
  | .ready (.ok batch) :: events, group =>
    if grouping then remainingFrom grouping events (group.add batch)
    else (group.add batch).take.map (folded A) ++ remainingFrom grouping events .empty

/-- What a state still has to yield. -/
def Entities.remaining (state : Entities) : List (Except Error (Loaded A)) :=
  state.ready.map (folded A) ++
    if state.finished then [] else remainingFrom A state.grouping state.events state.group

/-- A step waits for less of the log, or takes the first of the items. -/
def EntityStep.From {A : Aggregate} (state : Entities) : EntityStep A → Prop
  | .waits next => next.remaining A = state.remaining A ∧
      next.events.length < state.events.length
  | .yields item next => state.remaining A = item :: next.remaining A ∧
      next.events.length ≤ state.events.length
  | .ends => state.remaining A = []

theorem EntityStep.From.of_remaining {A : Aggregate} {step : EntityStep A} {state other : Entities}
    (h : step.From state) (heq : other.remaining A = state.remaining A)
    (hle : state.events.length ≤ other.events.length) : step.From other := by
  cases step with
  | waits next => exact ⟨h.1.trans heq.symm, Nat.lt_of_lt_of_le h.2 hle⟩
  | yields item next => exact ⟨heq.trans h.1, Nat.le_trans h.2 hle⟩
  | ends => exact heq.trans h

theorem readEntity_from (grouping : Bool) (events : List (Poll EventBatch)) (group : Group) :
    (readEntity A grouping events group).From ⟨events, grouping, group, [], false⟩ := by
  induction events generalizing group with
  | nil =>
    rw [readEntity]
    cases htake : group.take with
    | nil => simp [readyEntity, EntityStep.From, Entities.remaining, remainingFrom, htake]
    | cons entity ready =>
      simp [readyEntity, EntityStep.From, Entities.remaining, remainingFrom, htake, folded]
  | cons poll events ih =>
    cases poll with
    | pending => exact ⟨rfl, Nat.lt_succ_self _⟩
    | ready batch =>
      cases batch with
      | error error => exact ⟨rfl, Nat.le_succ _⟩
      | ok batch =>
        rw [readEntity]
        cases grouping with
        | true =>
          rw [if_pos rfl]
          exact (ih (group.add batch)).of_remaining rfl (Nat.le_succ _)
        | false =>
          rw [if_neg Bool.false_ne_true]
          cases htake : (group.add batch).take with
          | nil =>
            refine (ih .empty).of_remaining ?_ (Nat.le_succ _)
            simp [Entities.remaining, remainingFrom, htake]
          | cons entity ready =>
            refine ⟨?_, Nat.le_succ _⟩
            simp [Entities.remaining, remainingFrom, htake, folded]

theorem nextEntity_from (state : Entities) : (nextEntity A state).From state := by
  obtain ⟨events, grouping, group, ready, finished⟩ := state
  cases ready with
  | cons entity ready => exact ⟨rfl, Nat.le_refl _⟩
  | nil =>
    cases finished with
    | true => rfl
    | false => exact readEntity_from A grouping events group

namespace Unfold

def current (stream : Unfold) : Option Entities := stream.pending.or stream.state

def remaining (stream : Unfold) : List (Except Error (Loaded A)) :=
  (stream.current.map (·.remaining A)).getD []

/-- A bound on the polls until the end. -/
def due (stream : Unfold) : Nat :=
  (stream.current.map fun state => state.events.length + (state.remaining A).length + 1).getD 0

def items : List (Poll (Option (Except Error (Loaded A)))) → List (Except Error (Loaded A))
  | [] => []
  | .ready (some item) :: results => item :: items results
  | _ :: results => items results

variable {A}

variable {stream : Unfold}

theorem pollNext_current {state : Entities} (h : stream.current = some state) :
    stream.pollNext A = after A (nextEntity A state) := by
  obtain ⟨idle, pending⟩ := stream
  cases pending with
  | some inFlight =>
    cases h
    rfl
  | none =>
    have hidle : idle = some state := h
    subst hidle
    rfl

theorem pollNext_ended (h : stream.current = none) : stream.pollNext A = (.ready none, stream) := by
  obtain ⟨idle, pending⟩ := stream
  cases pending with
  | some inFlight => cases h
  | none =>
    have hidle : idle = none := h
    subst hidle
    rfl

/-- A poll yields the first item, or none and leaves what remains. -/
theorem remaining_pollNext (stream : Unfold) :
    items A [(stream.pollNext A).1] ++ (stream.pollNext A).2.remaining A =
      stream.remaining A := by
  cases hcurrent : stream.current with
  | none =>
    rw [pollNext_ended hcurrent]
    rfl
  | some state =>
    have hfrom := nextEntity_from A state
    have hremaining : stream.remaining A = state.remaining A := by rw [remaining, hcurrent]; rfl
    rw [pollNext_current hcurrent, hremaining]
    cases hstep : nextEntity A state with
    | waits next =>
      rw [hstep] at hfrom
      exact hfrom.1
    | yields item next =>
      rw [hstep] at hfrom
      exact hfrom.1.symm
    | ends =>
      rw [hstep] at hfrom
      exact hfrom.symm

/-- A poll before the end brings it nearer. -/
theorem due_pollNext (h : 0 < stream.due A) : (stream.pollNext A).2.due A < stream.due A := by
  cases hcurrent : stream.current with
  | none => simp [due, hcurrent] at h
  | some state =>
    have hfrom := nextEntity_from A state
    rw [pollNext_current hcurrent, due, due, hcurrent]
    cases hstep : nextEntity A state with
    | waits next =>
      rw [hstep] at hfrom
      have hlt := hfrom.2
      simp [after, current, hfrom.1]
      omega
    | yields item next =>
      rw [hstep] at hfrom
      have hle := hfrom.2
      simp [after, current, hfrom.1]
      omega
    | ends => simp [after, current]

theorem items_append (left right : List (Poll (Option (Except Error (Loaded A))))) :
    items A (left ++ right) = items A left ++ items A right := by
  induction left with
  | nil => rfl
  | cons result left ih =>
    cases result with
    | pending => exact ih
    | ready item =>
      cases item with
      | none => exact ih
      | some item => exact congrArg (item :: ·) ih

theorem remaining_polls (n : Nat) (stream : Unfold) :
    items A (polls A n stream).1 ++ (polls A n stream).2.remaining A = stream.remaining A := by
  induction n generalizing stream with
  | zero => rfl
  | succ n ih =>
    have hstep := remaining_pollNext (A := A) stream
    rw [← ih, ← List.append_assoc, ← items_append] at hstep
    exact hstep

theorem due_eq_zero : stream.due A = 0 ↔ stream.current = none := by
  unfold due
  cases stream.current with
  | none => simp
  | some state => simp

theorem due_polls {n : Nat} (h : stream.due A ≤ n) : (polls A n stream).2.due A = 0 := by
  induction n generalizing stream with
  | zero => exact Nat.le_zero.mp h
  | succ n ih =>
    have hnext : (stream.pollNext A).2.due A ≤ n := by
      rcases Nat.eq_zero_or_pos (stream.due A) with hzero | hpos
      · rw [pollNext_ended (due_eq_zero.mp hzero), hzero]
        exact Nat.zero_le n
      · have hless := due_pollNext hpos
        omega
    exact ih hnext

/-- After enough polls every item was yielded, and the stream has ended. -/
theorem polls_end {n : Nat} (h : stream.due A ≤ n) :
    items A (polls A n stream).1 = stream.remaining A ∧
      (polls A n stream).2.pollNext A = (.ready none, (polls A n stream).2) := by
  have hended := due_eq_zero.mp (due_polls h)
  have hall := remaining_polls (A := A) n stream
  have hnone : (polls A n stream).2.remaining A = [] := by rw [remaining, hended]; rfl
  rw [hnone, List.append_nil] at hall
  exact ⟨hall, pollNext_ended hended⟩

end Unfold

end Streams

section Deliveries

/-- The batches a log delivers, and the failure that ends them, if one does. -/
def delivered : List (Poll EventBatch) → List (List SerializedEvent) × Option Error
  | [] => ([], none)
  | .pending :: events => delivered events
  | .ready (.error error) :: _ => ([], some error)
  | .ready (.ok batch) :: events => (batch :: (delivered events).1, (delivered events).2)

/-- A delivery: no event twice, all unless it fails, whole entities where the log says so. -/
structure Delivers (byEntity : Bool) (events : List (Poll EventBatch))
    (stored : List SerializedEvent) : Prop where
  bounded : ∀ event ∈ stored, event.sequence ≤ maxSequence
  distinct : (stored.map fun event => (event.entityId, event.sequence)).Nodup
  within : (delivered events).1.flatten.Subperm stored
  all : (delivered events).2 = none → (delivered events).1.flatten.Perm stored
  whole : byEntity = true → ∀ batch ∈ (delivered events).1, ∀ event ∈ batch, ∀ other ∈ stored,
    other.entityId = event.entityId → other ∈ batch

variable (A : Aggregate)

/-- The command IDs of some events, the latest first. -/
def commandIds (log : List SerializedEvent) : List CommandId :=
  (log.filterMap fun event => event.metadata.commandId.filter fun id => id ≠ "").reverse

theorem commandIds_concat (log : List SerializedEvent) (event : SerializedEvent) :
    commandIds (log ++ [event]) =
      Loaded.insertSeen (commandIds log) event.metadata.commandId := by
  rw [commandIds, List.filterMap_append, List.reverse_append, Loaded.insertSeen]
  cases hid : event.metadata.commandId.filter fun id => id ≠ "" with
  | none => simp only [List.filterMap_cons, hid, List.filterMap_nil]; rfl
  | some id => simp only [List.filterMap_cons, hid, List.filterMap_nil]; rfl

/-- What the events of an entity come to: its state once all of them are in their places and
applied, or the error of the first one that is out of place or cannot be read. -/
inductive FoldsTo (id : EntityId) (log : List SerializedEvent) : Except Error (Loaded A) → Prop
  | entity {state : A.State} (places : Consecutive.From SerializedEvent.sequence 1 log)
      (folds : A.fold log = .ok state) :
      FoldsTo id log (.ok ⟨id, state, log.length, 0, commandIds log⟩)
  | gap {before after : List SerializedEvent} {event : SerializedEvent} {state : A.State}
      (split : log = before ++ event :: after)
      (places : Consecutive.From SerializedEvent.sequence 1 before)
      (folds : A.fold before = .ok state) (misplaced : event.sequence ≠ before.length + 1) :
      FoldsTo id log (.error (.sequenceGap id before.length event.sequence))
  | unread {before after : List SerializedEvent} {event : SerializedEvent} {state : A.State}
      {error : Error} (split : log = before ++ event :: after)
      (places : Consecutive.From SerializedEvent.sequence 1 (before ++ [event]))
      (folds : A.fold before = .ok state) (unread : A.read event = .error error) :
      FoldsTo id log (.error error)

/-- The item of an entity: what its stored events come to in ascending order. -/
def Yields (stored : List SerializedEvent) (id : EntityId) (item : Except Error (Loaded A)) :
    Prop :=
  ∃ log, log.Perm (eventsOf stored id) ∧ (log.Pairwise fun a b => a.sequence < b.sequence) ∧
    FoldsTo A id log item

variable {A} in
/-- The replay goes on from the events it is through with; the induction is on the rest. -/
theorem replayAll_foldsTo (id : EntityId) {before rest : List SerializedEvent} {state : A.State}
    (hplaces : Consecutive.From SerializedEvent.sequence 1 before)
    (hfolds : A.fold before = .ok state)
    (hascending : (before ++ rest).Pairwise fun a b => a.sequence < b.sequence)
    (hbounded : ∀ event ∈ before ++ rest, event.sequence ≤ maxSequence) :
    FoldsTo A id (before ++ rest)
      (Loaded.replayAll ⟨id, state, before.length, 0, commandIds before⟩ rest) := by
  induction rest generalizing before state with
  | nil =>
    rw [List.append_nil]
    exact .entity hplaces hfolds
  | cons event rest ih =>
    have hroom : (before.length : Int) < maxSequence := by
      cases hlast : before.getLast? with
      | none =>
        rw [List.getLast?_eq_none_iff.mp hlast]
        decide
      | some last =>
        have hnumber := Consecutive.number_of_getLast? hplaces hlast
        have hlt := (List.pairwise_append.mp hascending).2.2 last (List.mem_of_getLast? hlast) event
          List.mem_cons_self
        have hle := hbounded event (by simp)
        omega
    have hnext := EventSequence.next_of_lt hroom
    rw [Loaded.replayAll, Loaded.replay_eq, hnext]
    by_cases hplace : event.sequence = before.length + 1
    · have hplaces' : Consecutive.From SerializedEvent.sequence 1 (before ++ [event]) :=
        Consecutive.from_append.mpr ⟨hplaces, by omega, trivial⟩
      rw [if_neg (not_not.mpr hplace)]
      cases hread : A.read event with
      | error error => exact .unread rfl hplaces' hfolds hread
      | ok typed =>
        have hfolds' : A.fold (before ++ [event]) = .ok (A.apply state typed) := by
          rw [Aggregate.fold_append hfolds, Aggregate.foldFrom, hread]
          rfl
        have hafter : Loaded.after ⟨id, state, before.length, 0, commandIds before⟩ event typed =
            ⟨id, A.apply state typed, (before ++ [event]).length, 0,
              commandIds (before ++ [event])⟩ := by
          rw [commandIds_concat, Loaded.after, hplace, List.length_append]
          rfl
        have hrest := ih hplaces' hfolds' (by simpa using hascending) (by simpa using hbounded)
        rw [List.append_assoc, ← hafter] at hrest
        exact hrest
    · rw [if_pos hplace]
      exact .gap rfl hplaces hfolds hplace

def entityOf (stored : List SerializedEvent) (id : EntityId) : Except Error (Loaded A) :=
  foldEntity A id (eventsOf stored id)

/-- What a stream yields for entities: after a failure, entities that may be incomplete are left
out. -/
def yielded (byEntity : Bool) (failure : Option Error) (entities : List (Except Error (Loaded A))) :
    List (Except Error (Loaded A)) :=
  match failure with
  | none => entities
  | some error => (if byEntity then entities else []) ++ [.error error]

theorem remainingFrom_grouping {events : List (Poll EventBatch)} {seen : List SerializedEvent}
    (h : group.Holds seen) :
    remainingFrom A true events group = yielded A false (delivered events).2
      ((grouped (seen ++ (delivered events).1.flatten)).map (folded A)) := by
  induction events generalizing group seen with
  | nil => simp [remainingFrom, delivered, yielded, h.take]
  | cons poll events ih =>
    cases poll with
    | pending => exact ih h
    | ready batch =>
      cases batch with
      | error error => rfl
      | ok batch =>
        rw [remainingFrom, if_pos rfl, ih (h.add batch)]
        simp only [delivered, List.flatten_cons, List.append_assoc]

theorem remainingFrom_byEntity (events : List (Poll EventBatch)) :
    remainingFrom A false events .empty = yielded A true (delivered events).2
      ((delivered events).1.flatMap fun batch => (grouped batch).map (folded A)) := by
  induction events with
  | nil => rfl
  | cons poll events ih =>
    cases poll with
    | pending => exact ih
    | ready batch =>
      cases batch with
      | error error => rfl
      | ok batch =>
        rw [remainingFrom, if_neg Bool.false_ne_true, ih, (Group.holds_empty.add batch).take,
          delivered]
        cases (delivered events).2 with
        | none => simp [yielded]
        | some error => simp [yielded]

theorem grouped_append {left right : List SerializedEvent}
    (h : ∀ a ∈ left, ∀ b ∈ right, a.entityId ≠ b.entityId) :
    grouped (left ++ right) = grouped left ++ grouped right := by
  have hids : ∀ id ∈ right.map (·.entityId), id ∉ left.map (·.entityId) := by
    intro id hright hleft
    obtain ⟨a, ha, rfl⟩ := List.mem_map.mp hleft
    obtain ⟨b, hb, hab⟩ := List.mem_map.mp hright
    exact h a ha b hb hab.symm
  unfold grouped
  rw [List.map_append, firsts_append hids, List.map_append]
  congr 1
  · refine List.map_congr_left fun id hid => ?_
    have hnot : id ∉ right.map (·.entityId) := fun hright => hids id hright (mem_firsts.mp hid)
    rw [eventsOf_append, eventsOf_eq_nil hnot, List.append_nil]
  · refine List.map_congr_left fun id hid => ?_
    rw [eventsOf_append, eventsOf_eq_nil (hids id (mem_firsts.mp hid)), List.nil_append]

/-- Batches without common entities are grouped one after the other. -/
theorem grouped_flatten {batches : List (List SerializedEvent)}
    (h : batches.Pairwise fun left right => ∀ a ∈ left, ∀ b ∈ right, a.entityId ≠ b.entityId) :
    grouped batches.flatten = batches.flatMap grouped := by
  induction batches with
  | nil => rfl
  | cons batch batches ih =>
    obtain ⟨hbatch, hrest⟩ := List.pairwise_cons.mp h
    rw [List.flatten_cons, List.flatMap_cons, ← ih hrest]
    refine grouped_append fun a ha b hb => ?_
    obtain ⟨other, hother, hmem⟩ := List.mem_flatten.mp hb
    exact hbatch other hother a ha b hmem

/-- The fold does not depend on the order of the events. -/
theorem foldEntity_perm (id : EntityId) {others : List SerializedEvent} (h : events.Perm others)
    (hinj : ∀ a ∈ others, ∀ b ∈ others, a.sequence = b.sequence → a = b) :
    foldEntity A id events = foldEntity A id others := by
  have hsort : (events.insertionSort fun a b => a.sequence ≤ b.sequence) =
      others.insertionSort fun a b => a.sequence ≤ b.sequence := by
    refine List.Perm.eq_of_pairwise ?_ (Ranking.pairwise_insertionSort _ events)
      (Ranking.pairwise_insertionSort _ others)
      ((List.perm_insertionSort _ _).trans (h.trans (List.perm_insertionSort _ _).symm))
    intro a b ha hb hab hba
    exact hinj a (h.mem_iff.mp ((List.perm_insertionSort _ _).mem_iff.mp ha)) b
      ((List.perm_insertionSort _ _).mem_iff.mp hb) (le_antisymm hab hba)
  rw [foldEntity, foldEntity, hsort]

section Delivered

variable {A} {byEntity : Bool} {events : List (Poll EventBatch)} {stored : List SerializedEvent}

theorem Delivers.nodup (h : Delivers byEntity events stored) :
    (delivered events).1.flatten.Nodup := by
  obtain ⟨sublist, hperm, hsublist⟩ := h.within
  exact hperm.nodup_iff.mp ((List.Nodup.of_map _ h.distinct).sublist hsublist)

theorem Delivers.sequence_inj (h : Delivers byEntity events stored) (id : EntityId) :
    ∀ a ∈ eventsOf stored id, ∀ b ∈ eventsOf stored id, a.sequence = b.sequence → a = b := by
  intro a ha b hb hab
  obtain ⟨ha, haid⟩ := List.mem_filter.mp ha
  obtain ⟨hb, hbid⟩ := List.mem_filter.mp hb
  have haid := of_decide_eq_true haid
  have hbid := of_decide_eq_true hbid
  exact List.inj_on_of_nodup_map h.distinct ha hb (by rw [haid, hbid, hab])

/-- Delivered batches of whole entities have none in common. -/
theorem Delivers.disjoint (h : Delivers true events stored) :
    (delivered events).1.Pairwise fun left right =>
      ∀ a ∈ left, ∀ b ∈ right, a.entityId ≠ b.entityId := by
  have hdisjoint := (List.nodup_flatten.mp h.nodup).2
  refine hdisjoint.imp_of_mem fun {left right} hleft hright hapart a ha b hb heq => ?_
  have hstored : b ∈ stored := h.within.subset (List.mem_flatten.mpr ⟨right, hright, hb⟩)
  exact hapart (h.whole rfl left hleft a ha b hstored heq.symm) hb

/-- Every stored event of an entity that was delivered whole is delivered. -/
theorem Delivers.eventsOf_perm (h : Delivers byEntity events stored)
    (hcomplete : byEntity = true ∨ (delivered events).2 = none) {id : EntityId}
    (hid : id ∈ (delivered events).1.flatten.map (·.entityId)) :
    (eventsOf (delivered events).1.flatten id).Perm (eventsOf stored id) := by
  rcases hcomplete with rfl | hnone
  · refine (List.perm_ext_iff_of_nodup (h.nodup.filter _)
      ((List.Nodup.of_map _ h.distinct).filter _)).mpr fun event => ?_
    simp only [List.mem_filter, decide_eq_true_eq, and_congr_left_iff]
    rintro rfl
    refine ⟨fun hevent => h.within.subset hevent, fun hevent => ?_⟩
    obtain ⟨other, hother, hsame⟩ := List.mem_map.mp hid
    obtain ⟨batch, hbatch, hmem⟩ := List.mem_flatten.mp hother
    exact List.mem_flatten.mpr
      ⟨batch, hbatch, h.whole rfl batch hbatch other hmem event hevent hsame.symm⟩
  · exact (h.all hnone).filter _

theorem Delivers.folded_grouped (h : Delivers byEntity events stored)
    (hcomplete : byEntity = true ∨ (delivered events).2 = none) :
    (grouped (delivered events).1.flatten).map (folded A) =
      (firsts ((delivered events).1.flatten.map (·.entityId))).map (entityOf A stored) := by
  rw [grouped, List.map_map]
  refine List.map_congr_left fun id hid => ?_
  exact foldEntity_perm A id (h.eventsOf_perm hcomplete (mem_firsts.mp hid)) (h.sequence_inj id)

/-- The sorted events of an entity have strictly ascending sequences. -/
theorem Delivers.entityOf_yields (h : Delivers byEntity events stored) (id : EntityId) :
    Yields A stored id (entityOf A stored id) := by
  have hperm := List.perm_insertionSort (fun a b => a.sequence ≤ b.sequence) (eventsOf stored id)
  have hascending : ((eventsOf stored id).insertionSort fun a b => a.sequence ≤ b.sequence).Pairwise
      fun a b => a.sequence < b.sequence := by
    have hnodup := ((List.Nodup.of_map _ h.distinct).filter fun event => event.entityId = id)
    refine ((Ranking.pairwise_insertionSort _ _).and (hperm.nodup_iff.mpr hnodup)).imp_of_mem ?_
    intro a b ha hb hab
    refine lt_of_le_of_ne hab.1 fun heq => hab.2 ?_
    exact h.sequence_inj id a (hperm.subset ha) b (hperm.subset hb) heq
  refine ⟨_, hperm, hascending, ?_⟩
  have hnone : Consecutive.From SerializedEvent.sequence 1 [] := trivial
  refine replayAll_foldsTo id hnone rfl hascending fun event hevent => ?_
  exact h.bounded event (List.mem_of_mem_filter (hperm.subset hevent))

/-- What the stream of a delivery has to yield. -/
theorem Delivers.remaining (h : Delivers byEntity events stored) :
    remainingFrom A (!byEntity) events .empty = yielded A byEntity (delivered events).2
      ((firsts ((delivered events).1.flatten.map (·.entityId))).map (entityOf A stored)) := by
  cases byEntity with
  | true =>
    have hfolded := h.folded_grouped (A := A) (.inl rfl)
    rw [grouped_flatten h.disjoint, List.map_flatMap] at hfolded
    rw [Bool.not_true, remainingFrom_byEntity, hfolded]
  | false =>
    rw [Bool.not_false, remainingFrom_grouping A Group.holds_empty, List.nil_append]
    cases hfailure : (delivered events).2 with
    | none => rw [h.folded_grouped (.inr hfailure)]
    | some error => rfl

end Delivered

/-- The entities of some events, each once, in the order of their first events. -/
structure FirstAppearance (ids order : List EntityId) : Prop where
  nodup : order.Nodup
  mem_iff : ∀ id, id ∈ order ↔ id ∈ ids
  ordered : order.Pairwise fun a b => ids.idxOf a < ids.idxOf b

def StreamFilter.narrowed (filter : StreamFilter) : StreamFilter :=
  ⟨filter.entityType.or (some A.entityType)⟩

/-- However a log delivers its events, the stream yields each entity once, folded in ascending
order, and ends. -/
theorem streamEntities_yields (log : EventLog) (filter : StreamFilter)
    (stored : List SerializedEvent)
    (h : Delivers log.batchesByEntity (log.streamAllEvents (filter.narrowed A)) stored) :
    ∃ order entities, FirstAppearance ((delivered (log.streamAllEvents
          (filter.narrowed A))).1.flatten.map (·.entityId)) order ∧
      List.Forall₂ (Yields A stored) order entities ∧
      (∀ n, Unfold.items A (Unfold.polls A n (streamEntities A log filter)).1 <+:
        yielded A log.batchesByEntity (delivered (log.streamAllEvents (filter.narrowed A))).2
          entities) ∧
      ∃ enough, ∀ n ≥ enough,
        Unfold.items A (Unfold.polls A n (streamEntities A log filter)).1 =
          yielded A log.batchesByEntity (delivered (log.streamAllEvents (filter.narrowed A))).2
            entities ∧
        ((Unfold.polls A n (streamEntities A log filter)).2.pollNext A).1 = .ready none := by
  have hremaining : (streamEntities A log filter).remaining A =
      yielded A log.batchesByEntity (delivered (log.streamAllEvents (filter.narrowed A))).2
        ((firsts ((delivered (log.streamAllEvents (filter.narrowed A))).1.flatten.map
          (·.entityId))).map (entityOf A stored)) := h.remaining
  refine ⟨_, _, ⟨nodup_firsts _, fun _ => mem_firsts, firsts_ordered _⟩,
    List.forall₂_map_right_iff.mpr (List.forall₂_same.mpr fun id _ => h.entityOf_yields id),
    fun n => ?_, ?_⟩
  · rw [← hremaining, ← Unfold.remaining_polls n]
    exact List.prefix_append _ _
  · refine ⟨(streamEntities A log filter).due A, fun n hn => ?_⟩
    obtain ⟨hitems, hended⟩ := Unfold.polls_end hn
    rw [hended, hitems, hremaining]
    exact ⟨rfl, rfl⟩

def added (id : EntityId) (sequence : Int) : SerializedEvent :=
  ⟨EventId.forEvent id sequence, sequence, "added", 1, id, "counter", .empty, {}⟩

def scanned : EventLog :=
  ⟨false, fun _ => [.ready (.ok [added "b" 1, added "a" 2]), .pending, .ready (.ok [added "a" 1])]⟩

theorem scanned_delivers : Delivers scanned.batchesByEntity
    (scanned.streamAllEvents (StreamFilter.narrowed counter ⟨none⟩))
    [added "a" 1, added "a" 2, added "b" 1] := by
  have hperm : (delivered (scanned.streamAllEvents
      (StreamFilter.narrowed counter ⟨none⟩))).1.flatten.Perm
        [added "a" 1, added "a" 2, added "b" 1] := by
    decide +kernel
  refine ⟨by decide +kernel, by decide +kernel, hperm.subperm, fun _ => hperm, ?_⟩
  rintro ⟨⟩

theorem streamEntities_scanned :
    ∃ order entities, FirstAppearance ["b", "a", "a"] order ∧
      List.Forall₂ (Yields counter [added "a" 1, added "a" 2, added "b" 1]) order entities ∧
      entities = [.ok ⟨"b", (1 : Nat), 1, 0, []⟩, .ok ⟨"a", (2 : Nat), 2, 0, []⟩] ∧
      ∃ enough, ∀ n ≥ enough,
        Unfold.items counter (Unfold.polls counter n (streamEntities counter scanned ⟨none⟩)).1 =
          entities := by
  obtain ⟨order, entities, horder, hyields, -, enough, hitems⟩ :=
    streamEntities_yields counter scanned ⟨none⟩ _ scanned_delivers
  refine ⟨order, entities, horder, hyields, ?_, enough, fun n hn => (hitems n hn).1⟩
  have hdue : (streamEntities counter scanned ⟨none⟩).due counter ≤ max enough 6 := le_max_right _ _
  have hyielded := (hitems (max enough 6) (le_max_left _ _)).1
  rw [(Unfold.polls_end hdue).1] at hyielded
  exact hyielded.symm

end Deliveries

end EventStore
