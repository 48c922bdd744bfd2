import EventStore.Lib.Kahn
import EventStore.Core.Aggregates

/-!
Regrouping stored events into the commits that wrote them, in an order every stream agrees with,
and replaying the projectors over them: the last operation on each row counts, and a row of two
owners is refused.
-/
namespace EventStore

open Result

def eventBefore (a b : SerializedEvent) : Prop :=
  a.entityId < b.entityId ∨ a.entityId = b.entityId ∧ a.sequence ≤ b.sequence

instance : DecidableRel eventBefore := fun _ _ => inferInstanceAs (Decidable (_ ∨ _))

/-- The events met so far in groups, the group of each commit ID, and the group of each
event. -/
structure Grouping where
  groups : List (List SerializedEvent)
  byCommit : OrdMap String Nat
  members : List Nat

namespace Grouping

def empty : Grouping := ⟨[], ∅, []⟩

def alone (g : Grouping) (event : SerializedEvent) : Grouping :=
  { g with groups := g.groups ++ [[event]], members := g.members ++ [g.groups.length] }

/-- An event without a commit ID is a commit of its own. -/
def add (g : Grouping) (event : SerializedEvent) : Grouping :=
  if event.metadata.commitId = "" then g.alone event
  else
    match g.byCommit[event.metadata.commitId]? with
    | some index =>
      { g with
        groups := g.groups.modify index (· ++ [event])
        members := g.members ++ [index] }
    | none =>
      { g.alone event with
        byCommit := g.byCommit.insert event.metadata.commitId g.groups.length }

end Grouping

/-- Each stream orders the commits that wrote it: an edge from one commit to the next. -/
def streamEdges : List (SerializedEvent × Nat) → List (Nat × Nat)
  | (a, previous) :: (b, current) :: rest =>
    if a.entityId ≠ b.entityId ∨ previous = current then streamEdges ((b, current) :: rest)
    else (previous, current) :: streamEdges ((b, current) :: rest)
  | _ => []

def takenBefore (groups : List (List SerializedEvent)) (g h : Nat) : Prop :=
  match groups[g]?.bind List.head?, groups[h]?.bind List.head? with
  | some a, some b =>
    a.entityId < b.entityId ∨ a.entityId = b.entityId ∧
      (a.sequence < b.sequence ∨ a.sequence = b.sequence ∧ g ≤ h)
  | _, _ => g ≤ h

instance (groups : List (List SerializedEvent)) : DecidableRel (takenBefore groups) := fun _ _ => by
  unfold takenBefore
  split <;> infer_instance

def addToStream (streams : List CommitStream) (event : SerializedEvent) : List CommitStream :=
  match streams.getLast? with
  | some stream =>
    if stream.entityId = event.entityId then
      streams.dropLast ++ [{ stream with events := stream.events ++ [event] }]
    else streams ++ [⟨event.entityId, event.entityType, [event], .empty⟩]
  | none => [⟨event.entityId, event.entityType, [event], .empty⟩]

def commitViewOf (events : List SerializedEvent) : CommitView :=
  ⟨(events.head?.map (·.metadata.commitId)).getD "", events.foldl addToStream []⟩

def groupCommits (events : List SerializedEvent) : Except Error (List CommitView) :=
  let sorted := events.insertionSort eventBefore
  let grouping := sorted.foldl Grouping.add .empty
  let groups := grouping.groups
  let placed := Kahn.run (takenBefore groups) (streamEdges (sorted.zip grouping.members))
    groups.length
  if placed.order.length < groups.length then
    let stuck := (List.range groups.length).filter fun group => 0 < placed.waiting group
    .error (.commitOrder ((stuck.map fun group =>
      ((groups[group]?.bind List.head?).map (·.metadata.commitId)).getD "").insertionSort (· ≤ ·)))
  else .ok (placed.order.filterMap fun group => groups[group]?.map commitViewOf)

/-- The last operation on each row. -/
structure ViewReplay where
  last : OrdMap ViewKey ProjectedView

namespace ViewReplay

def empty : ViewReplay := ⟨∅⟩

def apply (replay : ViewReplay) (item : ProjectedView) : Except Error ViewReplay :=
  match replay.last[item.op.key]? with
  | some first =>
    if first.op.owner ≠ item.op.owner then
      .error (.sharedViewKey item.op.pk item.op.sk first.op.owner item.op.owner)
    else .ok ⟨replay.last.insert item.op.key item⟩
  | none => .ok ⟨replay.last.insert item.op.key item⟩

def applyAll (replay : ViewReplay) : List ProjectedView → Except Error ViewReplay
  | [] => .ok replay
  | item :: items => do
    let replay ← replay.apply item
    replay.applyAll items

def rows (replay : ViewReplay) : List ViewRow :=
  ((replay.last.toList.map (·.2)).filter fun item => item.op.kind == .put).map
    fun item => .of item.op

end ViewReplay

def replayFrom (projectors : List CommitProjector) (replay : ViewReplay) :
    List CommitView → Except Error ViewReplay
  | [] => .ok replay
  | commit :: commits => do
    let items ← projectCommit projectors commit
    let replay ← replay.applyAll items
    replayFrom projectors replay commits

def replayViews (projectors : List CommitProjector) (commits : List CommitView) :
    Except Error (List ViewRow) := do
  let replay ← replayFrom projectors .empty commits
  return replay.rows

end EventStore
