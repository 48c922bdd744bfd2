import EventStore.Core.Journal
import EventStore.Core.RebuildPrograms

/-!
Rebuilding the journal: every row and counter is derived from the allocations in stored events,
and written through the rebuild fence.
-/
namespace EventStore

open Result

abbrev RowKey := String × Nat

instance : Ord RowKey := lexOrd

/-- The rows and counters that stored events imply, with the event that holds each row. -/
structure JournalState where
  rows : OrdMap RowKey (ViewRow × SerializedEvent)
  counters : OrdMap String (Scope × Nat)

namespace JournalState

variable (T : JournalText)

def empty : JournalState := ⟨∅, ∅⟩

/-- One allocation: an event given twice is one row, two records at one position are refused. -/
def claim (event : SerializedEvent) (state : JournalState) (a : Allocation) :
    Except Error JournalState := do
  let scope ← Scope.new a.scope
  match state.rows[((scope.text, a.position) : RowKey)]? with
  | some (_, holder) =>
    refuse (holder ≠ event) (.invalidJournal ("position " ++ toString a.position ++
      " of scope " ++ scope.text ++ " is held by two different records, " ++ holder.id ++
      " and " ++ event.id))
    return state
  | none =>
    let row ← rowView T scope a.position event
    let counter := ((state.counters[scope.text]?).map (·.2)).getD 0
    return ⟨state.rows.insert (scope.text, a.position) (row, event),
      state.counters.insert scope.text (scope, max counter a.position)⟩

def claimAll (state : JournalState) (event : SerializedEvent) : Except Error JournalState := do
  (← allocations T event.metadata).foldlM (claim T event) state

def views (state : JournalState) : List ViewRow :=
  state.rows.toList.map (·.2.1) ++
    state.counters.toList.map fun entry => counterView T entry.2.1 entry.2.2

def operations (state : JournalState) : List ProjectedView :=
  (state.views T).zipIdx.map fun (row, index) =>
    ⟨journalProjectorName, 0, index,
      ViewOperation.put row.pk row.sk row.entityId row.entityType row.payload⟩

end JournalState

def replayJournal (T : JournalText) (events : List SerializedEvent) : Except Error JournalState :=
  events.foldlM (JournalState.claimAll T) .empty

section Rebuilds

variable (T : JournalText)

def rebuildJournalWithLease (events : List SerializedEvent) (lease : RebuildLease)
    (renew : Duration) : FenceProgram (RebuildLease × Except RebuildFailure Unit) :=
  let unattempted (error : Error) : RebuildLease × Except RebuildFailure Unit :=
    (lease, .error ⟨error, 0, 0⟩)
  match checkRenew renew with
  | .error error => .done (unattempted error)
  | .ok () =>
    match replayJournal T events with
    | .error error => .done (unattempted error)
    | .ok state =>
      (FenceProgram.renewRebuild lease renew).bind fun
        | .error error => .done (unattempted error)
        | .ok lease => writePlanned renew (state.operations T) lease

def rebuildJournalWithLock (events : List SerializedEvent) (lease : Duration) :
    FenceProgram (Except Error Unit) :=
  match replayJournal T events with
  | .error error => .done (.error error)
  | .ok state => Rebuild.program (.journal (state.operations T) lease)

end Rebuilds

end EventStore
