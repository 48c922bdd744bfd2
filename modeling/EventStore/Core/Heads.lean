import EventStore.Core.Commits

/-!
Failure classification shared by every backend: a failed head update or fence is classified by a
probe of the stored and the derived head, and of several failures the first drift is reported,
else the first gap, else the first.
-/
namespace EventStore

inductive Probe where
  | drift
  | settled
  | ahead
deriving DecidableEq

namespace Probe

def first (stored derived : Int) : Probe :=
  if stored < derived then .drift else if stored = derived then .settled else .ahead

def afterRederive (stored rederived : Int) : Probe :=
  if rederived < stored then .drift else .settled

end Probe

namespace Heads

/-- A stored head of 0 is an absent head item. -/
def drift (entityId : EntityId) (stored derived : Int) : Error :=
  .streamHeadDrift entityId (if 0 < stored then some stored else none) derived

def conflict (entityId : EntityId) : Error :=
  .conflict entityId
    "conditional check failed: the sequence or snapshot changed since it was read"

def gapOrConflict (entityId : EntityId) (first stored : Int) : Error :=
  if stored < first - 1 then .sequenceGap entityId stored first else conflict entityId

def fenceConflict (fence : ReadFence) : Error :=
  .fenceConflict fence.entityId fence.head fence.provenance

def rankKey : Error → Nat
  | .streamHeadDrift _ _ _ => 0
  | .sequenceGap _ _ _ => 1
  | _ => 2

def rank (verdicts : List Error) : Option Error := Ranking.firstMin rankKey verdicts

theorem rank_eq_none {verdicts : List Error} : rank verdicts = none ↔ verdicts = [] :=
  Ranking.firstMin_eq_none rankKey

theorem rank_eq_some {verdicts : List Error} {e : Error} :
    rank verdicts = some e ↔ Ranking.IsFirstMin rankKey verdicts e :=
  Ranking.firstMin_eq_some rankKey

end Heads

end EventStore
