import EventStore.Core.Validation

/-!
The feature manifest and the writer's marker check. A writer validates the
manifest once, caches the version it validated, and repeats the validation only
when the stored version differs.
-/
namespace EventStore

open Result

def streamHeadsFeature : String := "stream-heads"
def streamHeadsVersion : Int := 1
def journalFeature : String := "journal"
def journalVersion : Int := 1
def journalCompactionFeature : String := "journal-compaction"
def journalCompactionVersion : Int := 1
def postgresViewsFeature : String := "postgres-views"
def postgresViewsVersion : Int := 1

def supportedFeatures (E : Env) : List (String × Int) :=
  if E.journalBuild then
    [(journalFeature, journalVersion), (journalCompactionFeature, journalCompactionVersion),
      (postgresViewsFeature, postgresViewsVersion), (streamHeadsFeature, streamHeadsVersion)]
  else
    [(postgresViewsFeature, postgresViewsVersion), (streamHeadsFeature, streamHeadsVersion)]

structure FeatureManifest where
  version : Int
  features : OrdMap String Int
  historyDependent : Std.ExtTreeSet String
  retention : Std.ExtTreeSet String
deriving DecidableEq

namespace FeatureManifest

def empty : FeatureManifest := ⟨0, ∅, ∅, ∅⟩

def isHistoryDependent (m : FeatureManifest) (entityType : EntityType) : Bool :=
  m.historyDependent.contains entityType

def isRetained (m : FeatureManifest) (entityType : EntityType) : Bool :=
  m.retention.contains entityType

def declaresStreamHeads (m : FeatureManifest) : Bool :=
  m.features[streamHeadsFeature]? == some streamHeadsVersion

def declareStreamHeads (m : FeatureManifest) : FeatureManifest :=
  { m with features := m.features.insert streamHeadsFeature streamHeadsVersion }

def validateSupported (E : Env) (m : FeatureManifest) : Except Error Unit :=
  match m.features.toList.find? (fun feature => !(supportedFeatures E).contains feature) with
  | some (name, version) => .error (.unsupportedFeature name version)
  | none => .ok ()

def journalOnly : List String := [journalFeature, journalCompactionFeature]

def refuseJournal (m : FeatureManifest) : Except Error Unit :=
  match journalOnly.findSome? (fun feature => m.features[feature]?.map (feature, ·)) with
  | some (feature, version) => .error (.unsupportedFeature feature version)
  | none => .ok ()

end FeatureManifest

inductive ValidatedMarker where
  | absent
  | version (version : Int)
deriving DecidableEq

abbrev CachedMarker := Option ValidatedMarker

def markerMatches : CachedMarker → Option FeatureManifest → Bool
  | some .absent, none => true
  | some (.version version), some manifest => manifest.version == version
  | _, _ => false

def validateMarkerForWrite (E : Env) (journaling : Bool) :
    Option FeatureManifest → Except Error ValidatedMarker
  | none => .error .streamHeadsNotMigrated
  | some manifest => do
    manifest.validateSupported E
    if journaling then pure () else manifest.refuseJournal
    refuse (!manifest.declaresStreamHeads) .streamHeadsNotMigrated
    return .version manifest.version

def declaredManifest (stored : Option FeatureManifest) : FeatureManifest :=
  { (stored.getD .empty).declareStreamHeads with
    version := (stored.map fun manifest => manifest.version + 1).getD 1 }

structure RebuildGeneration where
  value : Int
  forceReleased : Bool
deriving DecidableEq

def RebuildGeneration.isSettled (g : RebuildGeneration) : Bool := g.value % 2 == 0

structure RebuildLock where
  owner : String
  generation : Int
  leaseExpiresAt : Int
deriving DecidableEq

structure RebuildState where
  generation : RebuildGeneration
  lock : Option RebuildLock
deriving DecidableEq

def RebuildState.empty : RebuildState := ⟨⟨0, false⟩, none⟩

end EventStore
