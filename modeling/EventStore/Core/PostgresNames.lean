import EventStore.Core.Records

/-!
The relation names of a PostgreSQL event log: the engine's relations are named after the events
table with a reserved infix, the primary keys after their tables. Names are not quoted, so
PostgreSQL folds them.
-/
namespace EventStore.Postgres

def reservedInfix : String := "__evt_"

def maxEventsTableNameLen : Nat := 63 - "__evt_rebuild_generation_pkey".length

def maxSnapshotsTableNameLen : Nat := 63 - "_pkey".length

def toAsciiLowercase (name : String) : String := String.ofList (name.toList.map Char.toLower)

def eqIgnoreAsciiCase (a b : String) : Bool :=
  a.toList.map Char.toLower == b.toList.map Char.toLower

def outcomesTable (events : String) : String := events ++ reservedInfix ++ "command_outcomes"

def featuresTable (events : String) : String := events ++ reservedInfix ++ "features"

def rebuildLockTable (events : String) : String := events ++ reservedInfix ++ "rebuild_lock"

def rebuildGenerationTable (events : String) : String :=
  events ++ reservedInfix ++ "rebuild_generation"

def streamHeadsTable (events : String) : String := events ++ reservedInfix ++ "stream_heads"

def viewsTable (events : String) : String := events ++ reservedInfix ++ "views"

inductive Ddl
  | createTable (name : String)
  | createIndex (name table : String)
  | dropIndexOf (name table : String)
deriving DecidableEq

def schemaDdl (events snapshots : String) : List Ddl :=
  [.createTable events,
    .createIndex (events ++ "__evt_entity_type_idx") events,
    .dropIndexOf (events ++ "_entity_type_idx") events,
    .createTable snapshots,
    .createTable (outcomesTable events),
    .createTable (featuresTable events),
    .createTable (rebuildLockTable events),
    .createTable (rebuildGenerationTable events),
    .createTable (streamHeadsTable events)]

def viewsDdl (events : String) : List Ddl :=
  [.createTable (viewsTable events),
    .createIndex (viewsTable events ++ "_type_idx") (viewsTable events),
    .createIndex (viewsTable events ++ "_ttl_idx") (viewsTable events)]

def Ddl.relations : Ddl → List String
  | .createTable name => [toAsciiLowercase name, toAsciiLowercase name ++ "_pkey"]
  | .createIndex name _ => [toAsciiLowercase name]
  | .dropIndexOf _ _ => []

def reservedKeywords : List String :=
  ["all", "analyse", "analyze", "and", "any", "array", "as", "asc", "asymmetric",
    "authorization", "binary", "both", "case", "cast", "check", "collate", "collation",
    "column", "concurrently", "constraint", "create", "cross", "current_catalog",
    "current_date", "current_role", "current_schema", "current_time", "current_timestamp",
    "current_user", "default", "deferrable", "desc", "distinct", "do", "else", "end", "except",
    "false", "fetch", "for", "foreign", "freeze", "from", "full", "grant", "group", "having",
    "ilike", "in", "initially", "inner", "intersect", "into", "is", "isnull", "join",
    "lateral", "leading", "left", "like", "limit", "localtime", "localtimestamp", "natural",
    "not", "notnull", "null", "offset", "on", "only", "or", "order", "outer", "overlaps",
    "placing", "primary", "references", "returning", "right", "select", "session_user",
    "similar", "some", "symmetric", "system_user", "table", "tablesample", "then", "to",
    "trailing", "true", "union", "unique", "user", "using", "variadic", "verbose", "when",
    "where", "window", "with"]

def isIdentifierStart (c : Char) : Bool := c.isAlpha || c == '_'

def isIdentifierPart (c : Char) : Bool := c.isAlphanum || c == '_'

def isValidIdentifier (name : String) (maxLen : Nat) : Bool :=
  decide (name.utf8ByteSize ≤ maxLen) && name.toList.head?.any isIdentifierStart &&
    name.toList.tail.all isIdentifierPart &&
    !reservedKeywords.any (eqIgnoreAsciiCase · name)

def checkTableName (name : String) (maxLen : Nat) : Except String Unit :=
  if !isValidIdentifier name maxLen then .error ("invalid table name " ++ debug name)
  else if reservedInfix.toList <:+: (toAsciiLowercase name).toList then
    .error ("table name " ++ debug name ++ " must not contain the reserved infix " ++
      debug reservedInfix)
  else .ok ()

def checkedRelations (events snapshots : String) : List String :=
  [events, events ++ "_pkey", events ++ reservedInfix ++ "entity_type_idx",
    outcomesTable events, outcomesTable events ++ "_pkey",
    featuresTable events, featuresTable events ++ "_pkey",
    rebuildLockTable events, rebuildLockTable events ++ "_pkey",
    rebuildGenerationTable events, rebuildGenerationTable events ++ "_pkey",
    streamHeadsTable events, streamHeadsTable events ++ "_pkey",
    viewsTable events, viewsTable events ++ "_pkey",
    viewsTable events ++ "_type_idx", viewsTable events ++ "_ttl_idx",
    snapshots, snapshots ++ "_pkey"]

def firstRepeated (earlier : List String) : List String → Option String
  | [] => none
  | relation :: relations =>
    if relation ∈ earlier then some relation
    else firstRepeated (earlier ++ [relation]) relations

def checkTableNames (events snapshots : String) : Except String Unit := do
  checkTableName events maxEventsTableNameLen
  checkTableName snapshots maxSnapshotsTableNameLen
  match firstRepeated [] (checkedRelations (toAsciiLowercase events)
      (toAsciiLowercase snapshots)) with
  | some relation =>
    .error ("tables " ++ debug events ++ " and " ++ debug snapshots ++
      " would both use the name " ++ debug relation)
  | none => .ok ()

/-- The two table names an event log is configured with. -/
structure Tables where
  events : String
  snapshots : String
deriving DecidableEq

namespace Tables

def names (tables : Tables) : List String :=
  [toAsciiLowercase tables.events, toAsciiLowercase tables.snapshots]

def relations (tables : Tables) : List String :=
  (schemaDdl tables.events tables.snapshots ++ viewsDdl tables.events).flatMap Ddl.relations

def Accepted (tables : Tables) : Prop :=
  checkTableNames tables.events tables.snapshots = .ok ()

instance decidableAccepted (tables : Tables) : Decidable tables.Accepted :=
  inferInstanceAs (Decidable (checkTableNames tables.events tables.snapshots = .ok ()))

end Tables

end EventStore.Postgres
