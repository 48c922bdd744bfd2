import EventStore.Runs.ExactlyOnce
import EventStore.Runs.Durable
import EventStore.Rebuild.Epochs
import EventStore.Rebuild.Begins
import EventStore.Rebuild.Complete
import EventStore.Journal.Replays
import EventStore.Memory.Markers
import EventStore.Dynamo.Holders
import EventStore.TypeScript.Loads
import EventStore.Replay.Canonical
import EventStore.Replay.Reordering
import EventStore.Outcomes.Digests
import EventStore.Runs.Splitting
import EventStore.Runs.SnapshotChain
import EventStore.Runs.Refusing
import EventStore.Runs.Retries
import EventStore.Numbers.Exact
import EventStore.Outcomes.Rows
import EventStore.Journal.Pages
import EventStore.Waiting.Budgets
import EventStore.Waiting.Recovery
import EventStore.Rebuild.Batches
import EventStore.Runs.Owners
import EventStore.Replay.Enumeration
import EventStore.Numbers.CommitIds
import EventStore.Postgres.Names
import EventStore.Replay.Visible
import EventStore.Postgres.Locks
import EventStore.Dynamo.Retention
import EventStore.Dynamo.Probes
import EventStore.Outcomes.Base64
import EventStore.Runs.Intervals
import EventStore.Numbers.Timestamps
import EventStore.Replay.Partitions
