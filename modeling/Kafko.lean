import Kafko.Disk.Bytes
import Kafko.Disk.Store
import Kafko.Disk.Effect
import Kafko.Disk.Calls
import Kafko.Disk.Directory
import Kafko.Disk.Search
import Kafko.Disk.Reads
import Kafko.Disk.Framing
import Kafko.Disk.Links
import Kafko.Disk.Chunks
import Kafko.Disk.Loops
import Kafko.Disk.Tree
import Kafko.Wire.Compression
import Kafko.Wire.Record
import Kafko.Wire.Frame
import Kafko.Wire.Grammar
import Kafko.Wire.Cuts
import Kafko.Wire.Stream
import Kafko.Wire.Progress
import Kafko.Storage.Segment
import Kafko.Storage.Log
import Kafko.Storage.Layout
import Kafko.Storage.SegmentSpec
import Kafko.Storage.LayoutFacts
import Kafko.Storage.AppendSpec
import Kafko.Storage.ReadSpec
import Kafko.Storage.RetentionSpec
import Kafko.Storage.RecoverySpec
import Kafko.Storage.OpenSpec
import Kafko.Storage.History
import Kafko.Storage.Operations
import Kafko.Storage.Runs
import Kafko.Storage.Sessions
import Kafko.Storage.Failures
import Kafko.Storage.Contents
import Kafko.Storage.Oversized
import Kafko.Storage.Salvage
import Kafko.Storage.Rebuilt
import Kafko.Storage.Passes
import Kafko.Storage.Vouched
import Kafko.Storage.Shortened
import Kafko.Storage.ShortReads
import Kafko.Storage.Reopened
import Kafko.Storage.Standing
import Kafko.Storage.Weathered
import Kafko.Storage.Collisions
import Kafko.Storage.Retained
import Kafko.Storage.Ages
import Kafko.Storage.Sweeps
import Kafko.Storage.Appends
import Kafko.Storage.Capacity
import Kafko.Storage.EntryLimits
import Kafko.Storage.Cursor
import Kafko.Storage.Lookups
import Kafko.Storage.IndexStream
import Kafko.Storage.DecodeLoops
import Kafko.Partition.Writer
import Kafko.Partition.Batching
import Kafko.Partition.Durability
import Kafko.Partition.HighWater
import Kafko.Partition.Answers
import Kafko.Topic.Consumer
import Kafko.Topic.Serving
import Kafko.Topic.Rotation
import Kafko.Topic.Producer
import Kafko.Topic.Hub
import Kafko.Topic.Replies
import Kafko.Topic.Wakeups
import Kafko.Topic.Parking
import Kafko.Topic.Delivery
import Kafko.Topic.Ordering
import Kafko.Topic.Positions
import Kafko.Topic.Batches
import Kafko.Offsets.OffsetStore
import Kafko.Offsets.Codec
import Kafko.Offsets.Isolation
import Kafko.Offsets.Atomicity
import Kafko.Offsets.Resume
import Kafko.Offsets.LossyCrash
import Kafko.Broker.Shutdown
import Kafko.Broker.Lifecycle
import Kafko.Broker.Locking
import Kafko.Broker.Topics
import Kafko.Broker.Names
import Kafko.Broker.Recovery
import Kafko.Broker.Recognition
import Kafko.Broker.Catalogue
import Kafko.Broker.Reopening
import Kafko.Broker.Contention
import Kafko.Broker.Creation
import Kafko.Broker.Deletion
import Kafko.Systems.Simulation
import Kafko.Systems.Linear
import Kafko.Topic.Plant
import Kafko.Systems.Fair
import Kafko.Topic.Progress
import Kafko.Topic.Waiting
import Kafko.Topic.Liveness
import Kafko.Topic.Returns
import Kafko.Topic.Arrival
import Kafko.Topic.Courses
import Kafko.Broker.Ledger
import Kafko.Broker.Pages
import Kafko.Broker.PageLoops
import Kafko.Broker.Custody
import Kafko.Broker.Promises
import Kafko.Broker.Turns
import Kafko.Broker.Calls
