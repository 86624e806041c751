import Gink.Table.Sorted
import Gink.Bytes.BigEndian
import Gink.Proto.Errors
import Gink.Proto.Muid
import Gink.Proto.Builders
import Gink.Proto.BundleInfo
import Gink.Proto.Coding
import Gink.Lmdb.Cursor
import Gink.Lmdb.Contents
import Gink.Lmdb.Changes
import Gink.Lmdb.Reads
import Gink.Lmdb.Store
import Gink.Memory.Contents
import Gink.Proto.Action
import Gink.Memory.Changes
import Gink.Memory.Store
import Gink.Chain.Bundle
import Gink.Memory.Chains
import Gink.Lmdb.Chains
import Gink.Proto.Sample
import Gink.Stores.ChainLists
import Gink.Lmdb.Effects
import Gink.Lmdb.History
import Gink.Lmdb.KeyedConvergence
import Gink.Memory.Atomicity
import Gink.Keyed.Order
import Gink.Keyed.View
import Gink.Lmdb.Keyed
import Gink.Memory.Retained
import Gink.Memory.Keyed
import Gink.Stores.KeyedListing
import Gink.Proto.Validation
import Gink.Sync.HasMap
import Gink.Sync.Connection
import Gink.Sync.Server
import Gink.Sync.Broadcast
import Gink.Machine.Run
import Gink.Sync.Stores
import Gink.Sync.Traffic
import Gink.Sync.Permissions
import Gink.Sync.ChainStore
import Gink.Sync.Widening
import Gink.Lmdb.Definitions
import Gink.Lmdb.Refresh
import Gink.Lmdb.Rollback
import Gink.Log.File
import Gink.Log.Store
import Gink.Log.System
import Gink.Log.Code
import Gink.Log.Calls
import Gink.Log.Discipline
import Gink.Machine.Journal
import Gink.Memory.Accepted
import Gink.Log.Hearing
import Gink.Log.Delivery
import Gink.Lmdb.Delivery
import Gink.Stores.Delivery
import Gink.Js.References
import Gink.Machine.Ownership
import Gink.Stores.References
import Gink.Idb.Key
import Gink.Idb.ObjectStore
import Gink.Js.IndexedDb
import Gink.Js.IndexedDbReads
import Gink.Js.IndexedDbRows
import Gink.Js.IndexedDbKeyed
import Gink.Stores.KeyedReads
import Gink.Js.Courses
import Gink.Js.IndexedDbOrdered
import Gink.Js.Strings
import Gink.Js.MemoryStore
import Gink.Js.MemoryStoreOrdered
import Gink.Js.OrderedConvergence
import Gink.Queue.Place
import Gink.Memory.Clearances
import Gink.Stores.PriorClear
import Gink.Js.Addresses
import Gink.Js.LastLink
import Gink.Js.Backlog
import Gink.Js.Acks
import Gink.Js.SharedLog
import Gink.Js.FileLock
import Gink.Js.AsOf
import Gink.Js.IndexedDbAsOf
import Gink.Js.MemoryStoreAsOf
import Gink.Js.OrderedAsOf
import Gink.Lmdb.Reset
import Gink.Memory.Reset
import Gink.Stores.VertexReset
import Gink.Lmdb.ResetEnds
import Gink.Memory.ResetKeeps
import Gink.Lmdb.EntryRows
import Gink.Lmdb.ResetValid
import Gink.Memory.EntryRows
import Gink.Memory.ResetValid
import Gink.Stores.ResetValid
import Gink.Stores.Expiry
import Gink.Keyed.Packing
import Gink.Proto.InfoCodec
import Gink.Proto.MuidText
import Gink.Proto.ValueCodec
import Gink.Database.BoundBundler
import Gink.Stores.FindChain
import Gink.Stores.Containers
import Gink.Lmdb.Retention
import Gink.Memory.Retention
import Gink.Lmdb.Billionths
import Gink.Memory.Billionths
import Gink.Stores.Billionths
import Gink.Queue.Scan
import Gink.Memory.Slices
import Gink.Lmdb.Positions
import Gink.Lmdb.Slices
import Gink.Stores.Slices
import Gink.Proto.Outcome
import Gink.Sync.Routing
import Gink.Js.MemoryStoreRows
import Gink.Js.KeyTexts
import Gink.Js.MemoryStorePositions
import Gink.Js.MemoryStoreKeyed
import Gink.Proto.Pattern
import Gink.Sync.TokenCheck
import Gink.Memory.Insertion
import Gink.Lmdb.Insertion
import Gink.Stores.Insertion
import Gink.Proto.Lines
import Gink.Sync.Requests
import Gink.Js.KeyedWrites
import Gink.Js.MemoryStorePresent
import Gink.Js.IndexedDbPresent
import Gink.Js.WithoutHistory
import Gink.Table.Nested
import Gink.Js.Unacked
import Gink.Js.PromiseChainLock
import Gink.Js.MuidText
import Gink.Js.Bundlers
import Gink.Bytes.Binary64
import Gink.Js.Values
import Gink.Js.MemoryStoreLocation
import Gink.Js.IndexedDbLocation
import Gink.Js.Location
import Gink.Js.DroppedHistory
import Gink.Js.DroppedReads
import Gink.Js.DropHistory
import Gink.Lmdb.Seek
import Gink.Proto.Normalised
import Gink.Stores.Claims
import Gink.Lmdb.Ownership
import Gink.Log.Claims
import Gink.Log.Claiming
import Gink.Log.Ownership
import Gink.Stores.Ownership
import Gink.Lmdb.Courses
import Gink.Lmdb.AsOf
import Gink.Lmdb.Edges
import Gink.Machine.Watermarks
import Gink.Sync.Relays
import Gink.Sync.Unforked
import Gink.Sync.InStep
import Gink.Sync.Exchange
import Gink.Sync.Network
import Gink.Sync.Rest
import Gink.Machine.Timeline
import Gink.Lmdb.Replay
import Gink.Database.Committing
import Gink.Database.Ledger
