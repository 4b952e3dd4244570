import NetAtlas.Address.Endpoint
import NetAtlas.Address.Ip
import NetAtlas.Address.Text
import NetAtlas.Atlas.Basic
import NetAtlas.Atlas.Binding
import NetAtlas.Atlas.LocalLinks
import NetAtlas.Atlas.Lookups
import NetAtlas.Atlas.Query
import NetAtlas.Atlas.Traversal
import NetAtlas.Atlas.Visits
import NetAtlas.Bytes.Basic
import NetAtlas.Bytes.Field
import NetAtlas.Bytes.Reader
import NetAtlas.Bytes.Utf8
import NetAtlas.Bytes.Varint
import NetAtlas.Collector.Basic
import NetAtlas.Collector.PidBuffer
import NetAtlas.Error
import NetAtlas.Host.Arguments
import NetAtlas.Host.Files
import NetAtlas.Host.Path
import NetAtlas.Host.Program
import NetAtlas.Host.StoreDirectory
import NetAtlas.Host.StoreFormat
import NetAtlas.Json.Basic
import NetAtlas.Json.Reader
import NetAtlas.Link.Map
import NetAtlas.Link.Stat
import NetAtlas.Link.Value
import NetAtlas.Main
import NetAtlas.Members
import NetAtlas.MessagePack.Members
import NetAtlas.MessagePack.Reader
import NetAtlas.MessagePack.Value
import NetAtlas.MessagePack.Writer
import NetAtlas.Order
import NetAtlas.Proofs.Atlas.Accounts
import NetAtlas.Proofs.Atlas.Assembly
import NetAtlas.Proofs.Atlas.Attribution
import NetAtlas.Proofs.Atlas.BackedLinks
import NetAtlas.Proofs.Atlas.BothEnds
import NetAtlas.Proofs.Atlas.CheckedQueries
import NetAtlas.Proofs.Atlas.ClaimOrder
import NetAtlas.Proofs.Atlas.Conservation
import NetAtlas.Proofs.Atlas.Coverage
import NetAtlas.Proofs.Atlas.DepthLimits
import NetAtlas.Proofs.Atlas.Exploration
import NetAtlas.Proofs.Atlas.Frontiers
import NetAtlas.Proofs.Atlas.Ingestion
import NetAtlas.Proofs.Atlas.Ledger
import NetAtlas.Proofs.Atlas.LocalLinks
import NetAtlas.Proofs.Atlas.LocalTraffic
import NetAtlas.Proofs.Atlas.Lookups
import NetAtlas.Proofs.Atlas.MatchingPairs
import NetAtlas.Proofs.Atlas.Mirrored
import NetAtlas.Proofs.Atlas.OnGrid
import NetAtlas.Proofs.Atlas.Outages
import NetAtlas.Proofs.Atlas.RoundOrder
import NetAtlas.Proofs.Atlas.Rounds
import NetAtlas.Proofs.Atlas.Runs
import NetAtlas.Proofs.Atlas.Tallied
import NetAtlas.Proofs.Atlas.Termination
import NetAtlas.Proofs.Atlas.VisitedProcesses
import NetAtlas.Proofs.Bags
import NetAtlas.Proofs.Bytes.Composed
import NetAtlas.Proofs.Bytes.ExactNumbers
import NetAtlas.Proofs.Bytes.Fields
import NetAtlas.Proofs.Bytes.Numbers
import NetAtlas.Proofs.Bytes.Order
import NetAtlas.Proofs.Bytes.Steady
import NetAtlas.Proofs.Bytes.Taken
import NetAtlas.Proofs.Bytes.Written
import NetAtlas.Proofs.Bytes.ZeroBytes
import NetAtlas.Proofs.Collector.Buffer
import NetAtlas.Proofs.Collector.Events
import NetAtlas.Proofs.Collector.Flushes
import NetAtlas.Proofs.Collector.GraceDelay
import NetAtlas.Proofs.Collector.Interleavings
import NetAtlas.Proofs.Collector.Kept
import NetAtlas.Proofs.Collector.Ripe
import NetAtlas.Proofs.Collector.Runs
import NetAtlas.Proofs.Collector.Timed
import NetAtlas.Proofs.Collector.Written
import NetAtlas.Proofs.Link.Buckets
import NetAtlas.Proofs.Link.CheckedSums
import NetAtlas.Proofs.Link.Collecting
import NetAtlas.Proofs.Link.Merging
import NetAtlas.Proofs.Link.Posting
import NetAtlas.Proofs.Link.Tallies
import NetAtlas.Proofs.Outcomes
import NetAtlas.Proofs.Record.Damage
import NetAtlas.Proofs.Record.Entry
import NetAtlas.Proofs.Record.Registry
import NetAtlas.Proofs.Record.RoundTrips
import NetAtlas.Proofs.Record.RowKey
import NetAtlas.Proofs.Record.ScanBounds
import NetAtlas.Proofs.Service.Conversations
import NetAtlas.Proofs.Service.Failures
import NetAtlas.Proofs.Service.Frames
import NetAtlas.Proofs.Socket.Node
import NetAtlas.Proofs.Storage.Backends
import NetAtlas.Proofs.Storage.Cells
import NetAtlas.Proofs.Storage.CorruptRows
import NetAtlas.Proofs.Storage.Deleting
import NetAtlas.Proofs.Storage.Observations
import NetAtlas.Proofs.Storage.Packing
import NetAtlas.Proofs.Storage.PidSets
import NetAtlas.Proofs.Storage.Reading
import NetAtlas.Proofs.Storage.Records
import NetAtlas.Proofs.Storage.Registries
import NetAtlas.Proofs.Storage.RegistryQueries
import NetAtlas.Proofs.Storage.Scans
import NetAtlas.Proofs.Storage.SelfQueries
import NetAtlas.Proofs.Storage.Stored
import NetAtlas.Proofs.Storage.StrayCells
import NetAtlas.Proofs.Storage.Upsert
import NetAtlas.Proofs.Storage.ViewQueries
import NetAtlas.Proofs.Storage.Writes
import NetAtlas.Proofs.Time.Checked
import NetAtlas.Proofs.Time.FinestSlot
import NetAtlas.Proofs.Time.Fits
import NetAtlas.Proofs.Time.Grid
import NetAtlas.Proofs.Time.Slots
import NetAtlas.Record.Entry
import NetAtlas.Record.Key
import NetAtlas.Record.Registry
import NetAtlas.Record.View
import NetAtlas.Service.Delivery
import NetAtlas.Service.Frame
import NetAtlas.Service.Handler
import NetAtlas.Service.Report
import NetAtlas.Service.Request
import NetAtlas.Service.Response
import NetAtlas.Service.Session
import NetAtlas.Settings.Basic
import NetAtlas.Settings.Document
import NetAtlas.Socket.Basic
import NetAtlas.Socket.Node
import NetAtlas.Socket.Observation
import NetAtlas.Store.Memory
import NetAtlas.Store.Packed
import NetAtlas.Store.Registries
import NetAtlas.Store.Snapshot
import NetAtlas.Store.Storage
import NetAtlas.Store.Table
import NetAtlas.Store.Views
import NetAtlas.Time.Range
import NetAtlas.Time.Sampler
import NetAtlas.Time.Window
