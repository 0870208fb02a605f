import ObjectPackage.Block
import ObjectPackage.Bytes
import ObjectPackage.ClassObject
import ObjectPackage.FixedPoint
import ObjectPackage.Inspect.Command
import ObjectPackage.Inspect.Report
import ObjectPackage.Json.Number
import ObjectPackage.Json.Parse
import ObjectPackage.Json.Token
import ObjectPackage.Json.Value
import ObjectPackage.Layout.Basic
import ObjectPackage.Layout.Build
import ObjectPackage.Main
import ObjectPackage.NameTable
import ObjectPackage.ObjectTable
import ObjectPackage.OffsetTable
import ObjectPackage.Package
import ObjectPackage.Proofs.Block.Address
import ObjectPackage.Proofs.Block.Base
import ObjectPackage.Proofs.Block.Cells
import ObjectPackage.Proofs.Block.Defaults
import ObjectPackage.Proofs.Block.Equality
import ObjectPackage.Proofs.Block.Framing
import ObjectPackage.Proofs.Block.Inherit
import ObjectPackage.Proofs.Block.Instance
import ObjectPackage.Proofs.Block.Kept
import ObjectPackage.Proofs.Block.Lens
import ObjectPackage.Proofs.Block.Make
import ObjectPackage.Proofs.Block.Overlay
import ObjectPackage.Proofs.Block.Ownership
import ObjectPackage.Proofs.Block.PutBack
import ObjectPackage.Proofs.Block.Repeat
import ObjectPackage.Proofs.Block.Resave
import ObjectPackage.Proofs.Block.RoundTrip
import ObjectPackage.Proofs.Block.Safe
import ObjectPackage.Proofs.Block.Save
import ObjectPackage.Proofs.Block.Sound
import ObjectPackage.Proofs.Bytes
import ObjectPackage.Proofs.Class.Chain
import ObjectPackage.Proofs.Effect
import ObjectPackage.Proofs.Json.RoundTrip
import ObjectPackage.Proofs.Json.Spelling
import ObjectPackage.Proofs.Json.Utf8
import ObjectPackage.Proofs.Layout.BoolRuns
import ObjectPackage.Proofs.Layout.Catalogue
import ObjectPackage.Proofs.Layout.Geometry
import ObjectPackage.Proofs.Layout.Leaves
import ObjectPackage.Proofs.Layout.Lookup
import ObjectPackage.Proofs.Layout.Parts
import ObjectPackage.Proofs.Layout.Placement
import ObjectPackage.Proofs.LoadState
import ObjectPackage.Proofs.NameIndex
import ObjectPackage.Proofs.NameTable
import ObjectPackage.Proofs.ObjectReference
import ObjectPackage.Proofs.ObjectTable
import ObjectPackage.Proofs.OffsetTable
import ObjectPackage.Proofs.Progress
import ObjectPackage.Proofs.Registry.Actions
import ObjectPackage.Proofs.Registry.Calls
import ObjectPackage.Proofs.Registry.Confluent
import ObjectPackage.Proofs.Registry.Dependencies
import ObjectPackage.Proofs.Registry.Inherited
import ObjectPackage.Proofs.Registry.Members
import ObjectPackage.Proofs.Registry.Progress
import ObjectPackage.Proofs.Registry.Realised
import ObjectPackage.Proofs.Registry.Register
import ObjectPackage.Proofs.Schema.Decode
import ObjectPackage.Proofs.Schema.Flags
import ObjectPackage.Proofs.Schema.Grammar
import ObjectPackage.Proofs.Schema.RoundTrip
import ObjectPackage.Proofs.Schema.Write
import ObjectPackage.Proofs.Script.Accept
import ObjectPackage.Proofs.Script.Copy
import ObjectPackage.Proofs.Script.Cut
import ObjectPackage.Proofs.Script.Exact
import ObjectPackage.Proofs.Script.Forward
import ObjectPackage.Proofs.Script.Grammar
import ObjectPackage.Proofs.Script.Nesting
import ObjectPackage.Proofs.Script.Partition
import ObjectPackage.Proofs.Script.Progress
import ObjectPackage.Proofs.Script.Replay
import ObjectPackage.Proofs.Script.Runs
import ObjectPackage.Proofs.Script.Terminators
import ObjectPackage.Proofs.Script.Track
import ObjectPackage.Proofs.Script.Versions
import ObjectPackage.Proofs.Script.Walk
import ObjectPackage.Proofs.Store.Accepted
import ObjectPackage.Proofs.Store.Assign
import ObjectPackage.Proofs.Store.Blank
import ObjectPackage.Proofs.Store.Change
import ObjectPackage.Proofs.Store.Content
import ObjectPackage.Proofs.Store.Counts
import ObjectPackage.Proofs.Store.Decode
import ObjectPackage.Proofs.Store.Duplicate
import ObjectPackage.Proofs.Store.Growth
import ObjectPackage.Proofs.Store.Holds
import ObjectPackage.Proofs.Store.Lifecycle
import ObjectPackage.Proofs.Store.Load
import ObjectPackage.Proofs.Store.Operate
import ObjectPackage.Proofs.Store.Overlay
import ObjectPackage.Proofs.Store.Owns
import ObjectPackage.Proofs.Store.Payload
import ObjectPackage.Proofs.Store.PutBack
import ObjectPackage.Proofs.Store.Query
import ObjectPackage.Proofs.Store.Release
import ObjectPackage.Proofs.Store.Relocate
import ObjectPackage.Proofs.Store.Renew
import ObjectPackage.Proofs.Store.Site
import ObjectPackage.Proofs.Store.Twins
import ObjectPackage.Proofs.Store.Update
import ObjectPackage.Proofs.Stream.Codec
import ObjectPackage.Proofs.Stream.Delimit
import ObjectPackage.Proofs.Stream.Forward
import ObjectPackage.Proofs.Stream.Index
import ObjectPackage.Proofs.Stream.Read
import ObjectPackage.Proofs.Stream.Relocate
import ObjectPackage.Proofs.Stream.Safety
import ObjectPackage.Proofs.Stream.Write
import ObjectPackage.Proofs.Tagged.Codec
import ObjectPackage.Proofs.Tagged.Entry
import ObjectPackage.Proofs.Tagged.Header
import ObjectPackage.Proofs.Tagged.Listing
import ObjectPackage.Proofs.Tagged.Progress
import ObjectPackage.Proofs.Tagged.Suffix
import ObjectPackage.Proofs.Trace
import ObjectPackage.Property.Error
import ObjectPackage.Property.TypeTag
import ObjectPackage.Registry
import ObjectPackage.Rounding
import ObjectPackage.Schema.Basic
import ObjectPackage.Schema.Document
import ObjectPackage.Script.Decode
import ObjectPackage.Script.Opcode
import ObjectPackage.Script.Source
import ObjectPackage.Script.Token
import ObjectPackage.Store.Basic
import ObjectPackage.Store.Payload
import ObjectPackage.Store.Typed
import ObjectPackage.Stream.Encode
import ObjectPackage.Stream.Error
import ObjectPackage.Stream.Read
import ObjectPackage.Stream.Write
import ObjectPackage.Tagged.Header
import ObjectPackage.Tagged.PropertyList
import ObjectPackage.Text
import ObjectPackage.Value
