import Ssz.Bytes
import Ssz.Chunk
import Ssz.Hash.Sha256
import Ssz.Schema.Kind
import Ssz.Schema.Basic
import Ssz.Schema.Size
import Ssz.Error
import Ssz.Schema.Build
import Ssz.Schema.Equality
import Ssz.Gindex
import Ssz.Schema.Path
import Ssz.Config
import Ssz.Tree.Basic
import Ssz.Tree.Position
import Ssz.Tree.Fill
import Ssz.Tree.Level
import Ssz.Tree.Batch
import Ssz.Opening
import Ssz.Merkleize
import Ssz.Value.Basic
import Ssz.Value.Scalar
import Ssz.Value.Tree
import Ssz.Value.Root
import Ssz.Value.Default
import Ssz.Codec.Encode
import Ssz.Codec.Span
import Ssz.Codec.Decode
import Ssz.View.Basic
import Ssz.View.Access
import Ssz.View.Update
import Ssz.View.Builder
import Ssz.View.Typed
import Ssz.Json.Token
import Ssz.Json.Basic
import Ssz.Json.Schema
import Ssz.Json.Value
import Ssz.Json.Opening
import Ssz.Json.Config
import Ssz.Proofs.Checked
import Ssz.Proofs.Bytes
import Ssz.Proofs.Chunk
import Ssz.Proofs.Bits
import Ssz.Proofs.Gindex
import Ssz.Proofs.Tree.Walk
import Ssz.Proofs.Tree.Lens
import Ssz.Proofs.Tree.Compose
import Ssz.Proofs.Tree.Full
import Ssz.Proofs.Overwrite
import Ssz.Proofs.Tree.Position
import Ssz.Proofs.Tree.Batch
import Ssz.Proofs.Tree.Stepwise
import Ssz.Proofs.Tree.Binding
import Ssz.Proofs.Schema.Accepted
import Ssz.Proofs.Schema.Overflow
import Ssz.Proofs.Schema.Nested
import Ssz.Proofs.Schema.Layout
import Ssz.Proofs.Json.Token
import Ssz.Proofs.Json.Text
import Ssz.Proofs.Json.Record
import Ssz.Proofs.Json.Schema
import Ssz.Proofs.Json.Validated
import Ssz.Proofs.Value.Scalar
import Ssz.Proofs.Value.Represents
import Ssz.Proofs.Value.Tree
import Ssz.Proofs.Value.Normal
import Ssz.Proofs.Value.Default
import Ssz.Proofs.Value.Packed
import Ssz.Proofs.Value.Tidy
import Ssz.Proofs.Merkleize
import Ssz.Proofs.Opening
import Ssz.Proofs.Forgery
import Ssz.Proofs.Value.Root
import Ssz.Proofs.Value.Fault
import Ssz.Proofs.Value.Report
import Ssz.Proofs.Truth
import Ssz.Proofs.Value.Truth
import Ssz.Proofs.Schema.Lookup
import Ssz.Proofs.Value.Inhabits
import Ssz.Proofs.Codec.Layout
import Ssz.Proofs.Codec.Serialize
import Ssz.Proofs.Codec.Size
import Ssz.Proofs.Codec.Bits
import Ssz.Proofs.Codec.Encode
import Ssz.Proofs.Codec.Span
import Ssz.Proofs.Codec.Elements
import Ssz.Proofs.Codec.Partition
import Ssz.Proofs.Codec.Decode
import Ssz.Proofs.Codec.Truth
import Ssz.Proofs.Codec.Accepts
import Ssz.Proofs.Codec.Guarded
import Ssz.Proofs.Codec.Follows
import Ssz.Proofs.Codec.Safe
import Ssz.Proofs.Codec.Least
import Ssz.Proofs.View.Slot
import Ssz.Proofs.View.Member
import Ssz.Proofs.View.Replace
import Ssz.Proofs.View.Append
import Ssz.Proofs.View.OfValue
import Ssz.Proofs.View.Grow
import Ssz.Proofs.View.Switch
import Ssz.Proofs.View.Truth
import Ssz.Proofs.View.Canonical
import Ssz.Proofs.View.Reachable
import Ssz.Proofs.View.RoundTrip
import Ssz.Proofs.View.Binding
import Ssz.Proofs.View.Root
import Ssz.Proofs.View.WireFormat
import Ssz.Proofs.View.Set
import Ssz.Proofs.View.Extend
import Ssz.Proofs.View.Place
import Ssz.Proofs.View.Path
import Ssz.Proofs.View.Component
import Ssz.Proofs.View.Builder
import Ssz.Proofs.Codec.Limit
import Ssz.Proofs.Codec.Starts
import Ssz.Proofs.View.Bounds
import Ssz.Proofs.View.Default
import Ssz.Proofs.Codec.Traced
import Ssz.Proofs.Tree.Level
import Ssz.Proofs.Tree.Guarded
import Ssz.Proofs.Tree.Padding
import Ssz.Proofs.Tree.Deep
