import SyntaxPack.Bytes.Fixed
import SyntaxPack.Bytes.Reader
import SyntaxPack.Bytes.Script
import SyntaxPack.Bytes.Writer
import SyntaxPack.Command.Arguments
import SyntaxPack.Command.Run
import SyntaxPack.Config
import SyntaxPack.Double.Basic
import SyntaxPack.Double.Shortest
import SyntaxPack.Error
import SyntaxPack.IndexEncoding
import SyntaxPack.Json.Document
import SyntaxPack.Json.Number
import SyntaxPack.Json.Printer
import SyntaxPack.Json.Reader
import SyntaxPack.Module.Basic
import SyntaxPack.Module.Decode
import SyntaxPack.Module.Dedupe
import SyntaxPack.Module.Header
import SyntaxPack.Module.Summary
import SyntaxPack.Module.Walk
import SyntaxPack.Module.Write
import SyntaxPack.Settings
import SyntaxPack.Shape.Codec
import SyntaxPack.Shape.Declaration
import SyntaxPack.Shape.Registry
import SyntaxPack.Shape.TypeDecl
import SyntaxPack.Stream.Basic
import SyntaxPack.Stream.TagMap
import SyntaxPack.Table.Basic
import SyntaxPack.Tag
import SyntaxPack.Text
import SyntaxPack.Toml.Document
import SyntaxPack.Toml.Reader
import SyntaxPack.Toml.Scalar
import SyntaxPack.Toml.Section
import SyntaxPack.Toml.Word
import SyntaxPack.Tree.Basic
import SyntaxPack.Tree.Cycle
import SyntaxPack.Tree.Equality
import SyntaxPack.Tree.Interchange
import SyntaxPack.Utf8
import SyntaxPack.Varint
import SyntaxPack.Main
import SyntaxPack.Proofs.Monad
import SyntaxPack.Proofs.Reader
import SyntaxPack.Proofs.Decode.Totality
import SyntaxPack.Proofs.Decode.Soundness
import SyntaxPack.Proofs.Encode.Overflow
import SyntaxPack.Proofs.Encode.Conformance
import SyntaxPack.Proofs.RoundTrip.Loaded
import SyntaxPack.Proofs.RoundTrip.Replay
import SyntaxPack.Proofs.RoundTrip.Sections
import SyntaxPack.Proofs.RoundTrip.Front
import SyntaxPack.Proofs.RoundTrip.Whole
import SyntaxPack.Proofs.Tree.Equality
import SyntaxPack.Proofs.Tree.Matching
import SyntaxPack.Proofs.RoundTrip.Equal
import SyntaxPack.Proofs.RoundTrip.Readable
import SyntaxPack.Proofs.Encode.Progress
import SyntaxPack.Proofs.RoundTrip.Encodable
import SyntaxPack.Proofs.Firsts
import SyntaxPack.Proofs.Table.Counting
import SyntaxPack.Proofs.Encode.Visits
import SyntaxPack.Proofs.Encode.Log
import SyntaxPack.Proofs.Encode.Mirror
import SyntaxPack.Proofs.Encode.Trace
import SyntaxPack.Proofs.RoundTrip.Reencoded
import SyntaxPack.Proofs.RoundTrip.Sharing
import SyntaxPack.Proofs.Encode.Deduped
import SyntaxPack.Proofs.Encode.Survivors
import SyntaxPack.Proofs.Encode.Canonical
import SyntaxPack.Proofs.Table.Tally
import SyntaxPack.Proofs.Table.History
import SyntaxPack.Proofs.Encode.Uses
import SyntaxPack.Proofs.Encode.References
import SyntaxPack.Proofs.Local
import SyntaxPack.Proofs.Exchange.Shapes
import SyntaxPack.Proofs.Exchange.Parallel
import SyntaxPack.Proofs.Exchange.Slots
import SyntaxPack.Proofs.Exchange.Framing
import SyntaxPack.Proofs.Decode.Streams
import SyntaxPack.Proofs.Exchange.Grown
import SyntaxPack.Proofs.Exchange.GrownStreams
import SyntaxPack.Proofs.Exchange.Opened
import SyntaxPack.Proofs.Exchange.Whole
import SyntaxPack.Proofs.Exchange.PrefixFree
import SyntaxPack.Proofs.Exchange.Tables
import SyntaxPack.Proofs.Exchange.Walked
import SyntaxPack.Proofs.Exchange.Encoded
import SyntaxPack.Proofs.Exchange.Interchange
import SyntaxPack.Proofs.Table.Cost
import SyntaxPack.Proofs.Order.Positions
import SyntaxPack.Proofs.Order.Resized
import SyntaxPack.Proofs.Order.Length
import SyntaxPack.Proofs.Lookup
import SyntaxPack.Proofs.Json.Properties
import SyntaxPack.Proofs.Json.Written
import SyntaxPack.Proofs.Json.Depicted
import SyntaxPack.Proofs.Json.Survival
import SyntaxPack.Proofs.Summary.Accepted
import SyntaxPack.Proofs.Encode.Emitted
import SyntaxPack.Proofs.Summary.Directory
import SyntaxPack.Proofs.Summary.Written
import SyntaxPack.Proofs.Encode.Dedupable
import SyntaxPack.Proofs.Encode.Acceptance
import SyntaxPack.Proofs.Policy.Restriction
import SyntaxPack.Proofs.Policy.Output
import SyntaxPack.Proofs.Table.Indexed
import SyntaxPack.Proofs.Encode.Census
import SyntaxPack.Proofs.Encode.InPlace
import SyntaxPack.Proofs.Encode.Collapsed
import SyntaxPack.Proofs.Halting
import SyntaxPack.Proofs.Tree.Search
import SyntaxPack.Proofs.Tree.Bisimulation
import SyntaxPack.Proofs.Table.Readded
import SyntaxPack.Proofs.Table.Cells
import SyntaxPack.Proofs.Table.Atomic
import SyntaxPack.Proofs.TwosComplement
import SyntaxPack.Proofs.Script.Windows
import SyntaxPack.Proofs.Script.ReadBack
import SyntaxPack.Proofs.Script.Routed
import SyntaxPack.Proofs.Unsigned
import SyntaxPack.Proofs.Declaration.Grammar
import SyntaxPack.Proofs.Validation
import SyntaxPack.Proofs.Decode.Reported
import SyntaxPack.Proofs.SelfDelimiting
import SyntaxPack.Proofs.ElementTags
import SyntaxPack.Proofs.Json.Places
import SyntaxPack.Proofs.Json.Offences
import SyntaxPack.Proofs.Json.Buffered
import SyntaxPack.Proofs.Json.Expressible
import SyntaxPack.Proofs.IntegerTokens
import SyntaxPack.Proofs.RoundTrip.Tags
