import PackedRecord.Codec
import PackedRecord.Json.Value
import PackedRecord.Record
import PackedRecord.Stream
import PackedRecord.Proofs.Layout.Placement
import PackedRecord.Proofs.Format.Grammar
import PackedRecord.Proofs.Format.Acceptance
import PackedRecord.Proofs.Number.Words
import PackedRecord.Proofs.Number.Conversions
import PackedRecord.Proofs.Wire.Encoding
import PackedRecord.Proofs.Wire.Writer
import PackedRecord.Proofs.Wire.Decoding
import PackedRecord.Proofs.Wire.RoundTrip
import PackedRecord.Proofs.Wire.Canonical
import PackedRecord.Proofs.Wire.Cursor
import PackedRecord.Proofs.Wire.Shortfall
import PackedRecord.Proofs.Stream.Appending
import PackedRecord.Proofs.Stream.Replay
import PackedRecord.Proofs.Format.Concatenation
import PackedRecord.Proofs.Wire.Concatenation
import PackedRecord.Proofs.Cache.Transparency
import PackedRecord.Proofs.Format.Printed
import PackedRecord.Proofs.Record.Declaration
import PackedRecord.Proofs.Datum.Leaves
import PackedRecord.Proofs.Datum.RoundTrip
import PackedRecord.Proofs.Record.RoundTrip
import PackedRecord.Proofs.Wire.Decision
import PackedRecord.Proofs.Wire.Policies
import PackedRecord.Proofs.Record.Maps
import PackedRecord.Proofs.Cache.Identity
import PackedRecord.Proofs.Wire.Whole
import PackedRecord.Proofs.Stream.Partition
import PackedRecord.Proofs.Datum.Progress
import PackedRecord.Proofs.Stream.Atomicity
import PackedRecord.Proofs.Wire.Sizing
import PackedRecord.Proofs.Layout.Tiling
import PackedRecord.Proofs.Datum.Consumption
import PackedRecord.Proofs.Datum.Flattening
import PackedRecord.Proofs.Cache.Contents
import PackedRecord.Proofs.Wire.WriterBounds
import PackedRecord.Proofs.Wire.ReaderBounds
import PackedRecord.Proofs.Format.Repetition
import PackedRecord.Proofs.Wire.Repetition
import PackedRecord.Proofs.Wire.Integers
import PackedRecord.Proofs.Map.Dictionary
import PackedRecord.Proofs.Json.Documents
