import SyntaxPack.IndexEncoding
/-!
# SyntaxPack.Config

Encoder configurations.

Four switches change the layout of a module and are recorded in its header; a
decoder never has to be told them. The others only change what the encoder
chooses to write.
-/

namespace SyntaxPack

/-- What an encoder is asked to do. -/
structure EncodingConfig where
  /-- How indices, tags and integers are written. -/
  indexEncoding : IndexEncoding := .varint
  /-- One object table per shape instead of a single shared one. -/
  partitionedTables : Bool := false
  /-- One byte stream per tag instead of one per section. -/
  valueStreams : Bool := false
  /-- Write rarely used objects where they are used. -/
  inlineObjects : Bool := false
  /-- Objects used at most this often are written in place. -/
  inlineThreshold : Nat := 1
  /-- Keep structurally equal nodes only once. -/
  dedupe : Bool := false
  /-- A class of equal nodes is collapsed from this number of uses on. -/
  dedupeMinUses : Nat := 1
  /-- Give the most used entries the smallest indices. -/
  orderByHitCount : Bool := false
  /-- Allow arrays whose elements share no tag but `any`. -/
  anyArrayFallback : Bool := true
  /-- Reject a name that is added to a table again with another value. -/
  checkDivergence : Bool := true
  /-- Drop fields that a shape does not declare instead of rejecting them. -/
  ignoreUnknownFields : Bool := false
  deriving DecidableEq, Repr, Inhabited

namespace EncodingConfig

/-- Writes objects in place that are used at most `threshold` times. -/
def withInlining (config : EncodingConfig) (threshold : Nat) : EncodingConfig :=
  { config with inlineObjects := true, inlineThreshold := threshold }

/-- Collapses equal nodes that are used at least `minUses` times. -/
def withDedupe (config : EncodingConfig) (minUses : Nat) : EncodingConfig :=
  { config with dedupe := true, dedupeMinUses := minUses }

/-- The layout of the modules written under a configuration. -/
def wire (config : EncodingConfig) : WireFormat where
  indexEncoding := config.indexEncoding
  partitionedTables := config.partitionedTables
  valueStreams := config.valueStreams
  inlineObjects := config.inlineObjects

end EncodingConfig

end SyntaxPack
