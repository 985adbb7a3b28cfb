import SyntaxPack.Config
import SyntaxPack.Shape.Registry
import SyntaxPack.Toml.Reader
/-!
# SyntaxPack.Settings

Configurations and registries from settings text.

A key that is not known, a value of another kind than its key asks for, and a
number beyond 32 bits are all refused, like text that cannot be read at all. A
missing key has its default.
-/

namespace SyntaxPack

/-- What a settings text was meant to hold. -/
inductive SettingsSubject where
  /-- The shapes of a registry. -/
  | registry
  /-- The configuration of an encoder. -/
  | configuration
  deriving DecidableEq, Repr, Inhabited

/-- The name of a subject in messages. -/
def SettingsSubject.name : SettingsSubject → String
  | registry => "shape registry"
  | configuration => "encoding configuration"

/-- Why settings could not be loaded. -/
inductive SettingsError where
  /-- The text cannot be read, or does not have the form of its subject. -/
  | malformed (subject : SettingsSubject)
  /-- The shapes that it describes are ill-formed. -/
  | schema (error : SchemaError)
  deriving DecidableEq, Repr, Inhabited

/-! ### Configurations -/

namespace EncodingConfig

/-- Sets one key of a configuration. -/
def setKey (config : EncodingConfig) (key : String) (value : Toml) : Option EncodingConfig :=
  match key with
  | "index_encoding" => do
    return { config with indexEncoding := ← value.choice? IndexEncoding.ofName? }
  | "partitioned_tables" => do return { config with partitionedTables := ← value.boolean? }
  | "value_streams" => do return { config with valueStreams := ← value.boolean? }
  | "inline_objects" => do return { config with inlineObjects := ← value.boolean? }
  | "inline_threshold" => do return { config with inlineThreshold := ← value.nat32? }
  | "dedupe" => do return { config with dedupe := ← value.boolean? }
  | "dedupe_min_uses" => do return { config with dedupeMinUses := ← value.nat32? }
  | "order_by_hit_count" => do return { config with orderByHitCount := ← value.boolean? }
  | "any_array_fallback" => do return { config with anyArrayFallback := ← value.boolean? }
  | "check_divergence" => do return { config with checkDivergence := ← value.boolean? }
  | "ignore_unknown_fields" => do return { config with ignoreUnknownFields := ← value.boolean? }
  | _ => none

/-- The configuration that a document describes. -/
def ofToml? : Toml → Option EncodingConfig
  | .table entries => entries.foldlM (fun config (key, value) => config.setKey key value) {}
  | _ => none

/-- Loads a configuration from its text. -/
def load (text : String) : Except SettingsError EncodingConfig :=
  match (Toml.parse? text).bind ofToml? with
  | some config => .ok config
  | none => .error (.malformed .configuration)

end EncodingConfig

/-! ### Registries -/

/-- The field that a value describes. -/
def FieldDescription.ofToml? (value : Toml) : Option FieldDescription := do
  let fields ← value.record? ["name", "type"]
  return {
    name := ← Toml.required? Toml.string? "name" fields
    type := ← Toml.required? Toml.string? "type" fields }

/-- The shape that a value describes. -/
def ShapeDescription.ofToml? (value : Toml) : Option ShapeDescription := do
  let fields ← value.record? ["name", "fields"]
  return {
    name := ← Toml.required? Toml.string? "name" fields
    fields := ← Toml.field? (Toml.list? FieldDescription.ofToml?) [] "fields" fields }

/-- The registry that a document describes. -/
def RegistryDescription.ofToml? (value : Toml) : Option RegistryDescription := do
  let fields ← value.record? ["type_key", "shape"]
  return {
    typeKey := ← Toml.field? Toml.string? "type" "type_key" fields
    shapes := ← Toml.field? (Toml.list? ShapeDescription.ofToml?) [] "shape" fields }

/-- Loads a registry from its text. -/
def Registry.load (text : String) : Except SettingsError Registry :=
  match (Toml.parse? text).bind RegistryDescription.ofToml? with
  | some description => description.build.mapError .schema
  | none => .error (.malformed .registry)

end SyntaxPack
