import SyntaxPack.Command.Arguments
import SyntaxPack.Json.Printer
import SyntaxPack.Json.Reader
import SyntaxPack.Module.Decode
import SyntaxPack.Module.Summary
import SyntaxPack.Module.Write
import SyntaxPack.Settings
import SyntaxPack.Tree.Interchange
/-!
# SyntaxPack.Command.Run

What the commands do, given the content of files.

Running a command reads files through a function and changes none: a file that
is to be written is part of the outcome.
-/

namespace SyntaxPack

namespace Command

/-- What a command was doing with a file when it failed. -/
inductive Activity where
  /-- Loading a registry. -/
  | loadingShapes
  /-- Loading a configuration. -/
  | loadingConfiguration
  /-- Reading the input. -/
  | reading
  /-- Reading a document off the text of the input. -/
  | parsing
  /-- Making a tree of a document. -/
  | converting
  /-- Encoding a tree. -/
  | encoding
  /-- Decoding a module. -/
  | decoding
  /-- Summarizing a module. -/
  | inspecting
  /-- Writing the output. -/
  | writing
  deriving DecidableEq, Repr, Inhabited

/-- The wording of an activity, before the name of the file. -/
def Activity.name : Activity → String
  | loadingShapes => "loading shapes from"
  | loadingConfiguration => "loading configuration from"
  | reading => "reading"
  | parsing => "parsing"
  | converting => "converting"
  | encoding => "encoding"
  | decoding => "decoding"
  | inspecting => "inspecting"
  | writing => "writing"

/-- Why a command failed. -/
structure Failure where
  /-- What it was doing. -/
  activity : Activity
  /-- The file it was doing that with. -/
  file : String
  /-- What went wrong with the tree or the module. -/
  cause : Option Error := none
  deriving DecidableEq, Repr, Inhabited

/-- The wording of what a command was doing. -/
def Failure.context (failure : Failure) : String := s!"{failure.activity.name} {failure.file}"

/-- What a command that did not fail leaves behind. -/
structure Output where
  /-- The text on the standard output. -/
  stdout : String := ""
  /-- The file to be written, and its bytes. -/
  file : Option (String × List UInt8) := none
  deriving DecidableEq, Repr, Inhabited

/-- The content of files, none for those that cannot be read. -/
abbrev Files := String → Option (List UInt8)

/-- The bytes of a file. -/
def readBytes (files : Files) (activity : Activity) (file : String) :
    Except Failure (List UInt8) :=
  match files file with
  | some bytes => .ok bytes
  | none => .error ⟨activity, file, none⟩

/-- The text of a file, which must be well-formed. -/
def readText (files : Files) (activity : Activity) (file : String) : Except Failure String := do
  let bytes ← readBytes files activity file
  match Utf8.decode bytes with
  | .ok text => .ok text
  | .error _ => .error ⟨activity, file, none⟩

/-- The registry in a file. -/
def loadRegistry (files : Files) (file : String) : Except Failure Registry := do
  let text ← readText files .loadingShapes file
  (Registry.load text).mapError fun _ => ⟨.loadingShapes, file, none⟩

/-- The configuration in a file, or the default one. -/
def loadConfig (files : Files) : Option String → Except Failure EncodingConfig
  | none => .ok {}
  | some file => do
    let text ← readText files .loadingConfiguration file
    (EncodingConfig.load text).mapError fun _ => ⟨.loadingConfiguration, file, none⟩

/-- Encodes a document into a module. -/
def runEncode (files : Files) (shapes : String) (config : Option String) (input output : String) :
    Except Failure Output := do
  let registry ← loadRegistry files shapes
  let config ← loadConfig files config
  let text ← readText files .reading input
  match Json.parse? text with
  | none => .error ⟨.parsing, input, none⟩
  | some json =>
    let tree ← (Tree.ofJson registry json).mapError fun error =>
      ⟨.converting, input, some (.schema error)⟩
    let bytes ← (SyntaxPack.encode tree registry config).mapError fun error =>
      ⟨.encoding, input, some error⟩
    .ok { file := some (output, bytes) }

/-- Decodes a module into a document. -/
def runDecode (files : Files) (shapes input : String) (output : Option String) (pretty : Bool) :
    Except Failure Output := do
  let registry ← loadRegistry files shapes
  let bytes ← readBytes files .reading input
  let tree ← (SyntaxPack.decode bytes registry).mapError fun error =>
    ⟨.decoding, input, some error⟩
  let style := if pretty then Json.Style.pretty else Json.Style.compact
  let text := (tree.toJson registry).render style ++ "\n"
  match output with
  | some file => .ok { file := some (file, Utf8.encode text) }
  | none => .ok { stdout := text }

/-- Summarizes a module. -/
def runInspect (files : Files) (input : String) : Except Failure Output := do
  let bytes ← readBytes files .reading input
  let summary ← (SyntaxPack.inspect bytes).mapError fun error =>
    ⟨.inspecting, input, some error⟩
  .ok { stdout := summary.render }

/-- Runs a command. -/
def run (files : Files) : Command → Except Failure Output
  | encode shapes config input output => runEncode files shapes config input output
  | decode shapes input output pretty => runDecode files shapes input output pretty
  | inspect input => runInspect files input

/-- The files that a command may read. -/
def inputs : Command → List String
  | encode shapes config input _ => shapes :: config.toList ++ [input]
  | decode shapes input _ _ => [shapes, input]
  | inspect input => [input]

end Command

namespace Request

/-- The name and version of the program. -/
def versionText : String := "hyast 0.1.0\n"

/-- Answers a request. -/
def answer (files : Command.Files) : Request → Except Command.Failure Command.Output
  | version => .ok { stdout := versionText }
  | run command => command.run files

/-- The files that a request may read. -/
def inputs : Request → List String
  | version => []
  | run command => command.inputs

end Request

end SyntaxPack
