import SyntaxPack.Command.Run
/-!
# SyntaxPack.Main

The program: reads the files that the command line names, answers the request,
and writes the output.
-/

namespace SyntaxPack.Main

/-- The bytes of a file, none if it cannot be read. -/
def readFile? (file : String) : IO (Option (List UInt8)) := do
  try
    let bytes ← IO.FS.readBinFile file
    pure (some bytes.toList)
  catch _ => pure none

/-- Reports a failure. -/
def report (failure : Command.Failure) : IO UInt32 := do
  IO.eprintln s!"Error: {failure.context}"
  match failure.cause with
  | some cause => IO.eprintln s!"\nCaused by:\n    {cause.message}"
  | none => pure ()
  pure 1

/-- Leaves behind what a request gave. -/
def deliver (output : Command.Output) : IO UInt32 := do
  match output.file with
  | some (file, bytes) =>
    try
      IO.FS.writeBinFile file ⟨bytes.toArray⟩
    catch _ => return (← report ⟨.writing, file, none⟩)
  | none => pure ()
  IO.print output.stdout
  pure 0

/-- Answers a command line. -/
def run (args : List String) : IO UInt32 := do
  match Command.parse? args with
  | none =>
    IO.eprintln "usage: hyast encode -s SHAPES [-c CONFIG] INPUT -o OUTPUT"
    IO.eprintln "       hyast decode -s SHAPES INPUT [-o OUTPUT] [--pretty]"
    IO.eprintln "       hyast inspect INPUT"
    pure 2
  | some request =>
    let contents ← request.inputs.mapM fun file => return (file, ← readFile? file)
    match request.answer fun file => (contents.lookup file).join with
    | .error failure => report failure
    | .ok output => deliver output

end SyntaxPack.Main

/-- The entry point. -/
def main (args : List String) : IO UInt32 := SyntaxPack.Main.run args
