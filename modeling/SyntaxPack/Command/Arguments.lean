/-!
# SyntaxPack.Command.Arguments

The command line: which command is asked for, and with which files.

Options may stand before, between and after the input, in a short form (`-s F`,
`-sF`, `-s=F`) or a long one (`--shapes F`, `--shapes=F`); `--` ends them. Every
option and the input may be given once, and no file name is empty.
-/

namespace SyntaxPack

/-- A command with its files. -/
inductive Command where
  /-- Encodes a document into a module. -/
  | encode (shapes : String) (config : Option String) (input output : String)
  /-- Decodes a module into a document, which goes to the standard output if no
  file is given for it. -/
  | decode (shapes input : String) (output : Option String) (pretty : Bool)
  /-- Prints what a module is made of. -/
  | inspect (input : String)
  deriving DecidableEq, Repr, Inhabited

/-- What a command line asks for. -/
inductive Request where
  /-- The name and version of the program. -/
  | version
  /-- A command. -/
  | run (command : Command)
  deriving DecidableEq, Repr, Inhabited

namespace Command

/-- An option of a command. -/
structure OptionForm where
  /-- The letter of the short form, if there is one. -/
  short : Option Char
  /-- The word of the long form. -/
  long : String
  /-- Whether a file name belongs to it. -/
  takesValue : Bool
  deriving DecidableEq, Repr, Inhabited

/-- The option that names the shapes. -/
def shapesOption : OptionForm := ⟨some 's', "shapes", true⟩

/-- The option that names the configuration. -/
def configOption : OptionForm := ⟨some 'c', "config", true⟩

/-- The option that names the output. -/
def outputOption : OptionForm := ⟨some 'o', "output", true⟩

/-- The option for output with line breaks. -/
def prettyOption : OptionForm := ⟨none, "pretty", false⟩

/-- What was found on a command line so far. -/
structure Found where
  /-- The long form and the value of every option. -/
  options : List (String × String) := []
  /-- The arguments that are no options. -/
  inputs : List String := []
  deriving DecidableEq, Repr, Inhabited

namespace Found

/-- Adds an option, which must be new, and whose value must not be empty. -/
def addOption (found : Found) (form : OptionForm) (value : String) : Option Found :=
  if (found.options.lookup form.long).isSome then none
  else if form.takesValue && value.isEmpty then none
  else some { found with options := (form.long, value) :: found.options }

/-- Adds an input, which must be the only one. -/
def addInput (found : Found) (value : String) : Option Found :=
  if value.isEmpty || !found.inputs.isEmpty then none
  else some { found with inputs := [value] }

end Found

/-- Whether an argument is an option, or the end of the options. -/
def looksLikeOption (arg : String) : Bool := arg.toList.head? = some '-' && arg ≠ "-"

/-- The value in an argument, after an optional equality sign. -/
def attachedValue : List Char → String
  | '=' :: cs => String.ofList cs
  | cs => String.ofList cs

/-- The option that an argument starts with, and the value in it if there is
one. -/
def splitOption (forms : List OptionForm) (arg : String) : Option (OptionForm × Option String) :=
  match arg.toList with
  | '-' :: '-' :: cs => do
    let name := String.ofList (cs.takeWhile (· ≠ '='))
    let form ← forms.find? (·.long = name)
    match cs.dropWhile (· ≠ '=') with
    | '=' :: value => return (form, some (String.ofList value))
    | _ => return (form, none)
  | '-' :: letter :: cs => do
    let form ← forms.find? (·.short = some letter)
    return (form, if cs.isEmpty then none else some (attachedValue cs))
  | _ => none

/-- Goes through the arguments of a command. -/
def scan (forms : List OptionForm) : List String → Found → Option Found
  | [], found => some found
  | arg :: args, found =>
    if arg = "--" then args.foldlM Found.addInput found
    else if looksLikeOption arg then
      match splitOption forms arg, args with
      | none, _ => none
      | some (form, some value), args =>
        if form.takesValue then (found.addOption form value).bind (scan forms args) else none
      | some (form, none), args =>
        if !form.takesValue then (found.addOption form "").bind (scan forms args)
        else
          match args with
          | value :: args =>
            if looksLikeOption value then none
            else (found.addOption form value).bind (scan forms args)
          | [] => none
    else (found.addInput arg).bind (scan forms args)

/-- The command of a name with its arguments. -/
def ofName? (name : String) (args : List String) : Option Command :=
  match name with
  | "encode" => do
    let found ← scan [shapesOption, configOption, outputOption] args {}
    let shapes ← found.options.lookup shapesOption.long
    let output ← found.options.lookup outputOption.long
    let input ← found.inputs.head?
    return encode shapes (found.options.lookup configOption.long) input output
  | "decode" => do
    let found ← scan [shapesOption, outputOption, prettyOption] args {}
    let shapes ← found.options.lookup shapesOption.long
    let input ← found.inputs.head?
    let output := found.options.lookup outputOption.long
    return decode shapes input output (found.options.lookup prettyOption.long).isSome
  | "inspect" => do
    let found ← scan [] args {}
    return inspect (← found.inputs.head?)
  | _ => none

/-- Whether an argument asks for the version. Letters after the one of the short
form are not looked at. -/
def asksForVersion (arg : String) : Bool :=
  match arg.toList with
  | '-' :: 'V' :: _ => true
  | _ => arg = "--version"

/-- What a command line asks for, none if it is malformed. -/
def parse? : List String → Option Request
  | [] => none
  | name :: args =>
    if asksForVersion name then some .version else (ofName? name args).map .run

end Command

end SyntaxPack
