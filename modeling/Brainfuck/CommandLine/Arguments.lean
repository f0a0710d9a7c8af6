import Brainfuck.Machine.Run

/-!
# Command line arguments

A command line names a program file and, after it, the text that the program reads. Two options
choose the number of cells and the step limit. An option stands anywhere before a lone `--`, at most
once, and its value follows it as the next argument or within the same one. Asking for the version
or for help settles the request, whatever comes later; so does the first argument that is wrong.

An argument that begins with a hyphen is an option and never a value, except for a single hyphen.
After `--` every argument is taken as it stands.
-/

namespace Brainfuck.CommandLine

/-- The options that take a value: the number of cells and the limit on executed instructions. -/
inductive OptionName where
  | cellCount
  | stepLimit
  deriving DecidableEq

/-- What is wrong with a command line: an option that does not exist or one argument too many, an
option without its value, with a value that is no number in its range or with a value that it does
not take, an option given twice, or no program file. -/
inductive Rejection where
  | unexpected (argument : String)
  | missingValue (option : OptionName)
  | invalidValue (option : OptionName) (value : String)
  | needlessValue (option : String)
  | repeated (option : OptionName)
  | missingProgram
  deriving DecidableEq

/-- A complete command line: the path of the program file, the text that the program reads, and the
choices for the machine. -/
structure Arguments where
  program : String
  input : Option String
  settings : Settings
  deriving DecidableEq

/-- What a command line asks for: to run a program, to print the version or how the program is used,
or nothing that can be done. -/
inductive Request where
  | run (arguments : Arguments)
  | version
  | help
  | rejected (cause : Rejection)
  deriving DecidableEq

/-! ## Numbers -/

/-- How many values a word of 64 bits has. -/
def wordValues : Nat := 0x10000000000000000

/-- The number that a text stands for in decimal: digits, with a plus sign in front of them or
without, and a value that a word of 64 bits can hold. -/
def number? (text : List Char) : Option Nat :=
  let digits := match text with
    | '+' :: digits => digits
    | digits => digits
  if digits.isEmpty || !digits.all Char.isDigit then none
  else
    let value := digits.foldl (fun value digit ↦ 10 * value + (digit.toNat - '0'.toNat)) 0
    if value < wordValues then some value else none

/-! ## Reading arguments -/

/-- The arguments read so far, with the option whose value comes next, if any, and whether the
options are over. -/
structure Reading where
  program : Option String := none
  input : Option String := none
  settings : Settings := {}
  awaiting : Option OptionName := none
  literal : Bool := false

namespace Reading

def positional (r : Reading) (argument : String) : Except Request Reading :=
  match r.program, r.input with
  | none, _ =>
    if argument.isEmpty then .error (.rejected .missingProgram)
    else .ok { r with program := some argument }
  | some _, none => .ok { r with input := some argument }
  | some _, some _ => .error (.rejected (.unexpected argument))

def value (r : Reading) (option : OptionName) (text : List Char) : Except Request Reading :=
  let invalid := .error (.rejected (.invalidValue option (String.ofList text)))
  let r := { r with awaiting := none }
  match option with
  | .cellCount =>
    if r.settings.cellCount.isSome then .error (.rejected (.repeated option))
    else match (number? text).bind CellCount.ofNat? with
      | none => invalid
      | some cells => .ok { r with settings.cellCount := some cells }
  | .stepLimit =>
    if r.settings.stepLimit.isSome then .error (.rejected (.repeated option))
    else match number? text with
      | none => invalid
      | some limit => .ok { r with settings.stepLimit := some limit }

/-- Takes an option by its letter; what follows the letter in the same argument, without a leading
equals sign, is its value. -/
def short (r : Reading) (letter : Char) (rest : List Char) : Except Request Reading :=
  match letter with
  | 'V' => .error .version
  | 'h' => .error .help
  | 'c' => valued .cellCount
  | 'l' => valued .stepLimit
  | _ => .error (.rejected (.unexpected (String.ofList ['-', letter])))
where
  valued (option : OptionName) : Except Request Reading :=
    match rest with
    | [] => .ok { r with awaiting := some option }
    | '=' :: text => r.value option text
    | text => r.value option text

/-- Takes an option by its name; what follows an equals sign is its value. Options without a value
settle the request. -/
def long (r : Reading) (text : List Char) : Except Request Reading :=
  let name := String.ofList (text.takeWhile (· ≠ '='))
  let attached := text.dropWhile (· ≠ '=')
  match name with
  | "version" => flag name attached .version
  | "help" => flag name attached .help
  | "cell-count" => valued .cellCount attached
  | "step-limit" => valued .stepLimit attached
  | _ => .error (.rejected (.unexpected ("--" ++ name)))
where
  flag (name : String) (attached : List Char) (request : Request) : Except Request Reading :=
    match attached with
    | [] => .error request
    | _ :: _ => .error (.rejected (.needlessValue ("--" ++ name)))
  valued (option : OptionName) (attached : List Char) : Except Request Reading :=
    match attached with
    | [] => .ok { r with awaiting := some option }
    | _ :: text => r.value option text

/-- Takes an argument while options may occur. -/
def unquoted (r : Reading) (argument : String) : Except Request Reading :=
  match argument.toList with
  | ['-', '-'] => .ok { r with literal := true }
  | '-' :: '-' :: text => r.long text
  | '-' :: letter :: rest => r.short letter rest
  | _ => r.positional argument

def isOption (argument : String) : Bool :=
  match argument.toList with
  | '-' :: _ :: _ => true
  | _ => false

/-- Takes the next argument. -/
def next (r : Reading) (argument : String) : Except Request Reading :=
  match r.awaiting with
  | some option =>
    if isOption argument then .error (.rejected (.missingValue option))
    else r.value option argument.toList
  | none => if r.literal then r.positional argument else r.unquoted argument

/-- The request when no argument is left. -/
def finish (r : Reading) : Request :=
  match r.awaiting, r.program with
  | some option, _ => .rejected (.missingValue option)
  | none, none => .rejected .missingProgram
  | none, some program => .run ⟨program, r.input, r.settings⟩

end Reading

/-- The request that a command line makes. -/
def Request.ofArguments (arguments : List String) : Request :=
  match arguments.foldlM Reading.next {} with
  | .ok reading => reading.finish
  | .error request => request

end Brainfuck.CommandLine
