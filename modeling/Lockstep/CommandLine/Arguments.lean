import Lockstep.Pipeline

/-!
# Command-line arguments

What a user can ask for, and how it is read from the arguments. Options that count and options
that take a value may stand before or behind the input, a value stands behind `=` or in the next
argument, and short options may be run together. Everything that is not understood is refused,
and the first argument that settles the matter wins.
-/

namespace Lockstep

namespace CommandLine

/-- What to do with the module. -/
inductive Command where
  | loopBarriers
  | generateHeader
  | run
deriving DecidableEq

/-- The command of a name. -/
def Command.ofName? : String → Option Command
  | "loop-barriers" => some .loopBarriers
  | "generate-header" => some .generateHeader
  | "run" => some .run
  | _ => none

/-- A pass over a module, as asked for on the command line. -/
structure Job where
  command : Command
  /-- The path of the module. -/
  input : String
  /-- The path that the module is written to, if it is not printed. -/
  output : Option String := none
  options : Pipeline.Options := {}
  /-- Show the listing of the result. -/
  printIr : Bool := false
  /-- How many times more detail was asked for. -/
  verbosity : Nat := 0

/-- What the arguments ask for. -/
inductive Request where
  | job (job : Job)
  | version
  | help

/-! ### The options of a command -/

/-- The options with a value. -/
inductive ValueOption where
  | output
  | header
  | kernel
  | pointerSize
deriving DecidableEq

/-- The options without one. -/
inductive FlagOption where
  | truncateHeader
  | printIr
deriving DecidableEq

/-- An option of a command. -/
inductive CommandOption where
  | value (option : ValueOption)
  | flag (option : FlagOption)
  | verbose
  | help

/-- The option of a long name. -/
def longOption? : String → Option CommandOption
  | "output" => some (.value .output)
  | "header" => some (.value .header)
  | "kernel" => some (.value .kernel)
  | "pointer-size" => some (.value .pointerSize)
  | "truncate-header" => some (.flag .truncateHeader)
  | "print-ir" => some (.flag .printIr)
  | "verbose" => some .verbose
  | "help" => some .help
  | _ => none

/-- The option of a letter. -/
def shortOption? : Char → Option CommandOption
  | 'o' => some (.value .output)
  | 'k' => some (.value .kernel)
  | 'v' => some .verbose
  | 'h' => some .help
  | _ => none

/-- What was read so far of a command's arguments. -/
structure Draft where
  input : Option String := none
  values : List (ValueOption × String) := []
  flags : List FlagOption := []
  verbosity : Nat := 0

/-- Reads a number as the machine's word of 64 bits, with or without a plus sign. -/
def word64? (text : String) : Option UInt64 :=
  let digits := match text.toList with
    | '+' :: rest => rest
    | cs => cs
  if digits.isEmpty || !digits.all Char.isDigit then none
  else
    let n : Nat := digits.foldl (fun n c => 10 * n + (c.toNat - '0'.toNat)) 0
    if n < UInt64.size then some n.toUInt64 else none

/-- Can the option have the value? Paths may not be empty. -/
def ValueOption.admits : ValueOption → String → Bool
  | .output, text | .header, text => text ≠ ""
  | .kernel, _ => true
  | .pointerSize, text => (word64? text).isSome

/-- Takes the value of an option, which may have only one. -/
def Draft.setValue? (draft : Draft) (option : ValueOption) (text : String) : Option Draft :=
  if (draft.values.lookup option).isSome || !option.admits text then none
  else some { draft with values := draft.values ++ [(option, text)] }

/-- Takes an option without a value, which may stand only once. -/
def Draft.setFlag? (draft : Draft) (option : FlagOption) : Option Draft :=
  if draft.flags.contains option then none
  else some { draft with flags := option :: draft.flags }

/-- Takes the input, of which there is only one. -/
def Draft.setInput? (draft : Draft) (text : String) : Option Draft :=
  if draft.input.isSome || text = "" then none else some { draft with input := some text }

/-- The job of a command with these arguments; the input has to be there. -/
def Draft.job? (draft : Draft) (command : Command) : Option Job := do
  return {
    command
    input := ← draft.input
    output := draft.values.lookup .output
    options := {
      kernel := draft.values.lookup .kernel
      header := draft.values.lookup .header
      pointerSize := ((draft.values.lookup .pointerSize).bind word64?).getD 8
      truncateHeader := draft.flags.contains .truncateHeader }
    printIr := draft.flags.contains .printIr
    verbosity := draft.verbosity }

/-! ### Reading the arguments -/

/-- What an argument looks like. -/
inductive Shape where
  /-- Two dashes: no options from here on. -/
  | escape
  /-- A long option, and the text behind its `=`. -/
  | long (name : String) (value : Option String)
  /-- Short options run together. -/
  | short (letters : List Char)
  | plain (text : String)

/-- The shape of an argument; a single dash is plain text. -/
def Shape.of (arg : String) : Shape :=
  match arg.toList with
  | ['-', '-'] => .escape
  | '-' :: '-' :: rest =>
      let name := rest.takeWhile (· ≠ '=')
      .long (String.ofList name)
        (if rest.contains '=' then some (String.ofList (rest.drop (name.length + 1))) else none)
  | '-' :: c :: rest => .short (c :: rest)
  | _ => .plain arg

/-- Where the reader is after some arguments. -/
inductive Progress where
  /-- Between arguments. -/
  | ready (draft : Draft)
  /-- Behind an option whose value is the next argument. -/
  | awaiting (draft : Draft) (option : ValueOption)
  /-- Behind two dashes. -/
  | plainOnly (draft : Draft)
  /-- Help was asked for. -/
  | help

/-- Reads short options that are run together. -/
def readShort? (draft : Draft) : List Char → Option Progress
  | [] => some (.ready draft)
  | c :: rest =>
      match shortOption? c with
      | none => none
      | some .help => some .help
      | some .verbose => readShort? { draft with verbosity := draft.verbosity + 1 } rest
      | some (.flag option) => (draft.setFlag? option).bind fun draft => readShort? draft rest
      | some (.value option) =>
          match rest with
          | [] => some (.awaiting draft option)
          | '=' :: value => (draft.setValue? option (String.ofList value)).map .ready
          | value => (draft.setValue? option (String.ofList value)).map .ready

/-- Reads a long option. -/
def readLong? (draft : Draft) (name : String) (value : Option String) : Option Progress :=
  match longOption? name, value with
  | some .help, none => some .help
  | some .verbose, none => some (.ready { draft with verbosity := draft.verbosity + 1 })
  | some (.flag option), none => (draft.setFlag? option).map .ready
  | some (.value option), none => some (.awaiting draft option)
  | some (.value option), some value => (draft.setValue? option value).map .ready
  | _, _ => none

/-- Reads the next argument of a command. -/
def Progress.step? (progress : Progress) (arg : String) : Option Progress :=
  match progress, Shape.of arg with
  | .help, _ => some .help
  | .plainOnly draft, _ => (draft.setInput? arg).map .plainOnly
  | .awaiting draft option, .plain text => (draft.setValue? option text).map .ready
  | .awaiting .., _ => none
  | .ready draft, .escape => some (.plainOnly draft)
  | .ready draft, .long name value => readLong? draft name value
  | .ready draft, .short letters => readShort? draft letters
  | .ready draft, .plain text => (draft.setInput? text).map .ready

/-- What the arguments behind a command ask for. -/
def readCommand? (command : Command) (verbosity : Nat) (args : List String) : Option Request := do
  match ← args.foldlM Progress.step? (.ready { verbosity }) with
  | .help => return .help
  | .ready draft | .plainOnly draft => return .job (← draft.job? command)
  | .awaiting .. => none

/-- What came of the short options before a command. -/
inductive Preamble where
  | counted (verbosity : Nat)
  | version
  | help

/-- Reads short options before a command. -/
def readPreamble? (verbosity : Nat) : List Char → Option Preamble
  | [] => some (.counted verbosity)
  | 'v' :: rest => readPreamble? (verbosity + 1) rest
  | 'V' :: _ => some .version
  | 'h' :: _ => some .help
  | _ => none

/-- Is help on these words to be had? They name a command or help itself. -/
def helpExists : List String → Bool
  | [] => true
  | [name] => name == "help" || (Command.ofName? name).isSome
  | _ => false

/-- What the arguments ask for; none when they are refused. -/
def readFrom? (verbosity : Nat) : List String → Option Request
  | [] => none
  | arg :: rest =>
      match Shape.of arg with
      | .plain "help" => if helpExists rest then some .help else none
      | .plain name =>
          (Command.ofName? name).bind fun command => readCommand? command verbosity rest
      | .long "verbose" none => readFrom? (verbosity + 1) rest
      | .long "version" none => some .version
      | .long "help" none => some .help
      | .short letters =>
          match readPreamble? verbosity letters with
          | some (.counted verbosity) => readFrom? verbosity rest
          | some .version => some .version
          | some .help => some .help
          | none => none
      | _ => none

/-- What the arguments of the program ask for; none when they are refused. -/
def Request.ofArguments? (args : List String) : Option Request :=
  readFrom? 0 args

end CommandLine

end Lockstep
