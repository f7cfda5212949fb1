import Spintax.CommandLine

/-!
# Spintax — arguments

The arguments are a command and, before and after it, options. An option has a
long form, `--limit 5` or `--limit=5`, and perhaps a letter, `-l 5`, `-l5` or
`-l=5`; letters without a value may stand together, `-cv`. An argument that
starts with a dash is never the value of the option before it, unless it is a
single dash. After `--` nothing is an option.

Arguments count from left to right. The first that makes no sense after those
before it, or that asks for help, decides, and the rest is not looked at; only
what the arguments lack or contradict as a whole is left to the end.

* `Arguments.scan` — the parts among the arguments of a command;
* `Arguments.gather` — what the parts give, or where they stop;
* `Arguments.parse` — what all the arguments ask for.
-/

namespace Spintax

/-- Why the arguments cannot be understood. -/
inductive UsageError where
  | missingCommand
  | unknownCommand (name : String)
  | unknownOption (name : String)
  | missingValue (name : String)
  | unexpectedValue (name : String)
  | invalidValue (name value : String)
  /-- An option that may be given once and comes again. -/
  | repeatedOption (name : String)
  | unexpectedOperand (value : String)
  /-- A file and a text in place of one of them. -/
  | inputConflict
  | missingOption (name : String)
deriving DecidableEq

def UsageError.message : UsageError → String
  | .missingCommand => "a command is required"
  | .unknownCommand name => "unknown command '" ++ name ++ "'"
  | .unknownOption name => "unknown option '" ++ name ++ "'"
  | .missingValue name => "option '--" ++ name ++ "' needs a value"
  | .unexpectedValue name => "option '--" ++ name ++ "' takes no value"
  | .invalidValue name value => "invalid value '" ++ value ++ "' for '" ++ name ++ "'"
  | .repeatedOption name => "option '--" ++ name ++ "' is given twice"
  | .unexpectedOperand value => "unexpected argument '" ++ value ++ "'"
  | .inputConflict => "an input file and '--text' cannot be used together"
  | .missingOption name => "option '--" ++ name ++ "' is required"

namespace Arguments

/-! ## Options -/

/-- What the value of an option may be. -/
inductive ValueKind where
  | text
  /-- A text that is not empty. -/
  | path
  /-- A numeral below 2⁶⁴. -/
  | number
deriving DecidableEq

def ValueKind.allows : ValueKind → String → Bool
  | .text, _ => true
  | .path, value => !value.isEmpty
  | .number, value => (Text.numeral? value.toList).isSome

/-- What may come with an option. -/
inductive Arity where
  | flag
  /-- Nothing, and the option may be repeated. -/
  | counter
  | value (kind : ValueKind)
deriving DecidableEq

structure OptionSpec where
  /-- The long form, without its dashes. -/
  name : String
  /-- The letter, if it has one. -/
  letter? : Option Char
  arity : Arity

/-- A part of the arguments. -/
inductive Part where
  | flag (name : String)
  /-- A flag that may be repeated. -/
  | counter (name : String)
  | option (name : String) (kind : ValueKind) (value : String)
  | operand (value : String)
  /-- Where the arguments stop making sense. -/
  | invalid (error : UsageError)

/-- The options of every command. -/
def commonOptions : List OptionSpec :=
  [⟨"verbose", some 'v', .counter⟩, ⟨"help", some 'h', .flag⟩]

/-- The options before the command. -/
def programOptions : List OptionSpec :=
  commonOptions ++ [⟨"version", some 'V', .flag⟩]

def byName? (specs : List OptionSpec) (name : String) : Option OptionSpec :=
  specs.find? fun spec => spec.name == name

def byLetter? (specs : List OptionSpec) (letter : Char) : Option OptionSpec :=
  specs.find? fun spec => spec.letter? == some letter

/-! ## Scanning -/

inductive Shape where
  /-- The two dashes after which nothing is an option. -/
  | separator
  /-- A long form, perhaps with a value after an equals sign. -/
  | long (name : String) (value : Option String)
  /-- Letters after a single dash. -/
  | letters (cs : List Char)
  | operand
deriving DecidableEq

/-- How an argument is written. A single dash is an operand. -/
def shapeOf (arg : String) : Shape :=
  match arg.toList with
  | ['-'] => .operand
  | ['-', '-'] => .separator
  | '-' :: '-' :: rest =>
    let name := String.ofList (rest.takeWhile (· != '='))
    match rest.dropWhile (· != '=') with
    | [] => .long name none
    | _ :: value => .long name (some (String.ofList value))
  | '-' :: cs => .letters cs
  | _ => .operand

/-- The part that an option without a value is. -/
def OptionSpec.part (spec : OptionSpec) : Part :=
  match spec.arity with
  | .counter => .counter spec.name
  | _ => .flag spec.name

/-- The parts that a run of letters stands for, and the option that waits for
its value in the next argument, if one does, with the kind of that value. -/
def scanLetters (specs : List OptionSpec) :
    List Char → List Part × Option (OptionSpec × ValueKind)
  | [] => ([], none)
  | c :: cs =>
    match byLetter? specs c with
    | none => ([.invalid (.unknownOption (String.ofList ['-', c]))], none)
    | some spec =>
      match spec.arity, cs with
      -- the rest of the argument is the value, or else the next argument
      | .value kind, [] => ([], some (spec, kind))
      | .value kind, '=' :: value => ([.option spec.name kind (String.ofList value)], none)
      | .value kind, value => ([.option spec.name kind (String.ofList value)], none)
      | _, '=' :: _ => ([spec.part, .invalid (.unexpectedValue spec.name)], none)
      | _, cs =>
        let (parts, waiting) := scanLetters specs cs
        (spec.part :: parts, waiting)

/-- The parts of the arguments of a command, up to the first that makes no
sense by itself. -/
def scan (specs : List OptionSpec) : List String → List Part
  | [] => []
  | arg :: args =>
    match shapeOf arg with
    -- nothing after the separator is an option, whatever it looks like
    | .separator => args.map .operand
    | .operand => .operand arg :: scan specs args
    | .long name value =>
      match byName? specs name with
      | none => [.invalid (.unknownOption arg)]
      | some spec =>
        match spec.arity, value with
        | .value kind, some v => .option name kind v :: scan specs args
        | .value kind, none =>
          match args with
          | [] => [.invalid (.missingValue name)]
          | v :: args =>
            if shapeOf v = .operand then .option name kind v :: scan specs args
            else [.invalid (.missingValue name)]
        | _, some _ => [.invalid (.unexpectedValue name)]
        | _, none => spec.part :: scan specs args
    | .letters cs =>
      let (parts, waiting) := scanLetters specs cs
      match waiting, args with
      | none, args => parts ++ scan specs args
      | some (spec, _), [] => parts ++ [.invalid (.missingValue spec.name)]
      | some (spec, kind), v :: args =>
        if shapeOf v = .operand then parts ++ .option spec.name kind v :: scan specs args
        else parts ++ [.invalid (.missingValue spec.name)]

/-! ## Gathering -/

/-- What the parts so far give. -/
structure Given where
  flags : List String
  /-- The values of the options by name. -/
  values : List (String × String)
  operand? : Option String

/-- What decides about all the arguments before their end. -/
inductive Stop where
  | help
  | version
  | error (e : UsageError)

/-- What is given with one more part. There is an operand only if
`takesOperand` holds, and it is a path. -/
def Given.add (takesOperand : Bool) (given : Given) : Part → Except Stop Given
  | .invalid e => .error (.error e)
  | .operand value =>
    if !takesOperand || given.operand?.isSome then .error (.error (.unexpectedOperand value))
    else if ValueKind.path.allows value then .ok { given with operand? := some value }
    else .error (.error (.invalidValue "input" value))
  | .flag name =>
    if name = "help" then .error .help
    else if name = "version" then .error .version
    else if given.flags.contains name then .error (.error (.repeatedOption name))
    else .ok { given with flags := name :: given.flags }
  | .counter _ => .ok given
  | .option name kind value =>
    if (given.values.lookup name).isSome then .error (.error (.repeatedOption name))
    else if kind.allows value then .ok { given with values := (name, value) :: given.values }
    else .error (.error (.invalidValue name value))

/-- What the parts give, taken from left to right. -/
def gather (takesOperand : Bool) (parts : List Part) : Except Stop Given :=
  parts.foldlM (Given.add takesOperand) ⟨[], [], none⟩

namespace Given

def flag (given : Given) (name : String) : Bool :=
  given.flags.contains name

def value? (given : Given) (name : String) : Option String :=
  given.values.lookup name

def number? (given : Given) (name : String) : Option UInt64 :=
  (given.value? name).bind fun v => Text.numeral? v.toList

/-- The text that a command works on. -/
def input (given : Given) : Except UsageError InputSource :=
  match given.operand?, given.value? "text" with
  | none, none => .ok .missing
  | some p, none => .ok (.file p)
  | none, some s => .ok (.inline s)
  | some _, some _ => .error .inputConflict

end Given

/-! ## Commands -/

/-- The option for a text in place of a file. -/
def textOption : OptionSpec := ⟨"text", some 't', .value .text⟩

/-- How a command is called. -/
structure CommandSpec where
  name : String
  takesOperand : Bool
  options : List OptionSpec
  /-- The command that its arguments make. -/
  build : Given → Except UsageError Command

def commands : List CommandSpec :=
  [⟨"init", false,
      [⟨"src-dir", some 's', .value .text⟩, ⟨"extension", some 'e', .value .text⟩,
       ⟨"force", some 'f', .flag⟩],
      fun given =>
        .ok (.init ((given.value? "src-dir").getD Project.default.srcDir)
          ((given.value? "extension").getD Project.default.extension) (given.flag "force"))⟩,
   ⟨"parse", true, [textOption, ⟨"compact", some 'c', .flag⟩],
      fun given => do return .parse (← given.input) (given.flag "compact")⟩,
   ⟨"format", true, [textOption, ⟨"check", none, .flag⟩],
      fun given => do return .format (← given.input) (given.flag "check")⟩,
   ⟨"count", true, [textOption, ⟨"ceiling", none, .value .number⟩],
      fun given => do return .count (← given.input) (given.number? "ceiling")⟩,
   ⟨"render", true,
      [textOption, ⟨"samples", some 'n', .value .number⟩, ⟨"seed", some 's', .value .number⟩],
      fun given => do
        return .render (← given.input) ((given.number? "samples").getD 1).toNat
          (given.number? "seed")⟩,
   ⟨"enumerate", true, [textOption, ⟨"limit", some 'l', .value .number⟩],
      fun given => do
        return .enumerate (← given.input)
          ((given.number? "limit").getD CommandLine.defaultLimit)⟩,
   ⟨"edit", true,
      [textOption, ⟨"script", some 's', .value .path⟩, ⟨"json", none, .flag⟩,
       ⟨"strict", none, .flag⟩],
      fun given => do
        match given.value? "script" with
        | none => throw (.missingOption "script")
        | some script =>
          return .edit (← given.input) script (given.flag "json") (given.flag "strict")⟩,
   ⟨"check", true, [⟨"strict", none, .flag⟩],
      fun given => .ok (.check given.operand? (given.flag "strict"))⟩]

def command? (name : String) : Option CommandSpec :=
  commands.find? fun spec => spec.name == name

/-- The name of the command that shows help. -/
def helpName : String := "help"

/-- Help is there for the program, a command, and help itself; no command has
commands of its own. -/
def parseHelp : List String → Except UsageError Invocation
  | [] => .ok .help
  | name :: names =>
    if name != helpName && (command? name).isNone then .error (.unknownCommand name)
    else
      match names with
      | [] => .ok .help
      | name :: _ => .error (.unknownCommand name)

/-- What arguments ask for that stop before their end. -/
def Stop.answer : Stop → Except UsageError Invocation
  | .help => .ok .help
  | .version => .ok .version
  | .error e => .error e

/-- What a command is asked for. -/
def parseCommand (name : String) (args : List String) : Except UsageError Invocation :=
  match command? name with
  | none => if name = helpName then parseHelp args else .error (.unknownCommand name)
  | some spec =>
    match gather spec.takesOperand (scan (spec.options ++ commonOptions) args) with
    | .error stop => stop.answer
    | .ok given => (spec.build given).map .run

/-- What the arguments ask for. -/
def parse : List String → Except UsageError Invocation
  | [] => .error .missingCommand
  | arg :: args =>
    match shapeOf arg with
    | .separator => .error .missingCommand
    | .operand => parseCommand arg args
    | _ =>
      match gather false (scan programOptions [arg]) with
      | .error stop => stop.answer
      | .ok _ => parse args

end Arguments

end Spintax
