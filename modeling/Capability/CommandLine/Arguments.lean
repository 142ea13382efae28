/-
  Capability.CommandLine.Arguments — what is asked for on the command line.

  Arguments are read from left to right, and the first that is a request for help or for
  the version, or that is wrong, decides. Every option and flag may be given once; an
  option takes the next argument as its value, unless that looks like an option itself, or
  what follows its equals sign. Behind a double dash everything is an operand.
-/

namespace Capability.CommandLine

/-- What ends the reading of arguments early. -/
inductive Stop where
  | help
  | version
  | misuse
  deriving DecidableEq, Repr

/-- What the values of an option must be. -/
inductive ValueKind where
  | text
  /-- Not empty. -/
  | path
  /-- A natural number of 64 bits. -/
  | number
  deriving DecidableEq, Repr

/-- A natural number, perhaps behind a plus sign. -/
def number? (text : String) : Option Nat :=
  let digits := match text.toList with
    | '+' :: rest => rest
    | cs => cs
  if !digits.isEmpty && digits.all Char.isDigit then
    let n := digits.foldl (fun n c => n * 10 + (c.toNat - 48)) 0
    if n < UInt64.size then some n else none
  else none

def ValueKind.accepts : ValueKind → String → Bool
  | .text, _ => true
  | .path, value => value ≠ ""
  | .number, value => (number? value).isSome

/-- What a subcommand understands besides its operand, the path of a graph, and the flag
    for verbose output. -/
structure Usage where
  name : String
  flags : List String := []
  options : List (String × ValueKind) := []
  deriving Repr

def usages : List Usage := [
  { name := "validate", options := [("skills", .path)] },
  { name := "info" },
  { name := "metrics", flags := ["json"] },
  { name := "diagram" },
  { name := "run", flags := ["auto-approve", "json"],
    options := [("vars", .text), ("intent", .text), ("depth", .text), ("skills", .path),
                ("max-node-visits", .number)] }]

/-- The arguments of a subcommand read so far. -/
structure Given where
  operand : Option String := none
  flags : List String := []
  options : List (String × String) := []
  deriving Repr

def Given.has (g : Given) (flag : String) : Bool := g.flags.contains flag

def Given.value? (g : Given) (option : String) : Option String := g.options.lookup option

def Given.value (g : Given) (option default : String) : String := (g.value? option).getD default

/-- Whether an argument looks like an option; a single dash does not. -/
def looksLikeOption (a : String) : Bool := a.startsWith "-" && a ≠ "-"

def Given.addOperand (g : Given) (a : String) : Except Stop Given :=
  if g.operand.isNone && ValueKind.path.accepts a then .ok { g with operand := some a } else .error .misuse

def Given.addFlag (g : Given) (flag : String) : Except Stop Given :=
  if g.has flag then .error .misuse else .ok { g with flags := flag :: g.flags }

def Given.addOption (g : Given) (option : String) (kind : ValueKind) (value : String) : Except Stop Given :=
  if (g.value? option).isSome || !kind.accepts value then .error .misuse
  else .ok { g with options := (option, value) :: g.options }

/-- The name of a long option and the value behind its equals sign. -/
def splitLong (a : String) : String × Option String :=
  let body := a.toList.drop 2
  let name := body.takeWhile (· ≠ '=')
  (String.ofList name, (body.drop name.length).tail?.map String.ofList)

/-- A cluster of flags of one letter; `letter` says what each of them stands for. -/
def readShort (letter : Char → Except Stop String) : List Char → Given → Except Stop Given
  | [], g => .ok g
  | c :: rest, g => do readShort letter rest (← g.addFlag (← letter c))

def subcommandLetter (c : Char) : Except Stop String :=
  if c = 'v' then .ok "verbose" else if c = 'h' then .error .help else .error .misuse

/-- A long option without a value of its own, if it is known. -/
def readLongFlag (u : Usage) (name : String) (g : Given) : Except Stop Given :=
  if name = "help" then .error .help
  else if name = "verbose" || u.flags.contains name then g.addFlag name
  else .error .misuse

/-- The arguments behind the name of a subcommand. -/
def Usage.read (u : Usage) : List String → Given → Except Stop Given
  | [], g => .ok g
  | a :: rest, g =>
    if a = "--" then rest.foldlM Given.addOperand g
    else if !looksLikeOption a then do u.read rest (← g.addOperand a)
    else if !a.startsWith "--" then do u.read rest (← readShort subcommandLetter (a.toList.drop 1) g)
    else
      match splitLong a with
      | (name, some value) =>
        match u.options.lookup name with
        | some kind => do u.read rest (← g.addOption name kind value)
        | none => .error .misuse
      | (name, none) =>
        match u.options.lookup name with
        | none => do u.read rest (← readLongFlag u name g)
        | some kind =>
          match rest with
          | [] => .error .misuse
          | value :: rest =>
            if looksLikeOption value then .error .misuse
            else do u.read rest (← g.addOption name kind value)

/-- A subcommand with the path of its graph and what else was given. -/
structure Command where
  usage : Usage
  graph : String
  given : Given
  deriving Repr

/-- Reads the arguments of a subcommand, which needs the path of a graph. -/
def readSubcommand (u : Usage) (args : List String) : Except Stop Command := do
  let g ← u.read args {}
  match g.operand with
  | some graph => .ok ⟨u, graph, g⟩
  | none => .error .misuse

/-- Whether help can be had on what follows the word `help`. -/
def helpTopic : List String → Bool
  | [] => true
  | [name] => name = "help" || usages.any (·.name = name)
  | _ => false

def topLetter (c : Char) : Except Stop String :=
  if c = 'V' then .error .version else subcommandLetter c

/-- Reads all arguments. -/
def readArguments : List String → Given → Except Stop Command
  | [], _ => .error .misuse
  | a :: rest, g =>
    if a = "--version" then .error .version
    else if a = "--help" then .error .help
    else if a = "--verbose" then do readArguments rest (← g.addFlag "verbose")
    else if a.startsWith "--" then .error .misuse
    else if looksLikeOption a then do readArguments rest (← readShort topLetter (a.toList.drop 1) g)
    else if a = "help" then .error (if helpTopic rest then .help else .misuse)
    else
      match usages.find? (·.name = a) with
      | some u => readSubcommand u rest
      | none => .error .misuse

end Capability.CommandLine
