import SexprEdit.Edit.Mutation

/-!
# Command-line arguments

The grammar of invocations. Options stand anywhere among the operands until `--`; single letters may be put together
behind one dash, and an option with a value takes it from the next argument or from the rest of its own. Each option
may be given once. Arguments are read from left to right, and the first that is wrong, or that asks for help or for
the version, settles what happens.
-/

namespace SexprEdit

/-- What a command line asks for. -/
inductive Command where
  | check (inputs : List String)
  | find (query : Text) (inputs : List String) (options : MatchOptions) (json : Bool)
  | rename (query replacement : Text) (file : String) (options : MatchOptions) (write : Bool)
  | extract (file : String) (path : String) (name : Text) (write : Bool)
  | thread (file : String) (path : String) (style : ThreadStyle) (write : Bool)
  | apply (file : String) (operations : String) (write : Bool)
deriving DecidableEq, Repr

/-- A command with the settings file that it names. -/
structure Invocation where
  settings : Option String
  command : Command
deriving DecidableEq, Repr

/-- Why arguments are not run as a command: they are wrong, or ask for something else. -/
inductive Stop where
  | wrong
  | help
  | version
deriving DecidableEq, Repr

/-- What may be given as a value. -/
inductive ValueKind where
  | text
  | path
deriving DecidableEq, Repr

/-- Whether a value is of the kind. A path is not empty. -/
def ValueKind.accepts (kind : ValueKind) (value : String) : Bool :=
  kind = .text || value ≠ ""

/-- What an option does: it is noted, it takes a value, or it ends the reading of arguments. -/
inductive Effect where
  | flag
  | value (kind : ValueKind)
  | stop (stop : Stop)
deriving DecidableEq, Repr

/-- An option: its long name, its letter, and what it does. -/
structure OptionSpec where
  long : String
  letter : Option Char := none
  effect : Effect := .flag
deriving DecidableEq, Repr

/-- The options and operands that may stand together. The first operand may be the name of a command, at which
reading stops; otherwise the last operand may be repeatable. -/
structure Grammar where
  options : List OptionSpec
  operands : List ValueKind := []
  repeats : Bool := false
  takesCommand : Bool := false

/-- Arguments sorted into flags, options with values, and operands in their order. -/
structure Arguments where
  flags : List String := []
  values : List (String × String) := []
  operands : List String := []

namespace Arguments

/-- Whether an argument looks like an option. A dash alone does not. -/
def isOption (arg : String) : Bool :=
  arg.toList.head? = some '-' && arg ≠ "-"

def addFlag (a : Arguments) (name : String) : Except Stop Arguments :=
  if a.flags.contains name then .error .wrong else .ok { a with flags := name :: a.flags }

/-- Add an option with its value, unless it is there. -/
def addValue (a : Arguments) (kind : ValueKind) (name value : String) : Except Stop Arguments :=
  if (a.values.lookup name).isSome || !kind.accepts value then .error .wrong
  else .ok { a with values := (name, value) :: a.values }

/-- The kind of the operand that comes next. -/
def nextOperand? (g : Grammar) (a : Arguments) : Option ValueKind :=
  g.operands[a.operands.length]? <|> if g.repeats then g.operands.getLast? else none

/-- Add an operand, if there may be one more. -/
def addOperand (g : Grammar) (a : Arguments) (value : String) : Except Stop Arguments :=
  match nextOperand? g a with
  | some kind => if kind.accepts value then .ok { a with operands := a.operands ++ [value] } else .error .wrong
  | none => .error .wrong

/-- The arguments with one more, and the option that takes the next argument for its value. -/
abbrev Taken := Arguments × Option (String × ValueKind)

/-- Take in a long option, given without its dashes. -/
def takeLong (g : Grammar) (a : Arguments) (body : Text) : Except Stop Taken :=
  let name := String.ofList (body.takeWhile (· ≠ '='))
  match g.options.find? (·.long == name), body.dropWhile (· ≠ '=') with
  | none, _ => .error .wrong
  | some spec, attached =>
    match spec.effect, attached with
    | .value kind, _ :: value => do return (← a.addValue kind name (String.ofList value), none)
    | .value kind, [] => .ok (a, some (name, kind))
    | .flag, [] => do return (← a.addFlag name, none)
    | .stop stop, [] => .error stop
    | _, _ :: _ => .error .wrong

/-- Take in options that are given as letters behind one dash. -/
def takeLetters (g : Grammar) (a : Arguments) : Text → Except Stop Taken
  | [] => .ok (a, none)
  | c :: cs =>
    match g.options.find? (·.letter == some c) with
    | none => .error .wrong
    | some spec =>
      match spec.effect, cs with
      | .flag, cs => do takeLetters g (← a.addFlag spec.long) cs
      | .stop stop, _ => .error stop
      | .value kind, [] => .ok (a, some (spec.long, kind))
      | .value kind, '=' :: value => do return (← a.addValue kind spec.long (String.ofList value), none)
      | .value kind, value => do return (← a.addValue kind spec.long (String.ofList value), none)

/-- Take in an argument that looks like an option. -/
def takeOption (g : Grammar) (a : Arguments) (arg : String) : Except Stop Taken :=
  match arg.toList with
  | '-' :: '-' :: body => takeLong g a body
  | _ :: letters => takeLetters g a letters
  | [] => .error .wrong

/-- Sort arguments; with the name of the command and all behind it, where the grammar has one. -/
def sort (g : Grammar) (a : Arguments) : List String → Except Stop (Arguments × List String)
  | [] => .ok (a, [])
  | arg :: args =>
    if arg == "--" then
      if g.takesCommand then .error .wrong else do return (← args.foldlM (addOperand g) a, [])
    else if isOption arg then do
      let (a, pending) ← takeOption g a arg
      match pending, args with
      | none, args => sort g a args
      | some _, [] => .error .wrong
      | some (name, kind), value :: args =>
        if isOption value then .error .wrong else sort g (← a.addValue kind name value) args
    else if g.takesCommand then .ok (a, arg :: args)
    else do sort g (← addOperand g a arg) args

def flag (a : Arguments) (name : String) : Bool :=
  a.flags.contains name

def value? (a : Arguments) (name : String) : Option String :=
  a.values.lookup name

def matchOptions (a : Arguments) : MatchOptions :=
  ⟨!a.flag "substring", !a.flag "ignore-case"⟩

end Arguments

namespace Command

def paths : Command → List String
  | check inputs => inputs
  | find _ inputs _ _ => inputs
  | rename _ _ file _ _ => [file]
  | extract file _ _ _ => [file]
  | thread file _ _ _ => [file]
  | apply file operations _ => [file, operations]

/-- The options that stand with every command. -/
def sharedOptions : List OptionSpec :=
  [⟨"config", none, .value .path⟩, ⟨"verbose", some 'v', .flag⟩, ⟨"help", some 'h', .stop .help⟩]

def matchingOptions : List OptionSpec :=
  [⟨"substring", some 's', .flag⟩, ⟨"ignore-case", some 'i', .flag⟩]

def writeOption : OptionSpec :=
  ⟨"write", some 'w', .flag⟩

def pathOption : OptionSpec :=
  ⟨"path", some 'p', .value .text⟩

def frontGrammar : Grammar :=
  { options := ⟨"version", some 'V', .stop .version⟩ :: sharedOptions, takesCommand := true }

/-- The grammar behind the name of a command. -/
def grammar? : String → Option Grammar
  | "check" => some { options := sharedOptions, operands := [.path], repeats := true }
  | "find" =>
    some { options := matchingOptions ++ ⟨"json", none, .flag⟩ :: sharedOptions, operands := [.text, .path],
           repeats := true }
  | "rename" =>
    some { options := matchingOptions ++ writeOption :: sharedOptions, operands := [.text, .text, .path] }
  | "extract" =>
    some { options := pathOption :: ⟨"name", some 'n', .value .text⟩ :: writeOption :: sharedOptions,
           operands := [.path] }
  | "thread" =>
    some { options := pathOption :: ⟨"last", some 'l', .flag⟩ :: writeOption :: sharedOptions, operands := [.path] }
  | "apply" =>
    some { options := ⟨"ops", some 'o', .value .path⟩ :: writeOption :: sharedOptions, operands := [.path] }
  | _ => none

/-- A command, given its name and its sorted arguments. -/
def ofArguments? (name : String) (a : Arguments) : Option Command :=
  match name, a.operands with
  | "check", input :: inputs => some (check (input :: inputs))
  | "find", query :: input :: inputs => some (find query.toList (input :: inputs) a.matchOptions (a.flag "json"))
  | "rename", [query, replacement, file] =>
    some (rename query.toList replacement.toList file a.matchOptions (a.flag "write"))
  | "extract", [file] => do
    return extract file (← a.value? "path") (← a.value? "name").toList (a.flag "write")
  | "thread", [file] => do
    return thread file (← a.value? "path") (if a.flag "last" then .last else .first) (a.flag "write")
  | "apply", [file] => do return apply file (← a.value? "ops") (a.flag "write")
  | _, _ => none

/-- What a request for help gives: help, unless it names a command that does not exist. -/
def helpOn : List String → Stop
  | [] => .help
  | [name] => if name == "help" || (grammar? name).isSome then .help else .wrong
  | _ => .wrong

end Command

namespace Invocation

def usage : String :=
  "Usage: paren [--config <path>] [-v|--verbose] <command>\n\n" ++
  "  check <path>...\n" ++
  "  find <query> <path>... [-s|--substring] [-i|--ignore-case] [--json]\n" ++
  "  rename <query> <replacement> <file> [-s|--substring] [-i|--ignore-case] [-w|--write]\n" ++
  "  extract <file> -p|--path <path> -n|--name <name> [-w|--write]\n" ++
  "  thread <file> -p|--path <path> [-l|--last] [-w|--write]\n" ++
  "  apply <file> -o|--ops <file> [-w|--write]\n"

def version : String :=
  "paren 0.1.0\n"

/-- The invocation that some arguments make up. A settings file named behind the command goes before one that is
named in front of it. -/
def ofArguments (args : List String) : Except Stop Invocation := do
  let (front, rest) ← Arguments.sort Command.frontGrammar {} args
  match rest with
  | [] => throw .wrong
  | name :: args =>
    if name == "help" then throw (Command.helpOn args)
    match Command.grammar? name with
    | none => throw .wrong
    | some g =>
      let (sorted, _) ← Arguments.sort g {} args
      match Command.ofArguments? name sorted with
      | some command => return ⟨sorted.value? "config" <|> front.value? "config", command⟩
      | none => throw .wrong

end Invocation

end SexprEdit
