import SexprEdit.Command.Arguments
import SexprEdit.Command.Settings
import SexprEdit.Json.Printer
import SexprEdit.Session.Registry

/-!
# Running commands

A command reads files, edits one of them in a session, and prints the result or writes it back. It runs on a machine:
what it prints and what it writes before it fails stays there.
-/

namespace SexprEdit

/-- What was printed: results, and messages. -/
structure Printed where
  out : String := ""
  err : String := ""
deriving DecidableEq, Repr

/-- What a program runs on: the files that it reads and writes, and what it has printed. -/
structure Machine where
  disk : Disk
  printed : Printed := {}

/-- A program that uses a machine and may fail with a message. What it did before a failure stays. -/
abbrev Program := ExceptT String (StateM Machine)

/-- How a run ended: the exit code, what was printed, and the disk that it left. -/
structure Outcome where
  exitCode : Nat
  printed : Printed
  disk : Disk

namespace Program

/-- A program sees the disk as it is at that time. -/
instance : MonadReaderOf Disk Program where
  read := do return (← get).disk

def print (text : String) : Program Unit :=
  modify fun machine => { machine with printed.out := machine.printed.out ++ text }

def note (line : String) : Program Unit :=
  modify fun machine => { machine with printed.err := machine.printed.err ++ line ++ "\n" }

/-- Print the report on an unreadable file. -/
def reportUnreadable (file : String) (source : Text) (e : ReadError) : Program Unit :=
  (e.report file source).forM note

/-- The value of a result, or its message as a failure. -/
def orThrow : Except EditError α → Program α
  | .ok a => return a
  | .error e => throw e.message

/-! ## Files -/

/-- The files that an input stands for: itself, or the sources below it. -/
def filesOf (settings : Settings) (input : String) : Program (List String) := do
  let disk ← read
  if disk.isFileAt input then return [input]
  else
    match disk.isDirectoryAt input, disk.locate input with
    | true, .ok names =>
      let sources := (disk.filesBelow names).filter fun way => way.getLast?.any settings.isSource
      return sources.map fun way => joinPath input ("/".intercalate way)
    | _, _ => throw ("Input path does not exist: " ++ input)

def collectFiles (settings : Settings) (inputs : List String) : Program (List String) := do
  return (← inputs.mapM (filesOf settings)).flatten

/-- Open a session on a file, named after its path. -/
def openFile (r : Registry) (file : String) : Program Registry := do
  let disk ← read
  match r.createFromFile disk file file with
  | (.ok (), r) => return r
  | (.error (.unreadable e), _) =>
    reportUnreadable file (disk.readText file).toOption.toList.flatten e
    throw ("Failed to parse " ++ file)
  | (.error _, _) => throw ("Cannot open " ++ file)

def save (r : Registry) (file : String) : Program Saved := do
  let (result, _, disk) := r.save (← read) file none
  modify fun machine => { machine with disk }
  orThrow result

/-- Write a session back to its file, or print it. -/
def finish (r : Registry) (file : String) (write : Bool) : Program Unit := do
  if write then
    match ← save r file with
    | .written path => note ("✓ wrote " ++ path)
    | .text _ => pure ()
  else
    let text ← orThrow (r.source file).1
    print (String.ofList text)

/-- A number of decimal digits, with an optional plus sign, that fits in 64 bits. -/
def natural? (t : Text) : Option Nat :=
  let digits := if t.head? = some '+' then t.drop 1 else t
  if Number.isRun Char.isDigit digits && Number.decimalValue digits < Nat.pow 2 64 then
    some (Number.decimalValue digits)
  else none

/-- The numbers of a path that is written with dots between them. -/
def parsePath (text : String) : Program (List Nat) :=
  if (Text.trim text.toList).isEmpty then return []
  else
    (Text.split '.' text.toList).mapM fun part =>
      match natural? (Text.trim part) with
      | some n => return n
      | none => throw ("Invalid path segment '" ++ String.ofList part ++ "' in '" ++ text ++ "'")

/-! ## Commands -/

/-- Check one file, and say whether it is in order. -/
def checkFile (file : String) : Program Bool := do
  match (← read).readText file with
  | .error e => throw e.message
  | .ok source =>
    match Tree.read source with
    | .ok tree =>
      if tree.text = source then
        print ("✓ " ++ file ++ "\n")
        return true
      else
        print ("✗ " ++ file ++ " (round-trip differs)\n")
        return false
    | .error e =>
      reportUnreadable file source e
      print ("✗ " ++ file ++ "\n")
      return false

/-- Check that files can be read and are written back as they are. -/
def check (settings : Settings) (inputs : List String) : Program Unit := do
  let files ← collectFiles settings inputs
  let verdicts ← files.mapM checkFile
  let failed := verdicts.countP (!·)
  print s!"\n   Files checked: {files.length}\n"
  if 0 < failed then
    print s!"   Failed: {failed}\n"
    throw s!"{failed} of {files.length} files failed"

def findInFile (r : Registry) (query : Text) (options : MatchOptions) (file : String) :
    Program (String × List Match) := do
  let r ← openFile r file
  return (file, ← orThrow (r.find file query options).1)

def matchLine (file : String) (hit : Match) : String :=
  s!"{file}:{hit.location.line}:{hit.location.column} " ++ String.ofList hit.text ++ s!" ({hit.kind.name})\n"

def find (settings : Settings) (query : Text) (inputs : List String) (options : MatchOptions) (json : Bool) :
    Program Unit := do
  let files ← collectFiles settings inputs
  let results ← files.mapM (findInFile { config := settings.editor } query options)
  let hits := results.flatMap fun (file, found) => found.map fun hit => (file, hit)
  if json then
    let items := hits.map fun (file, hit) => Json.object (("file", .string file) :: hit.fields)
    print ((Json.array items).pretty ++ "\n")
  else
    hits.forM fun (file, hit) => print (matchLine file hit)
    note s!"   {hits.length} matches in {files.length} files"

def rename (settings : Settings) (query replacement : Text) (file : String) (options : MatchOptions) :
    Program Registry := do
  let r ← openFile { config := settings.editor } file
  let (count, r) := r.rename file query replacement options
  let count ← orThrow count
  let label := if count = 0 then "✗ no occurrences" else "✓ replaced"
  note (s!"{label} {count} of '" ++ String.ofList query ++ "'")
  return r

/-- Apply a mutation to a session of a file. -/
def mutate (r : Registry) (file : String) (m : Mutation) : Program (CommitReport × Registry) := do
  let (result, r) := r.apply file m
  return (← orThrow result, r)

/-- Open a file, go to a form of it, apply a mutation there, and tell about that. -/
def mutateAt (settings : Settings) (file path : String) (m : Mutation) (message : CommitReport → String) :
    Program Registry := do
  let r ← openFile { config := settings.editor } file
  let (_, r) ← mutate r file (.goto (← parsePath path))
  let (report, r) ← mutate r file m
  note (message report)
  return r

/-- Open a file and bind a form of it to a name. -/
def extract (settings : Settings) (file path : String) (name : Text) : Program Registry :=
  mutateAt settings file path (.extract name) fun report =>
    "✓ bound '" ++ String.ofList name ++ s!"' at line {report.location.line}"

/-- Open a file and turn a nested call of it into a pipeline. -/
def thread (settings : Settings) (file path : String) (style : ThreadStyle) : Program Registry :=
  mutateAt settings file path (.thread style) fun _ => "✓ threaded with " ++ String.ofList style.arrow

def readOperations (path : String) : Program (List Mutation) := do
  match (← read).readText path with
  | .error _ => throw ("Cannot read " ++ path)
  | .ok content =>
    match (Json.read? content).bind (Json.arrayOf? Mutation.ofJson?) with
    | some operations => return operations
    | none => throw ("Invalid operations in " ++ path)

/-- Open a file and apply a batch of mutations to it. -/
def apply (settings : Settings) (file operations : String) : Program Registry := do
  let ms ← readOperations operations
  let r ← openFile { config := settings.editor } file
  let (result, r) := r.applyAll file ms
  let report ← orThrow result
  note s!"✓ applied {ms.length} operations"
  report.replacements.forM fun count => note s!"   Replacements: {count}"
  return r

end Program

def Command.program (settings : Settings) : Command → Program Unit
  | check inputs => Program.check settings inputs
  | find query inputs options json => Program.find settings query inputs options json
  | rename query replacement file options write => do
    Program.finish (← Program.rename settings query replacement file options) file write
  | extract file path name write => do Program.finish (← Program.extract settings file path name) file write
  | thread file path style write => do Program.finish (← Program.thread settings file path style) file write
  | apply file operations write => do Program.finish (← Program.apply settings file operations) file write

def Invocation.program (i : Invocation) : Program Unit := do
  match Settings.load (← read) i.settings with
  | .ok settings => i.command.program settings
  | .error message => throw message

/-- Run an invocation on a disk. A failure is told on the last line of the messages. -/
def Invocation.run (i : Invocation) (disk : Disk) : Outcome :=
  match i.program.run.run { disk } with
  | (.ok (), ⟨disk, printed⟩) => ⟨0, printed, disk⟩
  | (.error message, ⟨disk, printed⟩) => ⟨1, { printed with err := printed.err ++ "Error: " ++ message ++ "\n" }, disk⟩

/-- What comes of arguments that are not run as a command. -/
def Stop.outcome (disk : Disk) : Stop → Outcome
  | wrong => ⟨2, { err := Invocation.usage }, disk⟩
  | help => ⟨0, { out := Invocation.usage }, disk⟩
  | version => ⟨0, { out := Invocation.version }, disk⟩

def runCommandLine (disk : Disk) (args : List String) : Outcome :=
  match Invocation.ofArguments args with
  | .ok i => i.run disk
  | .error stop => stop.outcome disk

end SexprEdit
