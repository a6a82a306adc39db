import SexprEdit.Command.Run

/-!
# The command line

The files that a command names are read into a disk, the command runs on it, and the files that it changed are
written back.
-/

namespace SexprEdit

def writtenPath : List String → String
  | [] => "."
  | "/" :: names => "/" ++ "/".intercalate names
  | names => "/".intercalate names

/-- Add a file, or a directory with everything below it, to a disk. -/
partial def snapshotBelow (disk : Disk) (names : List String) : IO Disk := do
  let path := (← IO.currentDir) / writtenPath names
  if ← path.isDir then
    let mut disk := { disk with directories := names :: disk.directories }
    for entry in ← path.readDir do
      disk ← snapshotBelow disk (names ++ [entry.fileName])
    return disk
  else
    match ← (IO.FS.readBinFile path).toBaseIO with
    | .ok content => return disk.put names content
    | .error _ => return disk

/-- Add what a path leads to, and the directories or files on the way, to a disk. -/
def snapshot (disk : Disk) (path : String) : IO Disk := do
  let names := (pathParts path).foldl Disk.step (pathStart path)
  let mut disk := disk
  for depth in List.range names.length do
    let above := names.take depth
    let path := (← IO.currentDir) / writtenPath above
    if ← path.isDir then disk := { disk with directories := above :: disk.directories }
    else disk ← snapshotBelow disk above
  snapshotBelow disk names

/-- Print what a run left behind and write the files that it changed. -/
def settle (before : Disk) (outcome : Outcome) : IO UInt32 := do
  for (names, content) in before.changes outcome.disk do
    IO.FS.writeBinFile ((← IO.currentDir) / writtenPath names) content
  (← IO.getStdout).putStr outcome.printed.out
  (← IO.getStderr).putStr outcome.printed.err
  return outcome.exitCode.toUInt32

/-- Run a command line on the files of the machine. -/
def runOnFiles (args : List String) : IO UInt32 := do
  match Invocation.ofArguments args with
  | .error stop => settle {} (stop.outcome {})
  | .ok i =>
    let disk ← (i.settings.getD Settings.defaultFile :: i.command.paths).foldlM snapshot {}
    settle disk (i.run disk)

end SexprEdit

def main (args : List String) : IO UInt32 :=
  SexprEdit.runOnFiles args
