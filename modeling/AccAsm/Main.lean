import AccAsm.Command

/-! # Entry point

Runs the command on the files of the system. The run starts with an empty disk; whatever it looks for
in vain is fetched, and the run is repeated until nothing more is found. -/

namespace AccAsm.Main

def toText (s : String) : Text := s.toUTF8.data.toList

def toBytes (t : Text) : ByteArray := ⟨t.toArray⟩

/-- The path of a place of a disk. -/
def systemPath (key : Text) : String := "/" ++ (Utf8.toString? key).getD ""

/-- What the system has at a place. -/
def fetch (place : List Text) : IO (Option DiskEntry) := do
  let path := systemPath (Disk.placeKey place)
  try
    if ← (← IO.FS.realPath path).isDir then return some .directory
    return some (.file (← IO.FS.readBinFile path).data.toList)
  catch _ => return none

/-- Adds what the system has at a place, and on the way to it. -/
def load (disk : Disk) (place : List Text) : IO Disk :=
  (Disk.ancestors place ++ [place]).foldlM (fun disk place => do
    if (disk.entry? place).isSome then return disk
    match ← fetch place with
    | some e => return disk.put place e
    | none => return disk) disk

/-- The outcome of a run, and the disk it started with in the end. -/
partial def settle (i : Invocation) (disk : Disk) : IO (Disk × Command.Outcome) := do
  let outcome := Command.execute i disk
  let loaded ← outcome.session.sought.foldlM load disk
  if loaded.entries.length = disk.entries.length then return (disk, outcome) else settle i loaded

/-- Standard input, unless it is a device. -/
def standardInput : IO (Option Text) := do
  let isDevice ← try pure (((← IO.FS.realPath "/dev/stdin").toString).startsWith "/dev/") catch _ => pure false
  if isDevice then return none
  return some (← (← IO.getStdin).readBinToEnd).data.toList

end AccAsm.Main

open AccAsm AccAsm.Main in
def main (args : List String) : IO UInt32 := do
  let arguments := args.map toText
  let readsInput := match CommandLine.ofArguments arguments with
    | .ok l => l.inputs.isEmpty && !l.help && (Rendering.ofFormat? l.options.format).isSome
    | .error _ => false
  let workingDirectory := toText (← IO.currentDir).toString
  let stderr ← IO.getStderr
  let i : Invocation := {
    arguments, workingDirectory
    input := ← if readsInput then standardInput else pure none
    colour := ← stderr.isTty }
  let start ← load ⟨[]⟩ (Disk.names workingDirectory)
  let (before, outcome) ← settle i start
  (Disk.changes before outcome.session.disk).forM fun (key, contents) =>
    IO.FS.writeBinFile (systemPath key) (toBytes contents)
  (← IO.getStdout).write (toBytes outcome.session.out)
  stderr.write (toBytes outcome.session.err)
  return if outcome.succeeded then 0 else 1
