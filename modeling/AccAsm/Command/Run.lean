import AccAsm.Command.Job
import AccAsm.Instruction.Load

/-! # Runs

A run loads the instruction table and does a job for every input. A job that fails does not keep the
others from being done. -/

namespace AccAsm
open Text (lit newline)

/-- Where a run takes place. -/
structure Surroundings where
  /-- The full path of the working directory. -/
  workingDirectory : Text
  /-- The text of standard input, unless that is a terminal or another device. -/
  input : Option Text := none
  colour : Bool := false

namespace Command

/-- The instruction table that the options name. -/
def loadTable (path : Text) (directory : List Text) : JobRun InstructionTable := do
  if path.isEmpty then return .builtin
  let loading : Text := lit "loading " ++ path ++ lit ": "
  match (← get).disk.read directory path with
  | .error .isDirectory =>
    JobRun.fail (loading ++ lit "isa: " ++ (⟨lit "read", path, .isDirectory⟩ : FileError).message)
  | .error flaw => do
    JobRun.seek (Disk.start directory path ++ Disk.names path) flaw
    JobRun.fail (⟨lit "open", path, flaw⟩ : FileError).message
  | .ok text =>
    match InstructionTable.load text with
    | .error e => JobRun.fail (loading ++ e.message)
    | .ok table => return table

/-- Does all jobs, and fails with the first failure. -/
def performAll (c : JobContext) : List Job → JobRun Unit
  | [] => return ()
  | job :: rest => fun s =>
    match JobRun.perform c job none s with
    | .ok _ s => performAll c rest s
    | .error e s =>
      match performAll c rest s with
      | .ok _ s | .error _ s => .error e s

/-- Does what the options ask for with the given files. -/
def perform (formats : Formats) (w : Surroundings) (o : Options) (files : List Text) : JobRun Unit := do
  let directory := Disk.names w.workingDirectory
  match Rendering.ofFormat? o.format with
  | none => JobRun.fail (lit "unknown format " ++ Quoted.quote o.format)
  | some rendering => do
    if !o.out.isEmpty && 1 < files.length then
      JobRun.fail (lit "--out requires a single input file")
    let table ← loadTable o.table directory
    if o.verbose then
      JobRun.writeErr
        (formats.entry ⟨lit "instruction table loaded", [(lit "instructions", .number table.size)]⟩)
    let c : JobContext := { formats, options := o, rendering, table, directory, colour := w.colour }
    if files.isEmpty then
      match w.input with
      | none => JobRun.fail (lit "no input files")
      | some text => JobRun.perform c (.standardInput o w.workingDirectory) (some text)
    else performAll c (files.map (.ofPath o w.workingDirectory))

/-- What is left of a run. -/
structure Outcome where
  succeeded : Bool
  session : Session
deriving Repr

/-- The outcome of a run; a failure that has not been reported yet is written to standard error. -/
def Outcome.of : EStateM.Result JobFailure Session Unit → Outcome
  | .ok _ s => ⟨true, s⟩
  | .error .reported s => ⟨false, s⟩
  | .error (.because message) s =>
    ⟨false, { s with err := s.err ++ lit "ac16-asm: " ++ message ++ [newline] }⟩

/-- The outcome of a run that finds the disk as given. -/
def outcome (formats : Formats) (w : Surroundings) (o : Options) (files : List Text) (disk : Disk) : Outcome :=
  .of (perform formats w o files { disk })

end Command
end AccAsm
