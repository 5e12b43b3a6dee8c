import AccAsm.Assembly
import AccAsm.Command.Options
import AccAsm.Command.Report
import AccAsm.Disk
import AccAsm.SymbolTable

/-! # Jobs

A job assembles one input and writes its outputs. Nothing is written before the image is complete. How
log entries, dumps and symbol tables are put into bytes is not for a job to say: it is given `Formats`. -/

namespace AccAsm
open Text (lit)

/-- What a run works with and has brought about so far. -/
structure Session where
  disk : Disk
  /-- Written to standard output. -/
  out : Text := []
  /-- Written to standard error. -/
  err : Text := []
  /-- Places where something was looked for in vain. -/
  sought : List (List Text) := []
deriving Repr

/-- Why a job failed. -/
inductive JobFailure where
  /-- All there is to say has been written already. -/
  | reported
  | because (message : Text)
deriving DecidableEq, Repr

abbrev JobRun (α : Type) := EStateM JobFailure Session α

/-- How a run puts into bytes what has no layout of its own. Where a layout leaves a choice, such as the
order of entries, each run may choose differently. -/
structure Formats where
  entry : LogEntry → Text
  tree : Program → Text
  listing : List Text → Text
  symbols : SymbolTable → Text

/-- What all jobs of a run have in common. -/
structure JobContext where
  formats : Formats
  options : Options
  rendering : Rendering
  table : InstructionTable
  /-- The working directory. -/
  directory : List Text
  /-- Reports are written in colour. -/
  colour : Bool

structure Job where
  /-- The input as it was given. -/
  title : Text
  /-- The name of the input in its directory. -/
  file : Text
  /-- The directory of the input, which it may include files from. -/
  directory : List Text
  /-- What stands before the paths of the files in that directory. -/
  lead : Text
  /-- The full path of the input, empty for standard input. -/
  source : Text
  /-- The path of the image. -/
  output : Text
deriving DecidableEq, Repr

namespace Job

/-- The job for the file at a path, as seen from the working directory. -/
def ofPath (o : Options) (workingDirectory path : Text) : Job :=
  let source := if Path.isRooted path then Path.clean path else Path.join workingDirectory path
  { title := path, file := Path.base source, directory := Disk.names (Path.directory source),
    lead := Path.lead source, source, output := o.outputName path }

/-- The job for standard input. -/
def standardInput (o : Options) (workingDirectory : Text) : Job :=
  { title := lit "<stdin>", file := lit "<stdin>", directory := Disk.names workingDirectory,
    lead := lit "./", source := [], output := o.outputName (lit "out") }

end Job

namespace JobRun

def writeOut (t : Text) : JobRun Unit := modify fun s => { s with out := s.out ++ t }

def writeErr (t : Text) : JobRun Unit := modify fun s => { s with err := s.err ++ t }

/-- Ends a job. -/
def fail {α : Type} (message : Text) : JobRun α := throw (.because message)

/-- Notes that there was nothing at a place. -/
def seek (place : List Text) (flaw : FileFlaw) : JobRun Unit :=
  if flaw.isMissing then modify fun s => { s with sought := s.sought ++ [place] } else pure ()

variable (c : JobContext) (job : Job)

/-- Writes a log entry, if that is wanted. -/
def log (e : LogEntry) : JobRun Unit :=
  if c.options.verbose then writeErr (c.formats.entry (e.withDefault (lit "file") (.text job.title)))
  else pure ()

/-- Reports an error and ends the job. -/
def report {α : Type} (tree : SourceTree) (source message : Text) (position : Option Position) :
    JobRun α := do
  writeErr (Report.render tree job.file source message position c.colour)
  throw .reported

/-- The text of the input. -/
def readInput (tree : SourceTree) (input : Option Text) : JobRun Text :=
  match input with
  | some text => return text
  | none =>
    match tree.read job.file with
    | .ok text => return text
    | .error e => do
      seek (job.directory ++ Disk.names e.path) e.flaw
      fail (lit "reading " ++ job.title ++ lit ": " ++ e.message)

/-- The finished assembly; its errors are reported. -/
def assembleInput (tree : SourceTree) (text : Text) : JobRun Assembly := do
  let assembler : Assembler := { table := c.table, strict := c.options.strict, tree := some tree }
  let result := assembler.assemble job.file text
  result.events.forM fun e => log c job e.entry
  match result.outcome with
  | .ok assembly => return assembly
  | .error (.fault f) => fail (f.message?.getD [])
  | .error (.error e) => do
    if let .inclusion _ _ (.unreadable e) := e then seek (job.directory ++ Disk.names e.path) e.flaw
    report c job tree text (e.message?.getD []) e.position?

/-- Writes the dumps that are wanted. -/
def dump (a : Assembly) : JobRun Unit := do
  if c.options.dumpTree then writeOut (c.formats.tree a.program)
  if c.options.dumpCells then writeOut (c.formats.listing (a.cells.map Cell.render))

/-- The image filled up as far as is wanted. -/
def padImage (tree : SourceTree) (text : Text) (image : Image) : JobRun Image :=
  if 0 < c.options.fill then
    match image.pad c.options.fill with
    | .ok padded => return padded
    | .error e => report c job tree text e.message none
  else return image

/-- Writes a file. -/
def writeFile (path contents : Text) : JobRun Unit := do
  let s ← get
  match s.disk.write c.directory path contents with
  | .ok disk => set { s with disk }
  | .error flaw => do
    seek (Disk.start c.directory path ++ Disk.names path) flaw
    fail (lit "writing " ++ path ++ lit ": " ++ (⟨lit "open", path, flaw⟩ : FileError).message)

/-- Does a job, the input of which is given or else read from its file. -/
def perform (input : Option Text) : JobRun Unit := do
  let tree := (← get).disk.tree job.directory job.lead
  let text ← readInput job tree input
  let assembly ← assembleInput c job tree text
  dump c assembly
  let image ← padImage c job tree text assembly.image
  writeFile c job.output (image.render c.rendering)
  log c job ⟨lit "image written", [(lit "out", .text job.output)]⟩
  if c.options.debug then
    let path := symbolFile job.output
    writeFile c path (c.formats.symbols (.ofCells job.source assembly.cells))
    log c job ⟨lit "symbol table written", [(lit "out", .text path)]⟩

end JobRun
end AccAsm
