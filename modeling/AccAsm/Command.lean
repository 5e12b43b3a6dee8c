import AccAsm.Command.Run
import AccAsm.CommandLine.Dump
import AccAsm.CommandLine.Help
import AccAsm.CommandLine.Log
import AccAsm.CommandLine.SymbolFile

/-! # The command

Understands the arguments of a run and fixes the layout of what it writes. Runs do not depend on either. -/

namespace AccAsm
open Text (lit)

/-- What the command is started with. -/
structure Invocation extends Surroundings where
  arguments : List Text

namespace Command

/-- The layouts of this command. -/
def formats : Formats where
  entry := LogEntry.render
  tree p := p.dump.render
  listing ts := (Block.list (lit "[]string") (ts.map fun t => [Quoted.quote t])).render
  symbols := SymbolTable.write

/-- Runs the command on a disk. -/
def execute (i : Invocation) (disk : Disk) : Outcome :=
  match CommandLine.ofArguments i.arguments with
  | .error e => .of (JobRun.fail e.message { disk })
  | .ok l =>
    if l.help then .of (JobRun.writeOut Help.text { disk })
    else outcome formats i.toSurroundings l.options l.inputs disk

end Command
end AccAsm
