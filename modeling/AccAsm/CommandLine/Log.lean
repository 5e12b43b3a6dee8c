import AccAsm.LogEntry
import AccAsm.Text.Quoted

/-! # Log lines -/

namespace AccAsm
open Text (byte lit newline)

namespace LogEntry

/-- Letters, digits and a few marks need no quotes. -/
def isPlain (b : UInt8) : Bool :=
  Text.isLetter b || Text.isDigit b || (lit "-._/@^+").contains b

def renderText (t : Text) : Text := if t.all isPlain then t else Quoted.quote t

def renderValue : LogValue → Text
  | .text t => renderText t
  | .number n => Numeral.decimal n

/-- The entry as a line, the fields in order of their names. -/
def render (e : LogEntry) : Text :=
  let fields := e.fields.mergeSort fun a b => Text.le a.1 b.1
  lit "level=debug msg=" ++ renderText e.message ++
    fields.flatMap (fun f => byte ' ' :: f.1 ++ byte '=' :: renderValue f.2) ++ [newline]

end LogEntry
end AccAsm
