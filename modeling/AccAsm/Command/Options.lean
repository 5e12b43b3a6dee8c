import AccAsm.Image.Rendering
import AccAsm.Text.Path

/-! # Options of a run

What a run can be told, and the names of its outputs that follow from it. -/

namespace AccAsm
open Text (lit)

structure Options where
  out : Text := []
  format : Text := lit "bin"
  /-- The file of the instruction table, empty for the built-in one. -/
  table : Text := []
  /-- The number of words to fill the image up to, if positive. -/
  fill : Int64 := 0
  strict : Bool := false
  debug : Bool := false
  dumpTree : Bool := false
  dumpCells : Bool := false
  verbose : Bool := false
deriving DecidableEq, Repr

/-- The rendering a format stands for. -/
def Rendering.ofFormat? (format : Text) : Option Rendering :=
  if format == lit "bin" then some .binary
  else if format == lit "hex" then some .hex
  else if format == lit "text" then some .listing
  else none

def Rendering.extension : Rendering → Text
  | .binary => lit ".bin"
  | .hex => lit ".hex"
  | .listing => lit ".txt"

/-- The file an image goes to. -/
def Options.outputName (o : Options) (input : Text) : Text :=
  if o.out.isEmpty then
    Path.stem input ++ ((Rendering.ofFormat? o.format).map Rendering.extension).getD []
  else o.out

/-- The file the symbol table goes to that belongs to an image. -/
def symbolFile (output : Text) : Text := Path.stem output ++ lit ".ac16db"

/-- The files that are written if nothing fails, the image among them. -/
def Options.written (o : Options) (output : Text) : List Text :=
  if o.debug then [output, symbolFile output] else [output]

end AccAsm
