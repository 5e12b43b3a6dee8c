import AccAsm.Text.Numeral

/-! # Source positions -/

namespace AccAsm
open Text (byte lit)

/-- Where a piece of source stands. Lines and columns count from one; `offset` is the offset of the
piece in its file, `lineOffset` that of the start of its line, and `size` its length, in bytes. -/
structure Position where
  file : Text := []
  line : Int := 0
  column : Int := 0
  offset : Int := 0
  size : Int := 0
  lineOffset : Int := 0
deriving DecidableEq, Repr, Inhabited

/-- `line:column` with two places each, after the name of the file if there is one. -/
def Position.render (p : Position) : Text :=
  (if p.file.isEmpty then [] else p.file ++ [byte ':']) ++
    Numeral.twoPlaces p.line ++ [byte ':'] ++ Numeral.twoPlaces p.column

end AccAsm
