import AccAsm.Text.Blank
import AccAsm.Text.Numeral

/-! # Comma-separated records

Records stand on lines, their fields between commas. Leading white space of a field is dropped. A
field may stand between double quotes: it may then hold commas and line ends, and a quote inside it
is written twice. Lines that are empty or start with a number sign hold no record. -/

namespace AccAsm

namespace Csv
open Text (byte lit newline carriageReturn)

/-- What is wrong with a field. -/
inductive Flaw where
  /-- A quote in a field that does not start with one. -/
  | bareQuote
  /-- A quoted field that goes on after its closing quote, or never ends. -/
  | strayQuote
deriving DecidableEq, Repr

/-- A failed reading; lines and columns count from one, columns in bytes. -/
inductive Error where
  /-- A record that starts on line `start` has a flaw at `line` and `column`. -/
  | flawed (start line column : Nat) (flaw : Flaw)
  /-- The record that starts on `line` has too few or too many fields. -/
  | fieldCount (line : Nat)
deriving DecidableEq, Repr

def Flaw.message : Flaw → Text
  | .bareQuote => lit "bare \" in non-quoted-field"
  | .strayQuote => lit "extraneous or missing \" in quoted-field"

def Error.message : Error → Text
  | .fieldCount line => lit "record on line " ++ Numeral.decimal line ++ lit ": wrong number of fields"
  | .flawed start line column flaw =>
    (if start == line then [] else lit "record on line " ++ Numeral.decimal start ++ lit "; ") ++
      lit "parse error on line " ++ Numeral.decimal line ++ lit ", column " ++
      Numeral.decimal column ++ lit ": " ++ flaw.message

/-- Line ends without their carriage returns; one at the end of the text goes too. -/
def normalLineEnds : Text → Text
  | [] => []
  | a :: t =>
    if a == carriageReturn && (t.isEmpty || t.head? == some newline) then normalLineEnds t
    else a :: normalLineEnds t

/-- What the reader is in the middle of. -/
inductive State where
  | lineStart
  | comment
  | fieldStart
  | plain (sofar : Text)
  | quoted (sofar : Text)
  /-- A quoted field after a quote, which ends it unless another quote follows. -/
  | closing (sofar : Text)
deriving DecidableEq, Repr

structure Reader where
  /-- The number of fields of every record. -/
  width : Nat
  state : State := .lineStart
  /-- Where the next byte stands; after a newline, still on the line that it ends. -/
  line : Nat := 0
  column : Nat := 1
  atLineEnd : Bool := true
  /-- The line on which the record in hand starts. -/
  start : Nat := 0
  /-- The fields of the record in hand, last one first. -/
  fields : List Text := []
  /-- The finished records, last one first. -/
  records : List (List Text) := []
deriving DecidableEq, Repr

namespace Reader

def endField (r : Reader) (field : Text) : Reader :=
  { r with fields := field :: r.fields, state := .fieldStart }

def endRecord (r : Reader) (field : Text) : Except Error Reader :=
  let record := (field :: r.fields).reverse
  if record.length == r.width then
    .ok { r with records := record :: r.records, fields := [], state := .lineStart }
  else .error (.fieldCount r.start)

/-- The field after its leading white space. -/
def openField (r : Reader) (p : Utf8.Piece) : Except Error Reader :=
  if p.char == '\n' then r.endRecord []
  else if Blank.isBlank p.char then .ok r
  else if p.char == ',' then .ok (r.endField [])
  else if p.bytes == [Text.doubleQuote] then .ok { r with state := .quoted [] }
  else .ok { r with state := .plain p.bytes }

/-- Takes in one character, standing at the column of `r`. -/
def take (r : Reader) (p : Utf8.Piece) : Except Error Reader :=
  match r.state with
  | .lineStart =>
    if p.char == '\n' then .ok r
    else if p.char == '#' then .ok { r with state := .comment }
    else openField { r with state := .fieldStart, start := r.line } p
  | .comment => .ok (if p.char == '\n' then { r with state := .lineStart } else r)
  | .fieldStart => r.openField p
  | .plain sofar =>
    if p.char == '\n' then r.endRecord sofar
    else if p.char == ',' then .ok (r.endField sofar)
    else if p.bytes == [Text.doubleQuote] then
      .error (.flawed r.start r.line r.column .bareQuote)
    else .ok { r with state := .plain (sofar ++ p.bytes) }
  | .quoted sofar =>
    if p.bytes == [Text.doubleQuote] then .ok { r with state := .closing sofar }
    else .ok { r with state := .quoted (sofar ++ p.bytes) }
  | .closing sofar =>
    if p.bytes == [Text.doubleQuote] then .ok { r with state := .quoted (sofar ++ p.bytes) }
    else if p.char == ',' then .ok (r.endField sofar)
    else if p.char == '\n' then r.endRecord sofar
    else .error (.flawed r.start r.line (r.column - 1) .strayQuote)

/-- Takes in one character and moves past it. -/
def step (r : Reader) (p : Utf8.Piece) : Except Error Reader := do
  let r := if r.atLineEnd then { r with line := r.line + 1, column := 1, atLineEnd := false } else r
  let r ← r.take p
  return { r with column := r.column + p.bytes.length, atLineEnd := p.char == '\n' }

/-- The end of the text ends the record in hand, if its last field can end there. -/
def finish (r : Reader) : Except Error (List (List Text)) := do
  let r ← match r.state with
    | .lineStart | .comment => pure r
    | .fieldStart => r.endRecord []
    | .plain sofar | .closing sofar => r.endRecord sofar
    | .quoted _ => throw (.flawed r.start r.line r.column .strayQuote)
  return r.records.reverse

end Reader

/-- The records of a text, each of `width` fields. -/
def read (width : Nat) (t : Text) : Except Error (List (List Text)) := do
  let r ← (Utf8.pieces (normalLineEnds t)).foldlM Reader.step { width }
  r.finish

end Csv
end AccAsm
