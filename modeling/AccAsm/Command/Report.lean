import AccAsm.Assembly.Log

/-! # Error reports

A report quotes the line an error points to and underlines the place. -/

namespace AccAsm
open Text (byte lit newline)

namespace Report

def bold (t : Text) : Text := lit "\x1b[1m" ++ t ++ lit "\x1b[0m"

def red (t : Text) : Text := lit "\x1b[31m" ++ t ++ lit "\x1b[0m"

/-- Cuts a text after the first colon that a blank follows. -/
def splitHeading : Text → Option (Text × Text)
  | [] => none
  | b :: rest =>
    if b == byte ':' && rest.head? == some (byte ' ') then some ([b], rest)
    else (splitHeading rest).map fun (heading, body) => (b :: heading, body)

/-- A message, with the place at its start set in bold if `colour`. -/
def headline (message : Text) (colour : Bool) : Text :=
  if colour then
    match splitHeading message with
    | some (heading, body) => bold heading ++ body
    | none => message
  else message

/-- The name of a file as the heading of a message. -/
def fileHeading (file : Text) (colour : Bool) : Text :=
  if colour then bold (file ++ lit ":") else file ++ lit ":"

/-- The rest of the line from an offset on, without carriage returns at its end. -/
def sourceLine? (source : Text) (offset : Int) : Option Text :=
  if offset < 0 ∨ source.length < offset then none
  else
    let line := (source.drop offset.toNat).takeWhile (· != newline)
    some (Text.dropTrailing Text.carriageReturn line)

/-- A mark below every byte of the place, and at least one. -/
def underline (p : Position) : Text :=
  List.replicate (p.offset - p.lineOffset).toNat (byte ' ') ++
    byte '^' :: List.replicate (p.size.toNat - 1) (byte '~')

/-- The report of an error in the file `name`, the text of which is `source`; other files are read
from the tree. -/
def render (tree : SourceTree) (name source : Text) (message : Text) (position : Option Position)
    (colour : Bool) : Text :=
  match position with
  | none => fileHeading name colour ++ byte ' ' :: message ++ [newline]
  | some p =>
    let text := if p.file.isEmpty || p.file == name then some source else (tree.read p.file).toOption
    let heading := headline message colour ++ [newline]
    match text.bind (sourceLine? · p.lineOffset) with
    | none => heading
    | some line =>
      let marks := if colour then red (underline p) else underline p
      heading ++ line ++ newline :: marks ++ [newline]

end Report
end AccAsm
