import AccAsm.Text.Numeral

/-! # Blocks of lines

How nested values are laid out over several lines. The names of consecutive fields are padded to a
common width; a value of several lines ends such a run of fields. -/

namespace AccAsm
open Text (byte lit newline)

/-- The lines of a value. -/
abbrev Block := List Text

namespace Block

def indent (b : Block) : Block := b.map (lit "  " ++ ·)

/-- Puts a comma after the last line. -/
def withComma : Block → Block
  | [] => []
  | [line] => [line ++ lit ","]
  | line :: rest => line :: withComma rest

/-- Divides fields into runs, each of which ends with a value of several lines or with the last
field. -/
def fieldRuns (fields : List (Text × Block)) : List (List (Text × Block)) :=
  fields.foldr (fun f done =>
    if 1 < f.2.length then [f] :: done
    else match done with
      | [] => [[f]]
      | run :: rest => (f :: run) :: rest) []

/-- A field with its name and colon padded to `width`. -/
def fieldLines (width : Nat) (name : Text) : Block → Block
  | [] => []
  | first :: rest =>
    let padding := List.replicate (width - name.length + 1) (byte ' ')
    withComma ((name ++ byte ':' :: padding ++ first) :: rest)

def runLines (run : List (Text × Block)) : Block :=
  let width := (run.map fun f => f.1.length).foldl max 0
  run.flatMap fun f => fieldLines width f.1 f.2

def record (type : Text) (fields : List (Text × Block)) : Block :=
  (type ++ lit "\x7b") :: indent ((fieldRuns fields).flatMap runLines) ++ [lit "\x7d"]

/-- The greatest number of elements that are shown. -/
def listLimit : Nat := 1024

def list (type : Text) (elements : List Block) : Block :=
  if elements.isEmpty then [type ++ lit "\x7b\x7d"]
  else if listLimit < elements.length then [type ++ lit "\x7b...\x7d"]
  else (type ++ lit "\x7b") :: indent (elements.flatMap withComma) ++ [lit "\x7d"]

/-- Every line with its newline. -/
def render (b : Block) : Text := b.flatMap (· ++ [newline])

end Block
end AccAsm
