import AccAsm.CommandLine.Arguments

/-! # Help -/

namespace AccAsm
open Text (byte lit newline)

/-- What a flag is for. -/
def Flag.purpose : Flag → Text
  | debug => lit "write a symbol table next to the image (.ac16db)"
  | dumpTree => lit "print the syntax tree"
  | dumpCells => lit "print the encoded units before linking"
  | fill => lit "pad the image with zero words up to this many words"
  | format => lit "image format: bin, hex or text (default \"bin\")"
  | help => lit "help for ac16-asm"
  | table => lit "load the instruction table from a CSV file"
  | out => lit "write the image to this file"
  | strict => lit "reject $0, $1, $14 and $15 and redeclared labels"
  | verbose => lit "log every compilation stage"

/-- The kind of value a flag takes. -/
def Flag.valueKind : Flag → Text
  | fill => lit " int"
  | format | table | out => lit " string"
  | _ => []

namespace Help

def flagColumn (f : Flag) : Text :=
  (match f.letter? with
    | some letter => lit "  -" ++ letter :: lit ", --"
    | none => lit "      --") ++ f.name ++ f.valueKind

def flagLine (f : Flag) : Text :=
  let width := (Flag.all.map fun f => (flagColumn f).length).foldl max 0
  let column := flagColumn f
  column ++ List.replicate (width - column.length + 3) (byte ' ') ++ f.purpose ++ [newline]

def text : Text :=
  lit "ac16-asm translates AC16 assembly into a program image.\n\n" ++
  lit "Every input file is assembled on its own. Output goes next to the input\n" ++
  lit "with the extension of the chosen format unless --out names a file, which\n" ++
  lit "is only allowed for a single input. Without arguments the source is read\n" ++
  lit "from standard input.\n\n" ++
  lit "Usage:\n  ac16-asm [flags] file...\n\n" ++
  lit "Flags:\n" ++ Flag.all.flatMap flagLine

end Help
end AccAsm
