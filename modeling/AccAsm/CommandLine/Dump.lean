import AccAsm.CommandLine.Block
import AccAsm.Program
import AccAsm.Text.Quoted

/-! # Dumps of programs

A program written out with all its parts, for inspection. -/

namespace AccAsm
open Text (lit)

def Position.dump (p : Position) : Block :=
  .record (lit "token.Cursor")
    [(lit "File", [Quoted.quote p.file]), (lit "Line", [Numeral.signedDecimal p.line]),
     (lit "Column", [Numeral.signedDecimal p.column]), (lit "Byte", [Numeral.signedDecimal p.offset]),
     (lit "Size", [Numeral.signedDecimal p.size]),
     (lit "LineByte", [Numeral.signedDecimal p.lineOffset])]

namespace Dump

/-- A part with its position and further fields. -/
def node (kind : NodeKind) (position : Position) (fields : List (Text × Block)) : Block :=
  .record (lit "&ast." ++ kind.name) ((lit "Position", position.dump) :: fields)

/-- A part that is given by its spelling. -/
def spelled (kind : NodeKind) (field : Text) (l : Lexeme) : Block :=
  node kind l.position [(field, [Quoted.quote l.text])]

def number (l : Lexeme) : Block := spelled .number (lit "Lexeme") l
def string (l : Lexeme) : Block := spelled .string (lit "Lexeme") l
def labelRef (l : Lexeme) : Block := spelled .labelRef (lit "Name") l
def accumulator (l : Lexeme) : Block := spelled .accumulator (lit "Lexeme") l
def register (l : Lexeme) : Block := spelled .register (lit "Lexeme") l

def operands : Operands → List (Text × Block)
  | .n => []
  | .r ac rf₁ rf₂ =>
    [(lit "AC", accumulator ac), (lit "RF1", register rf₁), (lit "RF2", register rf₂)]
  | .i ac imm => [(lit "AC", accumulator ac), (lit "Imm", number imm)]
  | .s ac rf imm => [(lit "AC", accumulator ac), (lit "RF", register rf), (lit "Imm", number imm)]
  | .j imm => [(lit "Imm", number imm)]
  | .e1 ac rf => [(lit "AC", accumulator ac), (lit "RF", register rf)]
  | .e2 rf => [(lit "RF", register rf)]
  | .e3 ac => [(lit "AC", accumulator ac)]
  | .e4 rf => [(lit "RF", register rf)]

def jumpTarget : JumpTarget → Block
  | .number n => number n
  | .label name => labelRef name
  | .other _ => [lit "nil"]

def registerPair (a b : Lexeme) : List (Text × Block) :=
  [(lit "A", register a), (lit "B", register b)]

def memory (ac label offset : Lexeme) : List (Text × Block) :=
  [(lit "AC", accumulator ac), (lit "Label", labelRef label), (lit "Offset", number offset)]

def pseudo (position : Position) : Pseudo → Block
  | .jump target => node .jump position [(lit "Target", jumpTarget target)]
  | .mul a b => node .mul position (registerPair a b)
  | .div a b => node .div position (registerPair a b)
  | .swap a b => node .swap position (registerPair a b)
  | .load ac label offset => node .load position (memory ac label offset)
  | .store ac label offset => node .store position (memory ac label offset)

def numbers (values : List Lexeme) : List (Text × Block) :=
  [(lit "Values", .list (lit "[]*ast.Number") (values.map number))]

def data (position : Position) : Data → Block
  | .space count => node .space position [(lit "Count", number count)]
  | .words values => node .word position (numbers values)
  | .bytes values => node .byte position (numbers values)
  | .ascii text => node .ascii position [(lit "Text", string text)]

def item : Item → Block
  | .label name => spelled .labelDec (lit "Name") name
  | .data position d => data position d
  | .instruction position mnemonic o =>
    node (.instruction o.format) position
      ((lit "Mnemonic", [Quoted.quote mnemonic]) :: operands o)
  | .pseudo position p => pseudo position p

def items (is : List Item) : List (Text × Block) :=
  [(lit "Items",
    if is.isEmpty then [lit "[]ast.Item(nil)"] else .list (lit "[]ast.Item") (is.map item))]

def field : Field → Block
  | .data position is => node .dataField position (items is)
  | .code position is => node .instField position (items is)
  | .inclusion position path => node .inclusion position [(lit "Path", string path)]

end Dump

def Program.dump (p : Program) : Block :=
  Dump.node .program p.position [(lit "Fields", .list (lit "[]ast.Field") (p.fields.map Dump.field))]

end AccAsm
