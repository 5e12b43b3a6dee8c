import AccAsm.Cell.Packer
import AccAsm.Encoding.Lowering
import AccAsm.Text.Quoted

/-! # Encoding of items -/

namespace AccAsm
open Text (lit)

namespace Encoding

/-- The number of bits of an instruction. -/
def instructionBits : Nat := 16

/-- The cells that fields of a common origin fill. -/
def pack (position : Position) (fields : List Segment) : Encoding (List Cell) :=
  ofFault ((Packer.ofList fields).cells position)

/-! ### Data -/

/-- Cells of zeros. Every count that is not a number from 0 to 65536 is out of bounds. -/
def space (position : Position) (count : Lexeme) : Encoding (List Cell) :=
  let refused := EncodeError.numberOutOfBounds count.position (lit ".space") wordBits count.text
  match Numeral.readInt64 count.text with
  | .error _ => fail refused
  | .ok n =>
    if n < 0 ∨ Bits.capacity wordBits < n then fail refused
    else return List.replicate n.toNat { segments := [zeros 8], position }

/-- One field for every number. -/
def numberFields (context : Text) (width : UInt8) (values : List Lexeme) : Encoding (List Segment) :=
  values.mapM fun n => return .ofValue (← number n width.toNat context) width

/-- The field of a character, which must be one of the first 256. -/
def charField (position : Position) (c : Char) : Encoding Segment :=
  if c.toNat ≤ 0xFF then return .ofValue c.toNat.toUInt16 8
  else fail (.numberOutOfBounds position (lit ".ascii") byteBits (Quoted.quoteChar c))

/-- One cell for every character of a literal. -/
def ascii (position : Position) (literal : Lexeme) : Encoding (List Cell) :=
  match Quoted.unquote? literal.text with
  | none => fail (.invalidString literal.position)
  | some text => do pack position (← (Utf8.chars text).mapM (charField literal.position))

def data (position : Position) : Data → Encoding (List Cell)
  | .space count => space position count
  | .words values => do pack position (← numberFields (lit ".word") 16 values)
  | .bytes values => do pack position (← numberFields (lit ".byte") 8 values)
  | .ascii literal => ascii position literal

/-! ### Instructions -/

/-- The opcode of a mnemonic, which must have the given format in the table. -/
def opcodeField (table : InstructionTable) (position : Position) (mnemonic : Text) (format : Format) :
    Encoding Segment :=
  match table.find? mnemonic with
  | none => fail (.tableMismatch position mnemonic format none)
  | some i =>
    if i.format = some format then return .ofValue i.opcode.toUInt16 6
    else fail (.tableMismatch position mnemonic format i.format)

/-- An instruction of a program. -/
def instruction (table : InstructionTable) (strict : Bool) (position : Position) (mnemonic : Text)
    (operands : Operands) : Encoding (List Cell) := do
  let opcode ← opcodeField table position mnemonic operands.format
  let rest ← fields strict mnemonic operands
  pack position (opcode :: rest)

/-- An instruction of a lowered sequence. -/
def primitive (table : InstructionTable) (position : Position) (p : Primitive) :
    Encoding (List Cell) := do
  let opcode ← opcodeField table position p.mnemonic p.format
  let packer := Packer.ofList (opcode :: p.fields)
  if packer.width = instructionBits then ofFault (packer.cells position)
  else .error (.fault (.loweredWidth p.mnemonic packer.width))

def pseudo (table : InstructionTable) (strict : Bool) (position : Position) (p : Pseudo) :
    Encoding (List Cell) := do
  let sequence ← lower strict position p
  return (← sequence.mapM (primitive table position)).flatten

/-- The cells of an item; a label has none of its own. -/
def item (table : InstructionTable) (strict : Bool) : Item → Encoding (List Cell)
  | .label _ => return []
  | .data position d => data position d
  | .instruction position mnemonic operands => instruction table strict position mnemonic operands
  | .pseudo position p => pseudo table strict position p

end Encoding
end AccAsm
