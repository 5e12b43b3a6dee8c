import AccAsm.Bits
import AccAsm.Cell
import AccAsm.Encoding.Error
import AccAsm.Program

/-! # Operands

Reading the value of an operand, and the layout of the operands of an instruction in its word. -/

namespace AccAsm
open Text (lit)

namespace Encoding

def accumulatorBits : UInt8 := 2
def registerBits : UInt8 := 4
def wordBits : Nat := 16
def byteBits : Nat := 8

/-- The accumulator and the register that lowered sequences use. -/
def scratch : Nat := 1

/-- A number for a field of `width` bits. -/
def number (n : Lexeme) (width : Nat) (context : Text) : Encoding UInt16 :=
  match Numeral.readInt64 n.text with
  | .error .outOfRange => fail (.numberOutOfBounds n.position context width n.text)
  | .error .malformed => fail (.invalidNumber n.position n.text)
  | .ok value =>
    match Bits.fit? value width with
    | some r => .ok r
    | none => fail (.numberOutOfBounds n.position context width n.text)

/-- The number of a register, after its sigil. -/
def registerIndex (reg : Lexeme) (limit : Nat) (context : Text) : Encoding Nat :=
  match reg.text with
  | [] => .error (.fault .emptyRegister)
  | _ :: digits =>
    let refused := EncodeError.registerOutOfRange reg.position context reg.text limit
    match Numeral.readUnsigned 10 255 digits with
    | .error _ => fail refused
    | .ok index => if limit < index then fail refused else .ok index

/-- An accumulator. The one that lowered sequences use is reserved. -/
def accumulator (reg : Lexeme) (context : Text) : Encoding UInt16 := do
  let index ← registerIndex reg 3 context
  if index = scratch then
    fail (.reservedRegister reg.position context reg.text (lit "reserved for the assembler"))
  else return index.toUInt16

/-- The role of a register that programs are not meant to use as they like. -/
def fixedRole? : Nat → Option Text
  | 0 => some (lit "read-only")
  | 1 => some (lit "reserved for the assembler")
  | 14 => some (lit "stack pointer")
  | 15 => some (lit "link register")
  | _ => none

/-- A general register. Registers with a fixed role are refused if `strict`. -/
def register (strict : Bool) (reg : Lexeme) (context : Text) : Encoding UInt16 := do
  let index ← registerIndex reg 15 context
  match fixedRole? index with
  | some role =>
    if strict then fail (.reservedRegister reg.position context reg.text role)
    else return index.toUInt16
  | none => return index.toUInt16

/-! ### Fields -/

def zeros (width : UInt8) : Segment := .ofValue 0 width

def accumulatorField (index : UInt16) : Segment := .ofValue index accumulatorBits

def registerField (index : UInt16) : Segment := .ofValue index registerBits

/-- The fields that follow the opcode of an instruction. -/
def fields (strict : Bool) (mnemonic : Text) : Operands → Encoding (List Segment)
  | .n => return [zeros 10]
  | .r ac rf₁ rf₂ => do
    let ac ← accumulator ac mnemonic
    let rf₁ ← register strict rf₁ mnemonic
    let rf₂ ← register strict rf₂ mnemonic
    return [accumulatorField ac, registerField rf₁, registerField rf₂]
  | .i ac imm => do
    let ac ← accumulator ac mnemonic
    let imm ← number imm 8 mnemonic
    return [accumulatorField ac, .ofValue imm 8]
  | .s ac rf imm => do
    let ac ← accumulator ac mnemonic
    let rf ← register strict rf mnemonic
    let imm ← number imm 4 mnemonic
    return [accumulatorField ac, registerField rf, .ofValue imm 4]
  | .j imm => do
    let imm ← number imm 10 mnemonic
    return [.ofValue imm 10]
  | .e1 ac rf => do
    let ac ← accumulator ac mnemonic
    let rf ← register strict rf mnemonic
    return [accumulatorField ac, registerField rf, zeros 4]
  | .e2 rf => do
    let rf ← register strict rf mnemonic
    return [zeros 2, registerField rf, zeros 4]
  | .e3 ac => do
    let ac ← accumulator ac mnemonic
    return [accumulatorField ac, zeros 8]
  | .e4 rf => do
    let rf ← register strict rf mnemonic
    return [zeros 6, registerField rf]

end Encoding
end AccAsm
