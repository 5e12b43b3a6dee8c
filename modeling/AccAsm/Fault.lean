import AccAsm.Text.Numeral

/-! # Faults

A fault is a broken promise between parts of the assembler, as opposed to an error in what it is
given to assemble. -/

namespace AccAsm
open Text (lit)

inductive Fault where
  /-- A register operand without even a sigil. -/
  | emptyRegister
  /-- Bits `hi` to `lo` of a 16-bit number do not exist. -/
  | bitRange (hi lo : UInt8)
  /-- `width` bits are no whole number of cells. -/
  | partialCell (width : Nat)
  /-- An instruction of a lowered sequence takes `width` bits. -/
  | loweredWidth (mnemonic : Text) (width : Nat)
  /-- A cell that is no byte after all placeholders are filled. -/
  | malformedCell (index : Nat) (cell : Text)
  | missingInstruction (mnemonic : Text)
deriving DecidableEq, Repr

/-- What a fault says about itself. -/
def Fault.message? : Fault → Option Text
  | emptyRegister => none
  | bitRange hi lo =>
    lit "encoding: invalid bit range " ++ Numeral.decimal hi.toNat ++ lit ".." ++
      Numeral.decimal lo.toNat
  | partialCell width =>
    lit "image: " ++ Numeral.decimal width ++ lit " bits do not fill whole units"
  | loweredWidth mnemonic width =>
    lit "encoder: '" ++ mnemonic ++ lit "' lowered to " ++ Numeral.decimal width ++ lit " bits"
  | malformedCell index cell =>
    lit "linker: unit " ++ Numeral.decimal index ++ lit " is malformed: " ++ cell
  | missingInstruction mnemonic => lit "isa: missing instruction '" ++ mnemonic ++ lit "'"

/-- Why something was not done: an error `ε` in the input, or a fault. -/
inductive Failure (ε : Type) where
  | error (e : ε)
  | fault (f : Fault)
deriving DecidableEq, Repr

end AccAsm
