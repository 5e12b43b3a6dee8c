import AccAsm.Fault
import AccAsm.Instruction
import AccAsm.Position

/-! # Errors in the meaning of a program -/

namespace AccAsm
open Text (lit)

/-- Why a program has no encoding. A context is the directive or mnemonic an operand belongs to. -/
inductive EncodeError where
  | reservedRegister (position : Position) (context register reason : Text)
  | registerOutOfRange (position : Position) (context register : Text) (limit : Nat)
  /-- `value` does not fit into `width` bits. -/
  | numberOutOfBounds (position : Position) (context : Text) (width : Nat) (value : Text)
  | invalidNumber (position : Position) (value : Text)
  | invalidString (position : Position)
  /-- A label without a cell of its own: `next` takes the same cell, or is empty at the end of the
  program. -/
  | danglingLabel (position : Position) (label next : Text)
  | unexpandedInclusion (position : Position) (path : Text)
  /-- The table has no such mnemonic, or has it with another format. -/
  | tableMismatch (position : Position) (mnemonic : Text) (want : Format) (found : Option Format)
  /-- A part that stands where the grammar allows none of its kind. -/
  | unknownPart (position : Position) (part : Text)
deriving DecidableEq, Repr

namespace EncodeError

def position : EncodeError → Position
  | reservedRegister p .. | registerOutOfRange p .. | numberOutOfBounds p .. | invalidNumber p ..
  | invalidString p | danglingLabel p .. | unexpandedInclusion p .. | tableMismatch p ..
  | unknownPart p .. => p

def message : EncodeError → Text
  | reservedRegister p context register reason =>
    p.render ++ lit ": Reserved register " ++ register ++ lit " in '" ++ context ++ lit "': " ++ reason
  | registerOutOfRange p context register limit =>
    p.render ++ lit ": Register out of range in '" ++ context ++ lit "'\n\twant:0-" ++
      Numeral.decimal limit ++ lit "\n\thave:" ++ register
  | numberOutOfBounds p context width value =>
    p.render ++ lit ": Number out of bounds in '" ++ context ++ lit "'\n\twant:" ++
      Numeral.decimal width ++ lit " bits\n\thave:" ++ value
  | invalidNumber p value => p.render ++ lit ": Invalid numeric literal '" ++ value ++ lit "'"
  | invalidString p => p.render ++ lit ": Invalid string literal"
  | danglingLabel p label next =>
    p.render ++ lit ": Label '" ++ label ++
      if next.isEmpty then lit "' is not followed by any output"
      else lit "' shares its address with '" ++ next ++ lit "'"
  | unexpandedInclusion p path =>
    p.render ++ lit ": Include of " ++ path ++ lit " was not expanded before encoding"
  | tableMismatch p mnemonic want found =>
    p.render ++ lit ": Instruction table mismatch for '" ++ mnemonic ++ lit "'\n\twant:" ++
      want.tag ++ lit "\n\thave:" ++ Format.tagOrInvalid found
  | unknownPart p part => p.render ++ lit ": Internal error: cannot encode " ++ part

end EncodeError

/-- The result of encoding a part of a program. -/
abbrev Encoding (α : Type) := Except (Failure EncodeError) α

/-- Ends encoding with an error. -/
def Encoding.fail {α : Type} (e : EncodeError) : Encoding α := .error (.error e)

/-- Ends encoding with a fault, unless `x` has a result. -/
def Encoding.ofFault {α : Type} (x : Except Fault α) : Encoding α := x.mapError .fault

end AccAsm
