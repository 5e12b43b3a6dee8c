import AccAsm.Instruction
import AccAsm.Position

/-! # Outlines

An outline is a tree of labelled nodes: what is left of a program tree when only the kind, the place
and the spelling of every part are kept. -/

namespace AccAsm
open Text (lit)

/-- The kinds of parts of a program. -/
inductive NodeKind where
  | program
  | inclusion
  | dataField
  | instField
  | labelDec
  | space
  | word
  | byte
  | ascii
  | instruction (format : Format)
  | jump
  | mul
  | div
  | load
  | store
  | swap
  | number
  | string
  | labelRef
  | accumulator
  | register
deriving DecidableEq, Repr

namespace NodeKind

def name : NodeKind → Text
  | program => lit "Program"
  | inclusion => lit "Include"
  | dataField => lit "DataField"
  | instField => lit "InstField"
  | labelDec => lit "LabelDec"
  | space => lit "Space"
  | word => lit "Word"
  | byte => lit "Byte"
  | ascii => lit "ASCII"
  | instruction .n => lit "NType"
  | instruction .r => lit "RType"
  | instruction .i => lit "IType"
  | instruction .s => lit "SType"
  | instruction .j => lit "JType"
  | instruction .e1 => lit "E1"
  | instruction .e2 => lit "E2"
  | instruction .e3 => lit "E3"
  | instruction .e4 => lit "E4"
  | jump => lit "PseudoJump"
  | mul => lit "PseudoMul"
  | div => lit "PseudoDiv"
  | load => lit "PseudoLoad"
  | store => lit "PseudoStore"
  | swap => lit "PseudoSwap"
  | number => lit "Number"
  | string => lit "String"
  | labelRef => lit "LabelRef"
  | accumulator => lit "AccReg"
  | register => lit "RegFileReg"

def all : List NodeKind :=
  [program, inclusion, dataField, instField, labelDec, space, word, byte, ascii] ++
    Format.all.map instruction ++
    [jump, mul, div, load, store, swap, number, string, labelRef, accumulator, register]

def ofName? (name : Text) : Option NodeKind := all.find? (·.name == name)

end NodeKind

inductive Outline where
  /-- A part that is missing. -/
  | absent
  | node (kind : NodeKind) (position : Position) (text : Text) (children : List Outline)
deriving Repr, Inhabited

/-- A node met on a walk. -/
structure Visit where
  kind : NodeKind
  position : Position
  text : Text
deriving DecidableEq, Repr

/-- The operation a node stands for, empty if it is no instruction. -/
def Visit.operation (v : Visit) : Text :=
  match v.kind with
  | .instruction _ => v.text
  | .jump => lit "jump"
  | .mul => lit "mul"
  | .div => lit "div"
  | .load => lit "lw"
  | .store => lit "sw"
  | .swap => lit "swap"
  | _ => []

namespace Outline

mutual

/-- The nodes of an outline, every node before its children. The children of a node are left out
if `enter` refuses it. -/
def walk (enter : Visit → Bool) : Outline → List Visit
  | absent => []
  | node kind position text children =>
    let v : Visit := ⟨kind, position, text⟩
    if enter v then v :: walkAll enter children else [v]

def walkAll (enter : Visit → Bool) : List Outline → List Visit
  | [] => []
  | o :: os => walk enter o ++ walkAll enter os

end

/-- The number of nodes. -/
def size (o : Outline) : Nat := (o.walk fun _ => true).length

end Outline
end AccAsm
