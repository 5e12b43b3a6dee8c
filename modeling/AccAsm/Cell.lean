import AccAsm.Bits
import AccAsm.Position

/-! # Output cells

A cell is the place of one byte of output. It consists of segments, most significant one first:
literal bits, and placeholders for bits of addresses that are not known yet. -/

namespace AccAsm
open Text (byte lit)

/-- Stands for the bits `hi` to `lo`, both included, of the address of a label. -/
structure Ref where
  label : Text
  hi : UInt8
  lo : UInt8
  position : Position := {}
deriving DecidableEq, Repr

namespace Ref

def width (r : Ref) : UInt8 := r.hi - r.lo + 1

def render (r : Ref) : Text :=
  lit "\x7b" ++ r.label ++ [byte '['] ++ Numeral.decimal r.hi.toNat ++ [byte ':'] ++
    Numeral.decimal r.lo.toNat ++ lit "]\x7d"

end Ref

/-- A run of `width` bits. -/
inductive Segment where
  /-- The low bits of a value. -/
  | literal (value : UInt16) (width : UInt8)
  | placeholder (ref : Ref) (width : UInt8)
deriving DecidableEq, Repr

namespace Segment

def width : Segment → UInt8
  | literal _ w => w
  | placeholder _ w => w

def ref? : Segment → Option Ref
  | literal .. => none
  | placeholder r _ => some r

/-- The low `width` bits of `value`, and nothing above them. -/
def ofValue (value : UInt16) (width : UInt8) : Segment := literal (Bits.low value width) width

/-- All the bits a reference stands for. -/
def ofRef (r : Ref) : Segment := placeholder r r.width

def render : Segment → Text
  | literal value w => Bits.render value w
  | placeholder r _ => r.render

/-- The first `n` bits, and the rest. -/
def split (n : UInt8) : Segment → Segment × Segment
  | literal value w => (ofValue (Bits.shiftDown value (w - n)) n, ofValue value (w - n))
  | placeholder r w =>
    (placeholder { r with lo := r.hi - n + 1 } n, placeholder { r with hi := r.hi - n } (w - n))

/-- The number of bits of several segments. -/
def totalWidth : List Segment → Nat
  | [] => 0
  | s :: rest => s.width.toNat + totalWidth rest

theorem width_split_snd (n : UInt8) (s : Segment) : (s.split n).2.width = s.width - n := by
  cases s <;> rfl

end Segment

structure Cell where
  segments : List Segment
  /-- The label whose address is that of the cell, empty for none. -/
  label : Text := []
  position : Position := {}
deriving DecidableEq, Repr

namespace Cell

def width (c : Cell) : Nat := Segment.totalWidth c.segments

/-- No placeholder is left. -/
def isResolved (c : Cell) : Bool := c.segments.all fun s => s.ref?.isNone

/-- `value` followed by the bits of a literal segment, in 16 bits. -/
def append? (value : UInt16) : Segment → Option UInt16
  | .literal v w => some (Bits.shiftUp value w ||| v)
  | .placeholder .. => none

/-- The value of a cell without placeholders. -/
def byte? (c : Cell) : Option UInt8 := (c.segments.foldlM append? 0).map UInt16.toUInt8

/-- The bits of the segments. -/
def renderBits (c : Cell) : Text := c.segments.flatMap Segment.render

/-- The bits after the label, if there is one. -/
def render (c : Cell) : Text :=
  if c.label.isEmpty then c.renderBits else c.label ++ lit ": " ++ c.renderBits

end Cell
end AccAsm
