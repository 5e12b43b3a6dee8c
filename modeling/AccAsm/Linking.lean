import AccAsm.Cell.Packer
import AccAsm.Image

/-! # Linking

The address of a label is the index of the first cell that carries it. With all addresses known, the
placeholders are filled, and every cell becomes a byte. -/

namespace AccAsm
open Text (lit)

/-- The number of addresses. -/
def addressSpace : Nat := 0x10000

theorem addressSpace_pos : 0 < addressSpace := by decide

inductive LinkError where
  | oversized (e : Oversized)
  | redeclaredLabel (position : Position) (label : Text)
  | undefinedLabel (position : Position) (label : Text)
deriving DecidableEq, Repr

namespace LinkError

def position? : LinkError → Option Position
  | oversized _ => none
  | redeclaredLabel p _ | undefinedLabel p _ => some p

def message : LinkError → Text
  | oversized e => e.message
  | redeclaredLabel p label => p.render ++ lit ": Redeclaration of label '" ++ label ++ lit "'"
  | undefinedLabel p label => p.render ++ lit ": Undefined label '" ++ label ++ lit "'"

end LinkError

/-- The result of linking or of a part of it. -/
abbrev Linking (α : Type) := Except (Failure LinkError) α

namespace LabelTable

/-- Enters the label of the cell at `address`. If it has been declared before, the cell is refused
if `strict`, and otherwise the first declaration stands. -/
def declare (strict : Bool) (t : LabelTable) (cell : Cell) (address : Nat) : Except LinkError LabelTable :=
  if cell.label.isEmpty then .ok t
  else if strict ∧ (t.find? cell.label).isSome then .error (.redeclaredLabel cell.position cell.label)
  else .ok (t.add cell.label address.toUInt16)

/-- The labels of the given cells. -/
def ofCells (strict : Bool) (cells : List Cell) : Except LinkError LabelTable :=
  if addressSpace < cells.length then .error (.oversized ⟨addressSpace, cells.length⟩)
  else cells.zipIdx.foldlM (fun t (c, address) => t.declare strict c address) empty

/-- Puts the address of a label in the place that was kept for it. -/
def fill (t : LabelTable) : Segment → Linking Segment
  | .literal value width => return .literal value width
  | .placeholder r width =>
    match t.find? r.label with
    | none => .error (.error (.undefinedLabel r.position r.label))
    | some address => do
      return .ofValue (← (Bits.slice address r.hi r.lo).mapError .fault) width

def resolveCell (t : LabelTable) (c : Cell) : Linking Cell := do
  return { c with segments := ← c.segments.mapM t.fill }

/-- Fills all placeholders. -/
def resolve (t : LabelTable) (cells : List Cell) : Linking (List Cell) := cells.mapM t.resolveCell

end LabelTable

/-- The byte of a resolved cell at `index`. -/
def ImageByte.ofCell (c : Cell) (index : Nat) : Except Fault ImageByte :=
  match c.byte? with
  | some value =>
    if c.width = cellBits then .ok ⟨value, c.label⟩ else .error (.malformedCell index c.render)
  | none => .error (.malformedCell index c.render)

/-- The image of the given cells. Repeated labels are refused if `strict`. -/
def Image.link (strict : Bool) (cells : List Cell) : Linking Image := do
  let labels ← (LabelTable.ofCells strict cells).mapError .error
  let resolved ← labels.resolve cells
  let bytes ← (resolved.zipIdx.mapM fun (c, index) => ImageByte.ofCell c index).mapError .fault
  return ⟨bytes, labels⟩

end AccAsm
