import AccAsm.Encoding.Item

/-! # Encoding of programs

The cells of a program are those of its items in order. A label is put on the first cell after its
declaration; it must come before the next declaration. -/

namespace AccAsm

/-- What has been put out so far. -/
structure Emission where
  cells : Array Cell := #[]
  /-- A label that waits for a cell. -/
  pending : Option Lexeme := none
deriving Repr

namespace Emission

/-- Puts out cells, the first of which takes the pending label. -/
def emit (e : Emission) (cells : List Cell) : Emission :=
  match cells, e.pending with
  | [], _ => e
  | c :: rest, some name => ⟨e.cells ++ ({ c with label := name.text } :: rest), none⟩
  | cells, none => { e with cells := e.cells ++ cells }

/-- Declares a label. -/
def declare (e : Emission) (name : Lexeme) : Encoding Emission :=
  match e.pending with
  | some p => Encoding.fail (.danglingLabel p.position p.text name.text)
  | none => return { e with pending := some name }

def item (table : InstructionTable) (strict : Bool) (e : Emission) (i : Item) : Encoding Emission :=
  match i with
  | .label name => e.declare name
  | i => return e.emit (← Encoding.item table strict i)

def field (table : InstructionTable) (strict : Bool) (e : Emission) : Field → Encoding Emission
  | .data _ items | .code _ items => items.foldlM (item table strict) e
  | .inclusion position path => Encoding.fail (.unexpandedInclusion position path.text)

/-- All cells; no label may be left over. -/
def finish (e : Emission) : Encoding (List Cell) :=
  match e.pending with
  | some p => Encoding.fail (.danglingLabel p.position p.text [])
  | none => return e.cells.toList

end Emission

/-- The cells of a program without inclusions. Registers with a fixed role are refused if
`strict`. -/
def Program.encode (table : InstructionTable) (strict : Bool) (p : Program) : Encoding (List Cell) := do
  (← p.fields.foldlM (Emission.field table strict) {}).finish

end AccAsm
