import AccAsm.Cell
import AccAsm.Linking

/-! # Symbol tables

A symbol table tells for every address of an image where its byte comes from. -/

namespace AccAsm

/-- The label at an address, empty for none, and the line its byte was written in. -/
structure Symbol where
  label : Text
  file : Text
  line : Int
deriving DecidableEq, Repr

structure SymbolTable where
  /-- The file that was assembled. -/
  source : Text
  /-- The symbol at every address, from address 0 on. -/
  symbols : List Symbol
deriving DecidableEq, Repr

namespace Symbol

def ofCell (c : Cell) : Symbol := ⟨c.label, c.position.file, c.position.line⟩

/-- One of two symbols at the same address: the later one, but a label is replaced only by another
label. -/
def override (later earlier : Symbol) : Symbol :=
  if later.label.isEmpty then { later with label := earlier.label } else later

/-- `later` laid over `earlier`, which is not shorter. -/
def overlay (later earlier : List Symbol) : List Symbol :=
  List.zipWith override later earlier ++ earlier.drop later.length

/-- Brings symbols into a space of `size` addresses, which starts anew when it is used up. -/
def wrap (size : Nat) (hs : 0 < size) (symbols : List Symbol) : List Symbol :=
  if symbols.length ≤ size then symbols
  else overlay (wrap size hs (symbols.drop size)) (symbols.take size)
termination_by symbols.length
decreasing_by
  rw [List.length_drop]
  omega

theorem wrap_eq_self {size : Nat} {hs : 0 < size} {symbols : List Symbol} (h : symbols.length ≤ size) :
    wrap size hs symbols = symbols := by
  rw [wrap, if_pos h]

end Symbol

namespace SymbolTable

/-- The symbol table of the cells that `source` was assembled to. -/
def ofCells (source : Text) (cells : List Cell) : SymbolTable :=
  ⟨source, Symbol.wrap addressSpace addressSpace_pos (cells.map Symbol.ofCell)⟩

theorem symbols_ofCells {source : Text} {cells : List Cell} (h : cells.length ≤ addressSpace) :
    (ofCells source cells).symbols = cells.map Symbol.ofCell :=
  Symbol.wrap_eq_self (by rwa [List.length_map])

/-- The labels by address. -/
def labels (s : SymbolTable) : List (Nat × Text) :=
  s.symbols.zipIdx.filterMap fun (y, address) =>
    if y.label.isEmpty then none else some (address, y.label)

/-- The lines by address. -/
def lines (s : SymbolTable) : List (Text × Int) := s.symbols.map fun y => (y.file, y.line)

end SymbolTable
end AccAsm
