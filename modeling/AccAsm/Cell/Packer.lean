import AccAsm.Cell

/-! # Packing bit fields into cells

Fields are put one after the other, most significant bit first, and cut into cells of eight bits. A
field that crosses the end of a cell is split there. -/

namespace AccAsm

/-- The number of bits of a cell. -/
abbrev cellBits : Nat := 8

/-- Fields to be packed, and how many bits they were announced to take. -/
structure Packer where
  segments : List Segment := []
  width : Nat := 0
deriving DecidableEq, Repr

namespace Packer

def ofList (segments : List Segment) : Packer :=
  ⟨segments, Segment.totalWidth segments⟩

def segment (p : Packer) (s : Segment) : Packer :=
  ⟨p.segments ++ [s], p.width + s.width.toNat⟩

def literal (p : Packer) (value : UInt16) (width : UInt8) : Packer :=
  if width = 0 then p else p.segment (.ofValue value width)

/-- Announces one bit more than the distance from `hi` down to `lo`, which wraps around. -/
def ref (p : Packer) (r : Ref) : Packer :=
  ⟨p.segments ++ [.ofRef r], p.width + (r.hi - r.lo).toNat + 1⟩

/-- How much `cut` has left to do. -/
def load : List Segment → Nat
  | [] => 0
  | s :: rest => s.width.toNat + 1 + load rest

/-- Splitting off the free bits of a cell leaves less to do. -/
theorem load_split {s : Segment} {free : Nat} (rest : List Segment) (h₀ : 0 < free)
    (h : free ≤ s.width.toNat) : load ((s.split free.toUInt8).2 :: rest) < load (s :: rest) := by
  have hw := s.width.toNat_lt
  have hf : free.toUInt8.toNat = free := by
    simp only [Nat.toUInt8_eq, UInt8.toNat_ofNat']
    omega
  have hs : (s.width - free.toUInt8).toNat = s.width.toNat - free := by
    rw [UInt8.toNat_sub_of_le _ _ (by rw [UInt8.le_iff_toNat_le, hf]; exact h), hf]
  rw [load, load, Segment.width_split_snd, hs]
  omega

/-- Cuts the remaining segments into cells. The open cell has `used` bits so far, in the segments
`front`, last one first; `done` holds the finished cells, last one first. A cell that is still open
at the end is dropped. -/
def cut (position : Position) (done : List Cell) (front : List Segment) (used : Fin cellBits) :
    List Segment → List Cell
  | [] => done.reverse
  | s :: rest =>
    if s.width = 0 then cut position done front used rest
    else if h : used.val + s.width.toNat < cellBits then
      cut position done (s :: front) ⟨used.val + s.width.toNat, h⟩ rest
    else if used.val + s.width.toNat = cellBits then
      cut position ({ segments := (s :: front).reverse, position } :: done) [] 0 rest
    else
      let free := cellBits - used.val
      have := load_split rest (show 0 < free by omega) (show free ≤ s.width.toNat by omega)
      let parts := s.split free.toUInt8
      cut position ({ segments := (parts.1 :: front).reverse, position } :: done) [] 0
        (parts.2 :: rest)
termination_by segments => load segments
decreasing_by
  all_goals first
    | (rw [load]; omega)
    | assumption

/-- The cells that the fields fill, all with the same position. -/
def cells (p : Packer) (position : Position) : Except Fault (List Cell) :=
  if p.width % cellBits = 0 then .ok (cut position [] [] 0 p.segments)
  else .error (.partialCell p.width)

end Packer
end AccAsm
