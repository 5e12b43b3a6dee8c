import AccAsm.Fault

/-! # Bit fields of 16-bit numbers -/

namespace AccAsm

namespace Bits
open Text (byte)

/-- The number of values of a field of `width` bits. -/
def capacity (width : Nat) : Nat := Nat.pow 2 width

/-- The number of values of a field of `width` bits, in 64 bits. -/
def limit64 (width : Nat) : Int64 := 1 <<< Int64.ofNat width

/-- The magnitude of a value. The least value is its own negation and stays negative. -/
def magnitude64 (value : Int64) : Int64 := if value < 0 then -value else value

/-- `value` in a field of `width` bits. A non-negative value must be below `2 ^ width`; a negative
one must have such a magnitude and is stored modulo `2 ^ width`. Fields have 1 to 16 bits. -/
def fit64? (value : Int64) (width : Nat) : Option UInt16 :=
  if width = 0 ∨ 16 < width then none
  else if magnitude64 value < 0 ∨ limit64 width ≤ magnitude64 value then none
  else some (value &&& (limit64 width - 1)).toUInt64.toUInt16

/-- A number that 64 bits hold, in a field of `width` bits. -/
def fit? (value : Int) (width : Nat) : Option UInt16 := fit64? (.ofInt value) width

/-- The number whose low `width` bits are set, and no others. -/
def mask (width : UInt8) : UInt16 := UInt16.ofNat (capacity (min width.toNat 16) - 1)

/-- The low `width` bits of `value`. -/
def low (value : UInt16) (width : UInt8) : UInt16 := UInt16.ofNat (value.toNat % capacity width.toNat)

/-- `value` without its low `width` bits. -/
def shiftDown (value : UInt16) (width : UInt8) : UInt16 :=
  UInt16.ofNat (value.toNat / capacity width.toNat)

/-- `value` moved up by `width` bits; what leaves the 16 bits is lost. -/
def shiftUp (value : UInt16) (width : UInt8) : UInt16 :=
  UInt16.ofNat (value.toNat * capacity width.toNat)

/-- The bits `hi` to `lo` of `value`, both included, bit 0 being the least significant one. -/
def slice (value : UInt16) (hi lo : UInt8) : Except Fault UInt16 :=
  if lo ≤ hi ∧ hi ≤ 15 then .ok (low (shiftDown value lo) (hi - lo + 1))
  else .error (.bitRange hi lo)

/-- The low `width` bits of `value`, most significant one first; no bits are written as a zero. -/
def render (value : UInt16) (width : UInt8) : Text :=
  Numeral.writePadded 2 width.toNat (low value width).toNat

end Bits
end AccAsm
