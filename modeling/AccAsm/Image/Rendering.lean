import AccAsm.Image

/-! # Renderings of an image -/

namespace AccAsm
open Text (lit newline)

inductive Rendering where
  /-- The bytes themselves. -/
  | binary
  /-- Two hexadecimal digits a line. -/
  | hex
  /-- A line with address, bits and label of every byte. -/
  | listing
deriving DecidableEq, Repr

namespace Image

def hexLine (b : ImageByte) : Text := Numeral.writePadded 16 2 b.value.toNat ++ [newline]

def listingLine (b : ImageByte) (address : Nat) : Text :=
  Numeral.writePadded 16 4 address ++ lit "  " ++ Numeral.writePadded 2 8 b.value.toNat ++
    (if b.label.isEmpty then [] else lit "  " ++ b.label) ++ [newline]

def hex (img : Image) : Text := img.bytes.flatMap hexLine

def listing (img : Image) : Text := img.bytes.zipIdx.flatMap fun (b, address) => listingLine b address

def render (img : Image) : Rendering → Text
  | .binary => img.raw
  | .hex => img.hex
  | .listing => img.listing

end Image
end AccAsm
