import AccAsm.Text.Utf8

/-! # White space

The characters with the Unicode property White_Space, and trimming by them. -/

namespace AccAsm

namespace Blank

def isBlank (c : Char) : Bool :=
  let n := c.toNat
  (9 ≤ n && n ≤ 13) || n == 0x20 || n == 0x85 || n == 0xA0 || n == 0x1680 ||
    (0x2000 ≤ n && n ≤ 0x200A) || n == 0x2028 || n == 0x2029 || n == 0x202F || n == 0x205F ||
    n == 0x3000

/-- `t` without leading and trailing white space. -/
def trim (t : Text) : Text :=
  let inner := (Utf8.pieces t).dropWhile fun p => isBlank p.char
  (inner.reverse.dropWhile fun p => isBlank p.char).reverse.flatMap Utf8.Piece.bytes

end Blank
end AccAsm
