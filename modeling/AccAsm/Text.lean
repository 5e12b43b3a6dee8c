/-! # Byte text

Sources, file names and messages are byte strings. Columns and sizes count bytes, and nothing is
promised about the encoding, so text is a list of bytes rather than a `String`. -/

namespace AccAsm

abbrev Text := List UInt8

/-- Texts are compared byte by byte. -/
instance : LawfulBEq Text := inferInstance

namespace Text

/-- The bytes of a constant. -/
def lit (s : String) : Text := s.toUTF8.data.toList

/-- The byte of an ASCII character. -/
abbrev byte (c : Char) : UInt8 := c.toUInt8

def newline : UInt8 := byte '\n'

def carriageReturn : UInt8 := byte '\r'

def doubleQuote : UInt8 := 0x22

def singleQuote : UInt8 := 0x27

def backslash : UInt8 := 0x5C

def backquote : UInt8 := 0x60

def isDigit (b : UInt8) : Bool := byte '0' ≤ b && b ≤ byte '9'

def isUpper (b : UInt8) : Bool := byte 'A' ≤ b && b ≤ byte 'Z'

def isLower (b : UInt8) : Bool := byte 'a' ≤ b && b ≤ byte 'z'

def isLetter (b : UInt8) : Bool := isLower b || isUpper b

/-- The lower-case form of an ASCII letter; every other byte is kept. -/
def lowerByte (b : UInt8) : UInt8 := if isUpper b then b + 32 else b

/-- The parts of `t` between the bytes equal to `sep`; there is always at least one. -/
def splitOn (sep : UInt8) (t : Text) : List Text :=
  t.foldr (fun b parts =>
    if b == sep then [] :: parts
    else match parts with
      | part :: rest => (b :: part) :: rest
      | [] => [[b]]) [[]]

/-- What stands before the first `sep` and what stands after it, if there is one. -/
def cutAt (sep : UInt8) (t : Text) : Text × Option Text :=
  (t.takeWhile (· != sep), (t.dropWhile (· != sep)).tail?)

/-- `t` without the trailing bytes equal to `b`. -/
def dropTrailing (b : UInt8) (t : Text) : Text := (t.reverse.dropWhile (· == b)).reverse

/-- Byte-wise order, a proper beginning coming first. -/
def le : Text → Text → Bool
  | [], _ => true
  | _ :: _, [] => false
  | a :: s, b :: t => a < b || (a == b && le s t)

end Text
end AccAsm
