import AccAsm.Text

/-! # UTF-8

Reading characters off the front of byte text. A byte that starts no well-formed character stands
for the replacement character and takes one byte of its own, so reading always makes progress. -/

namespace AccAsm

namespace Utf8

/-- Stands for a byte that is not part of a character. -/
def replacement : Char := '\uFFFD'

def encode (c : Char) : Text := String.utf8EncodeChar c

def encodeAll (cs : List Char) : Text := cs.flatMap encode

/-- The payload of a continuation byte. -/
def tail? (b : UInt8) : Option Nat :=
  if 0x80 ≤ b && b < 0xC0 then some (b.toNat % 64) else none

/-- The character with code `n`, refused below `least` (an overlong form) and where no character
has that code (surrogates, codes past the last plane). -/
def scalar? (least n : Nat) : Option Char :=
  if h : least ≤ n ∧ n.isValidChar then some (Char.ofNatAux n h.2) else none

/-- The well-formed character at the front. -/
def head? : Text → Option Char
  | [] => none
  | a :: t =>
    if a < 0x80 then scalar? 0 a.toNat
    else if a < 0xC0 then none
    else if a < 0xE0 then
      match t with
      | b :: _ => do
        let b ← tail? b
        scalar? 0x80 (a.toNat % 32 * 64 + b)
      | _ => none
    else if a < 0xF0 then
      match t with
      | b :: c :: _ => do
        let b ← tail? b
        let c ← tail? c
        scalar? 0x800 ((a.toNat % 16 * 64 + b) * 64 + c)
      | _ => none
    else if a < 0xF8 then
      match t with
      | b :: c :: d :: _ => do
        let b ← tail? b
        let c ← tail? c
        let d ← tail? d
        scalar? 0x10000 (((a.toNat % 8 * 64 + b) * 64 + c) * 64 + d)
      | _ => none
    else none

/-- How many bytes the front of `t` takes. -/
def headSize (t : Text) : Nat :=
  match head? t with
  | some c => c.utf8Size
  | none => 1

/-- A character read from text, with the bytes it was read from. -/
structure Piece where
  /-- `none` for a byte that is not part of a character. -/
  char? : Option Char
  bytes : Text
deriving DecidableEq, Repr

def Piece.char (p : Piece) : Char := p.char?.getD replacement

def Piece.isValid (p : Piece) : Bool := p.char?.isSome

/-- The characters of `t` with their bytes, in order. -/
def pieces : Text → List Piece
  | [] => []
  | b :: t =>
    ⟨head? (b :: t), b :: t.take (headSize (b :: t) - 1)⟩ :: pieces (t.drop (headSize (b :: t) - 1))
termination_by t => t.length
decreasing_by simp only [List.length_drop, List.length_cons]; omega

def chars (t : Text) : List Char := (pieces t).map Piece.char

/-- Every byte belongs to a character. -/
def isValid (t : Text) : Bool := (pieces t).all Piece.isValid

/-- The text as a string, if it is well formed. -/
def toString? (t : Text) : Option String := String.fromUTF8? ⟨t.toArray⟩

end Utf8
end AccAsm
