import AccAsm.Position
import AccAsm.Text.Quoted

/-! # Tokens -/

namespace AccAsm
open Text (byte lit)

/-- The kinds of tokens. Kinds have numbers; the numbers past the last kind are `unassigned`. -/
inductive Kind where
  | invalid
  | endOfFile
  | data
  | inst
  | space
  | word
  | byte
  | ascii
  | inclusion
  | comma
  | colon
  | leftParen
  | rightParen
  | mnemonic
  | accumulator
  | register
  | label
  | number
  | string
  | unassigned (code : UInt64)
deriving DecidableEq, Repr, Inhabited

namespace Kind

/-- The kinds in the order of their numbers. -/
def assigned : List Kind :=
  [invalid, endOfFile, data, inst, space, word, byte, ascii, inclusion, comma, colon, leftParen,
    rightParen, mnemonic, accumulator, register, label, number, string]

def ofCode (code : UInt64) : Kind := (assigned[code.toNat]?).getD (unassigned code)

/-- The number of a kind. -/
def code : Kind → UInt64
  | unassigned code => code
  | k => (assigned.idxOf k).toUInt64

/-- The name of a kind in messages. A number whose highest bit is set has no name. -/
def name? : Kind → Option Text
  | invalid => lit "<invalid>"
  | endOfFile => lit "end of file"
  | data => lit ".data"
  | inst => lit ".inst"
  | space => lit ".space"
  | word => lit ".word"
  | byte => lit ".byte"
  | ascii => lit ".ascii"
  | inclusion => lit ".include"
  | comma => lit "','"
  | colon => lit "':'"
  | leftParen => lit "'('"
  | rightParen => lit "')'"
  | mnemonic => lit "Mnemonic"
  | accumulator => lit "AC register"
  | register => lit "RF register"
  | label => lit "Label"
  | number => lit "Number"
  | string => lit "String"
  | unassigned code => if code < 0x8000000000000000 then some (lit "<invalid>") else none

def isDirective : Kind → Bool
  | data | inst | space | word | byte | ascii | inclusion => true
  | _ => false

/-- The name of a kind where more text follows. A note on its number stands for a name it does not
have. -/
def heading (k : Kind) : Text :=
  k.name?.getD
    (lit "%!s(PANIC=String method: runtime error: index out of range [" ++
      Numeral.decimal k.code.toNat ++ lit "] with length " ++ Numeral.decimal assigned.length ++
      lit ")")

/-- The directive a lower-case word names. -/
def ofDirective? (word : Text) : Option Kind :=
  [data, inst, space, Kind.word, byte, ascii, inclusion].find? (·.name? == some word)

end Kind

/-- Names as an enumeration: `A`, `A or B`, `A, B, or C`. -/
def enumerate : List Text → Text
  | [] => []
  | [a] => a
  | [a, b] => a ++ lit " or " ++ b
  | names => List.intercalate (lit ", ") names.dropLast ++ lit ", or " ++ names.getLastD []

/-- The names of `kinds` as an enumeration. -/
def Kind.enumerate? (kinds : List Kind) : Option Text := do
  return enumerate (← kinds.mapM Kind.name?)

structure Token where
  kind : Kind
  position : Position := {}
  value : Text := []
deriving DecidableEq, Repr, Inhabited

/-- A token's kind, and its value in quotes if it has one. A kind that stands alone must have a
name. -/
def Token.render? (t : Token) : Option Text :=
  if t.value.isEmpty then t.kind.name?
  else some (t.kind.heading ++ byte ' ' :: Quoted.quote t.value)

end AccAsm
