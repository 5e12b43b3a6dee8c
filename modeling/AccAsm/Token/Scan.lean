import AccAsm.Token

/-! # Scanning

A source is scanned line by line. White space and comments separate tokens; a word must be followed
by white space, punctuation, a comment or the end of its line. Scanning stops at the first line that
holds something else. -/

namespace AccAsm
open Text (byte lit isDigit isLetter)

/-- Why a source cannot be scanned. -/
inductive ScanError where
  /-- `found` is the character in the way, NUL at the end of a line. -/
  | unexpected (position : Position) (found : Char)
  | unknownDirective (position : Position) (word : Text)
  | invalidString (position : Position)
deriving DecidableEq, Repr

namespace ScanError

def position : ScanError → Position
  | unexpected p _ | unknownDirective p _ | invalidString p => p

def message : ScanError → Text
  | unexpected p found =>
    p.render ++
      if found.toNat == 0 then lit ": Unexpected end of line"
      else lit ": Unexpected character " ++ Quoted.quoteChar found
  | unknownDirective p word => p.render ++ lit ": Unknown directive '" ++ word ++ lit "'"
  | invalidString p => p.render ++ lit ": Invalid string literal"

end ScanError

namespace Scan

/-! ### Characters -/

def isBlank (b : UInt8) : Bool := b == byte ' ' || b == byte '\t' || b == byte '\r'

def startsComment (b : UInt8) : Bool := b == byte ';' || b == byte '#'

def isLabelByte (b : UInt8) : Bool := isLetter b || isDigit b || b == byte '_'

/-- The punctuation mark a byte is. -/
def mark? (b : UInt8) : Option Kind :=
  if b == byte ',' then some .comma
  else if b == byte ':' then some .colon
  else if b == byte '(' then some .leftParen
  else if b == byte ')' then some .rightParen
  else none

/-- A byte that may follow a word. -/
def isDelimiter (b : UInt8) : Bool := isBlank b || (mark? b).isSome || startsComment b

/-! ### Words -/

/-- A word at the front of some text: its bytes as written, its kind and its value. -/
structure Word where
  kind : Kind
  spelling : Text
  value : Text
deriving DecidableEq, Repr

/-- What keeps the front of some text from being a word. -/
inductive Flaw where
  /-- The character `i` bytes on is in the way. -/
  | unexpected (i : Nat)
  | unknownDirective (word : Text)
  /-- The literal takes `size` bytes, up to its closing quote or the end of the line. -/
  | invalidString (size : Nat)
deriving DecidableEq, Repr

/-- A directive: a dot and letters, known in any letter case. -/
def directive (t : Text) : Except Flaw Word :=
  let spelling := byte '.' :: t.takeWhile isLetter
  let folded := spelling.map Text.lowerByte
  match Kind.ofDirective? folded with
  | some kind => .ok ⟨kind, spelling, folded⟩
  | none => .error (.unknownDirective spelling)

/-- A register: its sigil and digits. -/
def register (sigil : UInt8) (kind : Kind) (t : Text) : Except Flaw Word :=
  let digits := t.takeWhile isDigit
  if digits.isEmpty then .error (.unexpected 1) else .ok ⟨kind, sigil :: digits, sigil :: digits⟩

/-- A label: an underscore and letters, digits or underscores. -/
def label (t : Text) : Except Flaw Word :=
  let rest := t.takeWhile isLabelByte
  if rest.isEmpty then .error (.unexpected 0) else .ok ⟨.label, byte '_' :: rest, byte '_' :: rest⟩

/-- A mnemonic: letters, in any letter case. -/
def mnemonic (t : Text) : Word :=
  let spelling := t.takeWhile isLetter
  ⟨.mnemonic, spelling, spelling.map Text.lowerByte⟩

/-- A number: digits after an optional sign, which is the byte `first` if that is no digit. -/
def number (first : UInt8) (t : Text) : Except Flaw Word :=
  let digits := t.takeWhile isDigit
  if digits.isEmpty && !isDigit first then .error (.unexpected 0)
  else .ok ⟨.number, first :: digits, first :: digits⟩

/-- How many bytes of `t` a literal takes whose opening quote has been read, closing quote
included. A backslash takes the byte after it along. -/
def stringSize? : Text → Option Nat
  | [] => none
  | [b] => if b == Text.doubleQuote then some 1 else none
  | b :: c :: t =>
    if b == Text.backslash then (stringSize? t).map (· + 2)
    else if b == Text.doubleQuote then some 1
    else (stringSize? (c :: t)).map (· + 1)

/-- A string literal between double quotes. -/
def string (t : Text) : Except Flaw Word :=
  match stringSize? t with
  | none => .error (.invalidString (t.length + 1))
  | some n =>
    let spelling := Text.doubleQuote :: t.take n
    if (Quoted.unquote? spelling).isSome then .ok ⟨.string, spelling, spelling⟩
    else .error (.invalidString (n + 1))

/-- The word that starts with `b`. -/
def word (b : UInt8) (t : Text) : Except Flaw Word :=
  if b == byte '.' then directive t
  else if b == byte '&' then register b .accumulator t
  else if b == byte '$' then register b .register t
  else if b == byte '_' then label t
  else if isLetter b then .ok (mnemonic (b :: t))
  else if isDigit b || b == byte '-' || b == byte '+' then number b t
  else if b == Text.doubleQuote then string t
  else .error (.unexpected 0)

/-! ### Lines -/

/-- A line of a source, without its newline. -/
structure Line where
  file : Text
  number : Nat
  /-- The offset of its first byte. -/
  start : Nat
  text : Text
deriving DecidableEq, Repr

namespace Line

/-- The position of `size` bytes from the byte `i` of the line on. -/
def position (l : Line) (i size : Nat) : Position :=
  { file := l.file, line := l.number, column := i + 1, offset := l.start + i, size,
    lineOffset := l.start }

/-- Blames what stands at the byte `i`. -/
def unexpected (l : Line) (i : Nat) : ScanError :=
  match l.text.drop i with
  | [] => .unexpected (l.position i 1) (Char.ofNat 0)
  | rest =>
    .unexpected (l.position i (Utf8.headSize rest)) ((Utf8.head? rest).getD Utf8.replacement)

/-- A flaw of the word that starts at the byte `i`. -/
def blame (l : Line) (i : Nat) : Flaw → ScanError
  | .unexpected skipped => l.unexpected (i + skipped)
  | .unknownDirective word => .unknownDirective (l.position i word.length) word
  | .invalidString size => .invalidString (l.position i size)

/-- Scans the rest `t` of the line, which starts at the byte `i`; `done` holds the tokens before
it, last one first. -/
def scanFrom (l : Line) (done : List Token) (i : Nat) : Text → Except ScanError (List Token)
  | [] => .ok done
  | b :: t =>
    if isBlank b then scanFrom l done (i + 1) t
    else if startsComment b then .ok done
    else match mark? b with
      | some kind => scanFrom l (⟨kind, l.position i 1, [b]⟩ :: done) (i + 1) t
      | none =>
        match word b t with
        | .error flaw => .error (l.blame i flaw)
        | .ok w =>
          let size := w.spelling.length
          let rest := t.drop (size - 1)
          if rest.head?.all isDelimiter then
            scanFrom l (⟨w.kind, l.position i size, w.value⟩ :: done) (i + size) rest
          else .error (l.unexpected (i + size))
termination_by t => t.length
decreasing_by all_goals simp only [List.length_cons, List.length_drop]; omega

end Line

/-- The lines of a source. A newline ends a line, so that none follows the last newline; the empty
source has one empty line. -/
def lineTexts (source : Text) : List Text :=
  match (Text.splitOn Text.newline source).reverse with
  | [] :: last :: rest => (last :: rest).reverse
  | parts => parts.reverse

/-- Numbers the lines of a file from the line `number` at the offset `start` on. -/
def numbered (file : Text) (number start : Nat) : List Text → List Line
  | [] => []
  | t :: ts => ⟨file, number, start, t⟩ :: numbered file (number + 1) (start + t.length + 1) ts

def lines (file source : Text) : List Line := numbered file 1 0 (lineTexts source)

/-- The token that ends a source, after its last line. -/
def endToken (source : Text) (last : Line) : Token :=
  { kind := .endOfFile
    position := { last.position last.text.length 0 with offset := source.length } }

/-- The tokens of a source, the end-of-file token last. -/
def tokens (file source : Text) : Except ScanError (List Token) := do
  let ls := lines file source
  let done ← ls.foldlM (fun done l => l.scanFrom done 0 l.text) []
  return (endToken source (ls.getLastD ⟨file, 1, 0, []⟩) :: done).reverse

end Scan
end AccAsm
