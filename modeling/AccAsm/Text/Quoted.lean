import AccAsm.Text.Numeral
import AccAsm.Text.Printable
import AccAsm.Text.Utf8

/-! # Quoted text

Writing text between quotes so that it is visible on one line, and reading quoted literals back.
A literal stands between double quotes, between single quotes (one character only) or between
backquotes (taken as it is, carriage returns dropped). -/

namespace AccAsm

namespace Quoted
open Text (byte lit doubleQuote singleQuote backslash backquote)

/-! ### Writing -/

/-- The letter of a one-letter escape. -/
def shortEscape? (c : Char) : Option UInt8 :=
  if c == '\x07' then some (byte 'a')
  else if c == '\x08' then some (byte 'b')
  else if c == '\x0c' then some (byte 'f')
  else if c == '\n' then some (byte 'n')
  else if c == '\r' then some (byte 'r')
  else if c == '\t' then some (byte 't')
  else if c == '\x0b' then some (byte 'v')
  else none

/-- One character as it is written between quotes of the form `mark`. -/
def writeChar (mark : UInt8) (c : Char) : Text :=
  if c.toNat == mark.toNat || c.toNat == backslash.toNat then backslash :: Utf8.encode c
  else if Printable.isPrintable c then Utf8.encode c
  else match shortEscape? c with
    | some e => [backslash, e]
    | none =>
      if c < ' ' || c == '\x7f' then lit "\\x" ++ Numeral.writePadded 16 2 c.toNat
      else if c.toNat < 0x10000 then lit "\\u" ++ Numeral.writePadded 16 4 c.toNat
      else lit "\\U" ++ Numeral.writePadded 16 8 c.toNat

/-- A character between single quotes. -/
def quoteChar (c : Char) : Text := singleQuote :: (writeChar singleQuote c ++ [singleQuote])

/-- Text between double quotes; a byte that is not part of a character is written in hexadecimal. -/
def quote (t : Text) : Text :=
  doubleQuote :: ((Utf8.pieces t).flatMap fun p =>
    match p.char? with
    | some c => writeChar doubleQuote c
    | none => lit "\\x" ++ p.bytes.flatMap fun b => Numeral.writePadded 16 2 b.toNat) ++ [doubleQuote]

/-! ### Reading -/

/-- The value of `n` digits of base `base` at the front, and what follows them. -/
def fixedDigits? (base : Nat) : Nat → Nat → Text → Option (Nat × Text)
  | 0, v, t => some (v, t)
  | _ + 1, _, [] => none
  | n + 1, v, b :: t =>
    match Numeral.digitValue? b with
    | some d => if d < base then fixedDigits? base n (v * base + d) t else none
    | none => none

theorem length_fixedDigits? {base n v : Nat} {t : Text} {r : Nat × Text}
    (h : fixedDigits? base n v t = some r) : r.2.length ≤ t.length := by
  induction n generalizing v t with
  | zero =>
    cases h
    exact Nat.le_refl _
  | succ n ih =>
    cases t with
    | nil => cases h
    | cons b t =>
      simp only [fixedDigits?] at h
      split at h
      · split at h
        · exact Nat.le_succ_of_le (ih h)
        · cases h
      · cases h

/-- The byte that a letter, a backslash or the closing mark stands for after a backslash. -/
def escapedByte? (mark e : UInt8) : Option UInt8 :=
  if e == byte 'a' then some 7
  else if e == byte 'b' then some 8
  else if e == byte 'f' then some 12
  else if e == byte 'n' then some 10
  else if e == byte 'r' then some 13
  else if e == byte 't' then some 9
  else if e == byte 'v' then some 11
  else if e == backslash || e == mark then some e
  else none

/-- An escape that gives the number of a byte or of a character. -/
structure NumberedEscape where
  base : Nat
  /-- How many digits are to come. -/
  digits : Nat
  /-- The value of the digits so far. -/
  start : Nat := 0
  isByte : Bool
deriving DecidableEq, Repr

def numberedEscape? (e : UInt8) : Option NumberedEscape :=
  if e == byte 'x' then some { base := 16, digits := 2, isByte := true }
  else if e == byte 'u' then some { base := 16, digits := 4, isByte := false }
  else if e == byte 'U' then some { base := 16, digits := 8, isByte := false }
  else if byte '0' ≤ e && e ≤ byte '7' then
    some { base := 8, digits := 2, start := (e - byte '0').toNat, isByte := true }
  else none

/-- The bytes of the byte or the character with a number. -/
def numberedBytes? (isByte : Bool) (n : Nat) : Option Text :=
  if isByte then if n < 256 then some [n.toUInt8] else none
  else (Utf8.scalar? 0 n).map Utf8.encode

/-- The bytes an escape stands for, given the byte after the backslash, and what follows it. -/
def readEscape? (mark e : UInt8) (t : Text) : Option (Text × Text) :=
  match escapedByte? mark e with
  | some b => some ([b], t)
  | none => do
    let escape ← numberedEscape? e
    let (n, rest) ← fixedDigits? escape.base escape.digits escape.start t
    return (← numberedBytes? escape.isByte n, rest)

theorem length_readEscape? {mark e : UInt8} {t : Text} {r : Text × Text}
    (h : readEscape? mark e t = some r) : r.2.length ≤ t.length := by
  unfold readEscape? at h
  split at h
  · cases h
    exact Nat.le_refl _
  · obtain ⟨escape, -, h⟩ := Option.bind_eq_some_iff.mp h
    obtain ⟨⟨n, rest⟩, hd, h⟩ := Option.bind_eq_some_iff.mp h
    obtain ⟨bytes, -, h⟩ := Option.bind_eq_some_iff.mp h
    cases h
    exact length_fixedDigits? hd

/-- One written character: the bytes it stands for and what follows it. The closing mark and a raw
newline are not characters of a literal. -/
def readChar? (mark : UInt8) : Text → Option (Text × Text)
  | [] => none
  | b :: t =>
    if b == mark || b == Text.newline then none
    else if b == backslash then
      match t with
      | e :: t => readEscape? mark e t
      | [] => none
    else
      some (Utf8.encode ((Utf8.head? (b :: t)).getD Utf8.replacement),
        t.drop (Utf8.headSize (b :: t) - 1))

theorem length_readChar? {mark : UInt8} {t : Text} {r : Text × Text} (h : readChar? mark t = some r) :
    r.2.length < t.length := by
  unfold readChar? at h
  split at h
  · cases h
  · split at h
    · cases h
    · split at h
      · split at h
        · have := length_readEscape? h
          simp only [List.length_cons]
          omega
        · cases h
      · cases h
        simp only [List.length_drop, List.length_cons]
        omega

/-- The characters up to a closing `mark` that ends the text. -/
def readBody? (mark : UInt8) (t : Text) : Option Text :=
  if t == [mark] then some []
  else match h : readChar? mark t with
    | some r =>
      have := length_readChar? h
      (readBody? mark r.2).map (r.1 ++ ·)
    | none => none
termination_by t.length

/-- The text a quoted literal stands for. -/
def unquote? : Text → Option Text
  | [] => none
  | mark :: t =>
    if mark == doubleQuote then readBody? mark t
    else if mark == singleQuote then
      if t == [mark] then some []
      else match readChar? mark t with
        | some (bytes, rest) => if rest == [mark] then some bytes else none
        | none => none
    else if mark == backquote then
      match Text.cutAt mark t with
      | (body, some []) => some (body.filter (· != Text.carriageReturn))
      | _ => none
    else none

end Quoted
end AccAsm
