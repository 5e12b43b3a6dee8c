import AccAsm.Text

/-! # Numerals

Writing numbers in a base, and reading them under a limit. A reader stops at the first character
that decides: a character that is no digit of the base makes the numeral malformed, a digit that
takes the value past the limit makes it out of range. -/

namespace AccAsm

namespace Numeral
open Text (byte)

/-! ### Writing -/

/-- The digits of `n` in base `b`, most significant first; zero has one digit. -/
def digits (b n : Nat) : List Nat :=
  if n < b ∨ b < 2 then [n] else digits b (n / b) ++ [n % b]
termination_by n
decreasing_by exact Nat.div_lt_self (by omega) (by omega)

/-- The byte of a digit below 36. -/
def digitByte (d : Nat) : UInt8 :=
  if d < 10 then byte '0' + d.toUInt8 else byte 'a' + (d - 10).toUInt8

def write (base n : Nat) : Text := (digits base n).map digitByte

/-- `t` brought to `width` bytes by zeros in front. -/
def zeroPadded (width : Nat) (t : Text) : Text :=
  List.replicate (width - t.length) (byte '0') ++ t

/-- `n` in base `base` with at least `width` digits. -/
def writePadded (base width n : Nat) : Text := zeroPadded width (write base n)

def decimal (n : Nat) : Text := write 10 n

def signedDecimal (n : Int) : Text :=
  if n < 0 then byte '-' :: decimal n.natAbs else decimal n.natAbs

/-- Decimal with at least two characters, a sign counting as one. -/
def twoPlaces (n : Int) : Text :=
  if n < 0 then byte '-' :: writePadded 10 1 n.natAbs else writePadded 10 2 n.natAbs

/-! ### Reading -/

/-- Why a numeral cannot be read. -/
inductive Flaw where
  | malformed
  | outOfRange
deriving DecidableEq, Repr

/-- The value of a digit or letter, read as a digit of a base up to 36. -/
def digitValue? (b : UInt8) : Option Nat :=
  if Text.isDigit b then some (b - byte '0').toNat
  else if Text.isLower b then some ((b - byte 'a').toNat + 10)
  else if Text.isUpper b then some ((b - byte 'A').toNat + 10)
  else none

/-- Continues the value `n` with the digits of `t`. -/
def readDigits (base limit : Nat) : Nat → Text → Except Flaw Nat
  | n, [] => .ok n
  | n, b :: t =>
    match digitValue? b with
    | none => .error .malformed
    | some d =>
      if base ≤ d then .error .malformed
      else if limit < n * base + d then .error .outOfRange
      else readDigits base limit (n * base + d) t

/-- An unsigned numeral of at least one digit and at most the value `limit`. -/
def readUnsigned (base limit : Nat) (t : Text) : Except Flaw Nat :=
  if t.isEmpty then .error .malformed else readDigits base limit 0 t

/-- A sign, if any, and the rest. -/
def splitSign : Text → Bool × Text
  | b :: t => if b == byte '-' then (true, t) else if b == byte '+' then (false, t) else (false, b :: t)
  | [] => (false, [])

/-- The greatest unsigned 64-bit value. -/
def maxUnsigned : Nat := 0xFFFFFFFFFFFFFFFF

/-- The greatest magnitude of a signed 64-bit value, which only negative ones reach. -/
def maxMagnitude : Nat := 0x8000000000000000

/-- A 64-bit value from its sign and magnitude. -/
def ofMagnitude (negative : Bool) (n : Nat) : Except Flaw Int :=
  if negative then if n ≤ maxMagnitude then .ok (-n) else .error .outOfRange
  else if n < maxMagnitude then .ok n else .error .outOfRange

/-- A decimal numeral with an optional sign, as a 64-bit value. -/
def readInt64 (t : Text) : Except Flaw Int := do
  let (negative, digits) := splitSign t
  ofMagnitude negative (← readUnsigned 10 maxUnsigned digits)

/-! ### Literals with a base mark

`0b`, `0o` and `0x` announce a base, a bare leading zero announces octal, and underscores may stand
between digits. -/

/-- The base a literal announces, and its digits. -/
def announcedBase : Text → Nat × Text
  | z :: m :: d :: t =>
    if z == byte '0' then
      if Text.lowerByte m == byte 'b' then (2, d :: t)
      else if Text.lowerByte m == byte 'o' then (8, d :: t)
      else if Text.lowerByte m == byte 'x' then (16, d :: t)
      else (8, m :: d :: t)
    else (10, z :: m :: d :: t)
  | z :: t => if z == byte '0' then (8, t) else (10, z :: t)
  | [] => (10, [])

/-- The last thing seen while the underscores of a literal are checked. -/
inductive Seen where
  | start
  | digit
  | underscore
  | other
deriving DecidableEq, Repr

/-- Every underscore stands between two digits. -/
def underscoresBetween (hex : Bool) : Seen → Text → Bool
  | seen, [] => seen != .underscore
  | seen, b :: t =>
    if Text.isDigit b || (hex && byte 'a' ≤ Text.lowerByte b && Text.lowerByte b ≤ byte 'f') then
      underscoresBetween hex .digit t
    else if b == byte '_' then seen == .digit && underscoresBetween hex .underscore t
    else seen != .underscore && underscoresBetween hex .other t

/-- The underscores of an unsigned literal are well placed; a base mark counts as a digit. -/
def underscoresOk : Text → Bool
  | z :: m :: t =>
    let mark := Text.lowerByte m
    if z == byte '0' && (mark == byte 'b' || mark == byte 'o' || mark == byte 'x') then
      underscoresBetween (mark == byte 'x') .digit t
    else underscoresBetween false .start (z :: m :: t)
  | t => underscoresBetween false .start t

/-- A signed literal in any of the announced bases, as a 64-bit value. -/
def readLiteral (t : Text) : Except Flaw Int := do
  let (negative, unsigned) := splitSign t
  if unsigned.isEmpty then throw .malformed
  let (base, digits) := announcedBase unsigned
  let n ← readDigits base maxUnsigned 0 (digits.filter (· != byte '_'))
  unless underscoresOk unsigned do throw .malformed
  ofMagnitude negative n

end Numeral
end AccAsm
