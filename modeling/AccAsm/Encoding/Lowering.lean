import AccAsm.Encoding.Operand

/-! # Lowering

Every pseudo-instruction stands for a sequence of instructions, which use accumulator `&1` and, for
addresses, register `$1`:

    jump T          lui &1, T[15:8]; ori &1, T[7:0]; mfac &1, $1; jr $1
    mul $a, $b      lli &1, 0; lui &1, 0; mth &1; mtl &1; mtac &1, $a; mtl &1; lli &1, 0; lui &1, 0;
                    then sixteen times tmul $b (tdiv $b for div)
    lw &d, L(n)     lui &1, L[15:8]; ori &1, L[7:0]; addi &1, n; mfac &1, $1; lwr &d, $1
                    (swr &d, $1 for sw)
    swap $a, $b     three times xor &1, $a, $b; mfac &1, d, with d being $a, $b and $a -/

namespace AccAsm
open Text (lit)

/-- An instruction with its operands already in place. -/
structure Primitive where
  mnemonic : Text
  format : Format
  fields : List Segment
deriving DecidableEq, Repr

namespace Encoding

def scratchAccumulator : Segment := accumulatorField scratch.toUInt16

def scratchRegister : Segment := registerField scratch.toUInt16

/-- Moves the address `hi`, `lo` into the scratch accumulator. -/
def loadAddress (hi lo : Segment) : List Primitive :=
  [⟨lit "lui", .i, [scratchAccumulator, hi]⟩, ⟨lit "ori", .i, [scratchAccumulator, lo]⟩]

/-- Moves the scratch accumulator into a register. -/
def storeScratch (rf : Segment) : Primitive := ⟨lit "mfac", .e1, [scratchAccumulator, rf, zeros 4]⟩

def clearScratch : List Primitive :=
  [⟨lit "lli", .i, [scratchAccumulator, zeros 8]⟩, ⟨lit "lui", .i, [scratchAccumulator, zeros 8]⟩]

/-- The high and the low byte of the address of a label. -/
def addressBytes (label : Lexeme) : Segment × Segment :=
  (.ofRef ⟨label.text, 15, 8, label.position⟩, .ofRef ⟨label.text, 7, 0, label.position⟩)

def jumpSequence (hi lo : Segment) : List Primitive :=
  loadAddress hi lo ++
    [storeScratch scratchRegister, ⟨lit "jr", .e2, [zeros 2, scratchRegister, zeros 4]⟩]

/-- One step of a multiplication or division for every bit of a word. -/
def mulSequence (step : Text) (a b : Segment) : List Primitive :=
  clearScratch ++
    [⟨lit "mth", .e3, [scratchAccumulator, zeros 8]⟩,
     ⟨lit "mtl", .e3, [scratchAccumulator, zeros 8]⟩,
     ⟨lit "mtac", .e1, [scratchAccumulator, a, zeros 4]⟩,
     ⟨lit "mtl", .e3, [scratchAccumulator, zeros 8]⟩] ++
    clearScratch ++ List.replicate wordBits ⟨step, .e4, [zeros 6, b]⟩

def memorySequence (access : Text) (ac hi lo offset : Segment) : List Primitive :=
  loadAddress hi lo ++
    [⟨lit "addi", .i, [scratchAccumulator, offset]⟩, storeScratch scratchRegister,
     ⟨access, .e1, [ac, scratchRegister, zeros 4]⟩]

def swapSequence (a b : Segment) : List Primitive :=
  [a, b, a].flatMap fun d => [⟨lit "xor", .r, [scratchAccumulator, a, b]⟩, storeScratch d]

/-- Two register operands of a pseudo-instruction. -/
def registerOperands (strict : Bool) (context : Text) (a b : Lexeme) : Encoding (Segment × Segment) := do
  let a ← register strict a context
  let b ← register strict b context
  return (registerField a, registerField b)

/-- The sequence of a memory access. -/
def memoryAccess (context access : Text) (ac label offset : Lexeme) : Encoding (List Primitive) := do
  let ac ← accumulator ac context
  let offset ← number offset byteBits context
  let (hi, lo) := addressBytes label
  return memorySequence access (accumulatorField ac) hi lo (.ofValue offset 8)

/-- What stands where a part is missing or misplaced. -/
def partName : Outline → Text
  | .absent => lit "<nil>"
  | .node kind _ _ _ => lit "*ast." ++ kind.name

/-- The sequence a pseudo-instruction stands for. -/
def lower (strict : Bool) (position : Position) : Pseudo → Encoding (List Primitive)
  | .jump (.number n) => do
    let address ← number n wordBits (lit "jump")
    return jumpSequence (.ofValue (Bits.shiftDown address 8) 8) (.ofValue address 8)
  | .jump (.label name) =>
    let (hi, lo) := addressBytes name
    return jumpSequence hi lo
  | .jump (.other part) => fail (.unknownPart position (partName part))
  | .mul a b => do
    let (a, b) ← registerOperands strict (lit "mul") a b
    return mulSequence (lit "tmul") a b
  | .div a b => do
    let (a, b) ← registerOperands strict (lit "div") a b
    return mulSequence (lit "tdiv") a b
  | .swap a b => do
    let (a, b) ← registerOperands strict (lit "swap") a b
    return swapSequence a b
  | .load ac label offset => memoryAccess (lit "lw") (lit "lwr") ac label offset
  | .store ac label offset => memoryAccess (lit "sw") (lit "swr") ac label offset

end Encoding
end AccAsm
