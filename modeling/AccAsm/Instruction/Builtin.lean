import AccAsm.Instruction

/-! # The built-in instruction table -/

namespace AccAsm
open Text (lit)

namespace InstructionTable

/-- The rows of the built-in table, in the order of their opcodes. -/
def builtinRows : List Instruction :=
  [⟨lit "nop", some .n, 0b000000⟩,
   ⟨lit "add", some .r, 0b000001⟩,
   ⟨lit "sub", some .r, 0b000010⟩,
   ⟨lit "not", some .e1, 0b000011⟩,
   ⟨lit "and", some .r, 0b000100⟩,
   ⟨lit "or", some .r, 0b000101⟩,
   ⟨lit "xor", some .r, 0b000110⟩,
   ⟨lit "nand", some .r, 0b000111⟩,
   ⟨lit "nor", some .r, 0b001000⟩,
   ⟨lit "xnor", some .r, 0b001001⟩,
   ⟨lit "sll", some .s, 0b001010⟩,
   ⟨lit "srl", some .s, 0b001011⟩,
   ⟨lit "sra", some .s, 0b001100⟩,
   ⟨lit "tmul", some .e4, 0b001101⟩,
   ⟨lit "tdiv", some .e4, 0b001110⟩,
   ⟨lit "mtl", some .e3, 0b001111⟩,
   ⟨lit "mfl", some .e3, 0b010000⟩,
   ⟨lit "mth", some .e3, 0b010001⟩,
   ⟨lit "mfh", some .e3, 0b010010⟩,
   ⟨lit "mtac", some .e1, 0b010011⟩,
   ⟨lit "mfac", some .e1, 0b010100⟩,
   ⟨lit "slt", some .r, 0b010101⟩,
   ⟨lit "addi", some .i, 0b010110⟩,
   ⟨lit "subi", some .i, 0b010111⟩,
   ⟨lit "andi", some .i, 0b011000⟩,
   ⟨lit "ori", some .i, 0b011001⟩,
   ⟨lit "xori", some .i, 0b011010⟩,
   ⟨lit "nandi", some .i, 0b011011⟩,
   ⟨lit "nori", some .i, 0b011100⟩,
   ⟨lit "xnori", some .i, 0b011101⟩,
   ⟨lit "lli", some .i, 0b011110⟩,
   ⟨lit "lui", some .i, 0b011111⟩,
   ⟨lit "lsi", some .i, 0b100000⟩,
   ⟨lit "lwr", some .e1, 0b100001⟩,
   ⟨lit "swr", some .e1, 0b100010⟩,
   ⟨lit "push", some .e3, 0b100011⟩,
   ⟨lit "pop", some .e3, 0b100100⟩,
   ⟨lit "jal", some .j, 0b100110⟩,
   ⟨lit "jr", some .e2, 0b100111⟩,
   ⟨lit "jral", some .e2, 0b101000⟩,
   ⟨lit "bgtz", some .i, 0b101001⟩,
   ⟨lit "bltz", some .i, 0b101010⟩,
   ⟨lit "beqz", some .i, 0b101011⟩,
   ⟨lit "bnez", some .i, 0b101100⟩,
   ⟨lit "bgtzr", some .e1, 0b101101⟩,
   ⟨lit "bltzr", some .e1, 0b101110⟩,
   ⟨lit "beqzr", some .e1, 0b101111⟩,
   ⟨lit "bnezr", some .e1, 0b110000⟩]

/-- The instructions of the machine. -/
def builtin : InstructionTable where
  rows := builtinRows
  mnemonic_ne_nil := by decide +kernel
  opcode_lt := by decide +kernel
  nodup := by decide +kernel

end InstructionTable
end AccAsm
