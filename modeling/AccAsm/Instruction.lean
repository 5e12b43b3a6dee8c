import AccAsm.Fault
import AccAsm.Text.LowerCase
import AccAsm.Text.Numeral

/-! # Instructions

The operand formats of the machine, and tables that give every mnemonic its format and opcode. -/

namespace AccAsm
open Text (byte lit)

/-- Operand formats. Every instruction is a word of 16 bits that starts with its opcode. -/
inductive Format where
  /-- No operands. -/
  | n
  /-- Accumulator and two registers. -/
  | r
  /-- Accumulator and 8-bit number. -/
  | i
  /-- Accumulator, register and 4-bit number. -/
  | s
  /-- 10-bit number. -/
  | j
  /-- Accumulator and register. -/
  | e1
  /-- Register, after two unused bits. -/
  | e2
  /-- Accumulator. -/
  | e3
  /-- Register, after six unused bits. -/
  | e4
deriving DecidableEq, Repr

namespace Format

/-- The formats in the order of their numbers, which start at one. -/
def all : List Format := [n, r, i, s, j, e1, e2, e3, e4]

def tag : Format → Text
  | n => lit "n"
  | r => lit "r"
  | i => lit "i"
  | s => lit "s"
  | j => lit "j"
  | e1 => lit "e1"
  | e2 => lit "e2"
  | e3 => lit "e3"
  | e4 => lit "e4"

/-- The number of a format, zero for none. -/
def code : Option Format → Nat
  | none => 0
  | some f => all.idxOf f + 1

def ofCode? (code : UInt8) : Option Format := if code == 0 then none else all[code.toNat - 1]?

/-- The tag of a format in messages, whether there is one or not. -/
def tagOrInvalid : Option Format → Text
  | some f => f.tag
  | none => lit "<invalid>"

end Format

/-- Opcodes have six bits. -/
def opcodeLimit : Nat := 64

structure Instruction where
  mnemonic : Text
  /-- A row may have no format, and is then of no use to the assembler. -/
  format : Option Format
  opcode : UInt8
deriving DecidableEq, Repr

/-- Why rows make no table. -/
inductive TableError where
  | emptyMnemonic
  | wideOpcode (mnemonic : Text) (opcode : UInt8)
  | duplicate (mnemonic : Text)
deriving DecidableEq, Repr

def TableError.message : TableError → Text
  | emptyMnemonic => lit "isa: empty mnemonic"
  | wideOpcode mnemonic opcode =>
    lit "isa: opcode 0x" ++ Numeral.write 16 opcode.toNat ++ lit " of '" ++ mnemonic ++
      lit "' exceeds 6 bits"
  | duplicate mnemonic => lit "isa: duplicate mnemonic '" ++ mnemonic ++ lit "'"

/-- A table of instructions with distinct, non-empty mnemonics and opcodes that fit their field. -/
structure InstructionTable where
  rows : List Instruction
  mnemonic_ne_nil : ∀ i ∈ rows, i.mnemonic ≠ []
  opcode_lt : ∀ i ∈ rows, i.opcode.toNat < opcodeLimit
  nodup : (rows.map Instruction.mnemonic).Nodup

namespace InstructionTable

def empty : InstructionTable := ⟨[], by simp, by simp, by simp⟩

/-- One more row at the end. -/
def add (t : InstructionTable) (i : Instruction) : Except TableError InstructionTable :=
  if hm : i.mnemonic = [] then .error .emptyMnemonic
  else if ho : opcodeLimit ≤ i.opcode.toNat then .error (.wideOpcode i.mnemonic i.opcode)
  else if hd : i.mnemonic ∈ t.rows.map Instruction.mnemonic then .error (.duplicate i.mnemonic)
  else .ok {
    rows := t.rows ++ [i]
    mnemonic_ne_nil := by
      intro k hk
      rcases List.mem_append.mp hk with hk | hk
      · exact t.mnemonic_ne_nil k hk
      · rw [List.mem_singleton.mp hk]; exact hm
    opcode_lt := by
      intro k hk
      rcases List.mem_append.mp hk with hk | hk
      · exact t.opcode_lt k hk
      · rw [List.mem_singleton.mp hk]; exact Nat.lt_of_not_le ho
    nodup := by
      rw [List.map_append, List.nodup_append]
      exact ⟨t.nodup, by simp, fun a ha b hb hab => hd (by
        rw [List.map_singleton, List.mem_singleton] at hb
        rw [← hb, ← hab]
        exact ha)⟩ }

/-- The table of the given rows; the first row that does not fit in is refused. -/
def ofList (rows : List Instruction) : Except TableError InstructionTable := rows.foldlM add empty

/-- The row of a mnemonic, which is looked up in lower case. -/
def find? (t : InstructionTable) (mnemonic : Text) : Option Instruction :=
  let folded := LowerCase.lower mnemonic
  t.rows.find? (·.mnemonic == folded)

/-- The row of a mnemonic that the table is known to have. -/
def get (t : InstructionTable) (mnemonic : Text) : Except Fault Instruction :=
  match t.find? mnemonic with
  | some i => .ok i
  | none => .error (.missingInstruction mnemonic)

/-- The mnemonics in byte order. -/
def mnemonics (t : InstructionTable) : List Text :=
  (t.rows.map Instruction.mnemonic).mergeSort Text.le

def size (t : InstructionTable) : Nat := t.rows.length

end InstructionTable
end AccAsm
