import AccAsm.Instruction
import AccAsm.Text.Csv

/-! # Instruction tables from text

A table is written as comma-separated records of mnemonic, format tag and binary opcode, after a
header record. -/

namespace AccAsm
open Text (lit)

/-- Why a text gives no instruction table. -/
inductive LoadError where
  | csv (error : Csv.Error)
  | missingHeader
  /-- Rows count from one, the header being the first. -/
  | unknownFormat (row : Nat) (tag : Text)
  | invalidOpcode (row : Nat) (opcode : Text)
  | table (error : TableError)
deriving DecidableEq, Repr

def LoadError.message : LoadError → Text
  | csv e => lit "isa: " ++ e.message
  | missingHeader => lit "isa: missing header row"
  | unknownFormat row tag =>
    lit "isa: row " ++ Numeral.decimal row ++ lit ": unknown format class '" ++ tag ++ lit "'"
  | invalidOpcode row opcode =>
    lit "isa: row " ++ Numeral.decimal row ++ lit ": invalid opcode '" ++ opcode ++ lit "'"
  | table e => e.message

/-- The format a tag names, in any letter case and between white space. -/
def Format.parse? (tag : Text) : Option Format :=
  let folded := LowerCase.lower (Blank.trim tag)
  all.find? (·.tag == folded)

namespace InstructionTable

/-- The instruction in row number `row`, from its fields. -/
def parseRow (row : Nat) (mnemonic tag opcode : Text) : Except LoadError Instruction := do
  let some format := Format.parse? tag | throw (.unknownFormat row tag)
  match Numeral.readUnsigned 2 (opcodeLimit - 1) (Blank.trim opcode) with
  | .ok value => return ⟨LowerCase.lower (Blank.trim mnemonic), some format, value.toUInt8⟩
  | .error _ => throw (.invalidOpcode row opcode)

/-- The instructions of the records from row number `row` on. -/
def parseRows (row : Nat) : List (List Text) → Except LoadError (List Instruction)
  | [] => .ok []
  | record :: records => do
    let i ← parseRow row (record.getD 0 []) (record.getD 1 []) (record.getD 2 [])
    return i :: (← parseRows (row + 1) records)

/-- The table that records stand for, the first one being the header. -/
def ofRecords : List (List Text) → Except LoadError InstructionTable
  | [] => .error .missingHeader
  | _ :: records => do
    let rows ← parseRows 2 records
    (ofList rows).mapError .table

/-- The table written in a text. -/
def load (t : Text) : Except LoadError InstructionTable := do
  let records ← (Csv.read 3 t).mapError .csv
  ofRecords records

end InstructionTable
end AccAsm
