import AccAsm.Instruction.Builtin
import AccAsm.Proofs.Cell.Packing
import AccAsm.Proofs.Encoding.Arguments
import Mathlib.Data.List.Nodup

/-! # Decoding instructions

If no two rows of a table have the same opcode, a word determines the instruction that it encodes:
`InstructionTable.decode?` reads the mnemonic and the values of the operands back from the two cells of
every instruction that is encoded with the table (`Encoding.instruction_decodes`). So two instructions
with the same bytes are the same up to the spelling of their parts. -/

namespace AccAsm
open Text (lit)

/-- The bits of a word, counted from the least significant one, that the format leaves at zero. -/
def Format.unused : Format → List Nat
  | n => [0, 1, 2, 3, 4, 5, 6, 7, 8, 9]
  | r | i | s | j => []
  | e1 => [0, 1, 2, 3]
  | e2 => [0, 1, 2, 3, 8, 9]
  | e3 => [0, 1, 2, 3, 4, 5, 6, 7]
  | e4 => [4, 5, 6, 7, 8, 9]

namespace Arguments

/-- The arguments of an instruction with the ten bits `low` after its opcode. -/
def ofLow (low : Nat) : Format → Arguments Nat
  | .n => n
  | .r => r (low / 256) (low / 16 % 16) (low % 16)
  | .i => i (low / 256) (low % 256)
  | .s => s (low / 256) (low / 16 % 16) (low % 16)
  | .j => j low
  | .e1 => e1 (low / 256) (low / 16 % 16)
  | .e2 => e2 (low / 16 % 16)
  | .e3 => e3 (low / 256)
  | .e4 => e4 (low % 16)

variable {a : Arguments Nat}

theorem ofLow_low (h : a.InRange) : ofLow a.low a.format = a := by
  cases a <;> simp only [InRange] at h <;> simp only [low, format, ofLow] <;> congr 1 <;> omega

theorem low_lt (h : a.InRange) : a.low < 1024 := (forms_fields h fun _ => 0).lt

theorem testBit_low (h : a.InRange) : ∀ b ∈ a.format.unused, a.low.testBit b = false := by
  cases a with
  | n => decide
  | r ac rf₁ rf₂ | i ac imm | s ac rf imm | j imm => simp [format, Format.unused]
  | e1 ac rf =>
    have hbits : ∀ ac < 4, ∀ rf < 16, ∀ b ∈ [0, 1, 2, 3], ((ac * 16 + rf) * 16).testBit b = false := by
      decide
    exact hbits ac h.1 rf h.2
  | e2 rf =>
    have hbits : ∀ rf < 16, ∀ b ∈ [0, 1, 2, 3, 8, 9], (rf * 16).testBit b = false := by decide
    exact hbits rf h
  | e3 ac =>
    have hbits : ∀ ac < 4, ∀ b ∈ [0, 1, 2, 3, 4, 5, 6, 7], (ac * 256).testBit b = false := by decide
    exact hbits ac h
  | e4 rf =>
    have hbits : ∀ rf < 16, ∀ b ∈ [4, 5, 6, 7, 8, 9], rf.testBit b = false := by decide
    exact hbits rf h

end Arguments

/-! ### Words -/

/-- The word of an instruction with the given arguments. -/
def Instruction.word (row : Instruction) (a : Arguments Nat) : UInt16 :=
  (row.opcode.toNat * 1024 + a.low).toUInt16

namespace InstructionTable
variable {table : InstructionTable} {row : Instruction} {a : Arguments Nat}

theorem toNat_word (hrow : row ∈ table.rows) (ha : a.InRange) :
    (row.word a).toNat = row.opcode.toNat * 1024 + a.low := by
  have hop : row.opcode.toNat < 64 := table.opcode_lt row hrow
  have hlow := Arguments.low_lt ha
  exact Bits.toNat_toUInt16 (Nat.le_refl 16) (by omega)

/-- The instruction that a word encodes, with its mnemonic as it stands in the table. -/
def decode? (table : InstructionTable) (word : UInt16) : Option (Operation Nat) := do
  let row ← table.rows.find? (·.opcode.toNat == word.toNat / 1024)
  return ⟨row.mnemonic, .ofLow (word.toNat % 1024) (← row.format)⟩

theorem mnemonic_of_find? {mnemonic : Text} (h : table.find? mnemonic = some row) :
    row.mnemonic = LowerCase.lower mnemonic := by
  simpa using List.find?_some h

theorem find?_opcode (hd : (table.rows.map Instruction.opcode).Nodup) (hrow : row ∈ table.rows) :
    table.rows.find? (·.opcode.toNat == row.opcode.toNat) = some row := by
  cases h : table.rows.find? (·.opcode.toNat == row.opcode.toNat) with
  | none => exact absurd (List.find?_eq_none.mp h row hrow) (by simp)
  | some other =>
    have hsame : other.opcode = row.opcode := UInt8.toNat_inj.mp (by simpa using List.find?_some h)
    rw [List.inj_on_of_nodup_map hd (List.mem_of_find?_eq_some h) hrow hsame]

theorem decode?_word (hd : (table.rows.map Instruction.opcode).Nodup) (hrow : row ∈ table.rows)
    (hf : row.format = some a.format) (ha : a.InRange) :
    table.decode? (row.word a) = some ⟨row.mnemonic, a⟩ := by
  have hlow := Arguments.low_lt ha
  have hopcode : (row.opcode.toNat * 1024 + a.low) / 1024 = row.opcode.toNat := by omega
  have hrest : (row.opcode.toNat * 1024 + a.low) % 1024 = a.low := by omega
  rw [decode?, toNat_word hrow ha, hopcode, hrest, find?_opcode hd hrow, Option.bind_eq_bind, Option.bind_some, hf]
  exact congrArg (fun b => some (Operation.mk row.mnemonic b)) (Arguments.ofLow_low ha)

theorem testBit_word (hrow : row ∈ table.rows) (ha : a.InRange) :
    ∀ b ∈ a.format.unused, (row.word a).toNat.testBit b = false := by
  intro b hb
  have hlt : b < 10 := by
    have hall : ∀ f : Format, ∀ b ∈ f.unused, b < 10 := by
      intro f
      cases f <;> decide
    exact hall _ b hb
  rw [toNat_word hrow ha, Nat.mul_comm, Nat.testBit_two_pow_mul_add (i := 10) _ (Arguments.low_lt ha), if_pos hlt]
  exact Arguments.testBit_low ha b hb

end InstructionTable

namespace Operation
variable {table : InstructionTable} {position : Position} {mnemonic : Text} {a : Arguments Nat} {cells : List Cell}

/-- An instruction without placeholders fills two cells with its word. -/
theorem Lays.map_byte? (h : Lays table position ⟨mnemonic, a.literal⟩ cells) (ha : a.InRange) :
    ∃ row ∈ table.rows, table.find? mnemonic = some row ∧ row.format = some a.format ∧
      cells.map Cell.byte? = (wordBytes (row.word a).toNat).map some := by
  obtain ⟨row, hrow, hf, hpack⟩ := h
  have hmem : row ∈ table.rows := List.mem_of_find?_eq_some hrow
  have hform : Segment.Forms (fun _ => 0) (.ofValue row.opcode.toUInt16 6 :: a.literal.fields) 16
      (row.opcode.toNat * 1024 + a.low) :=
    (Encoding.forms_opcode hmem).append (Arguments.forms_fields ha _)
  obtain ⟨cells', hcells, hpacked⟩ := Encoding.pack_word hform position
  obtain rfl : cells' = cells := Except.ok.inj (hcells.symm.trans hpack)
  have hresolved : ∀ c ∈ cells', c.isResolved := by
    have hsplit (s : Segment) (n : UInt8) (h : s.ref?.isNone) :
        (s.split n).1.ref?.isNone ∧ (s.split n).2.ref?.isNone := by
      obtain ⟨v, w, rfl⟩ := Segment.exists_literal h
      exact ⟨rfl, rfl⟩
    have hfields : ∀ s ∈ .ofValue row.opcode.toUInt16 6 :: a.literal.fields, s.ref?.isNone :=
      List.forall_mem_cons.mpr ⟨rfl, a.ref?_fields⟩
    intro c hc
    exact Cell.isResolved_iff.mpr (Packer.forall_mem_cells (fun s n h _ _ => hsplit s n h)
      (fun s hs _ => hfields s hs) (Encoding.pack_eq_ok.mp hpack) c hc).2.2
  refine ⟨row, hmem, hrow, by rw [hf, Arguments.format_literal], ?_⟩
  rw [InstructionTable.toNat_word hmem ha]
  exact Cell.map_byte? hpacked.whole hresolved (Encoding.packed_word hpacked hform)

end Operation

/-! ### Instructions -/

/-- The same registers, and numbers that are congruent modulo what their fields have room for. -/
def Operands.Alike : Operands → Operands → Prop
  | n, n => True
  | r ac rf₁ rf₂, r ac' rf₁' rf₂' => ac.index = ac'.index ∧ rf₁.index = rf₁'.index ∧ rf₂.index = rf₂'.index
  | i ac imm, i ac' imm' =>
    ac.index = ac'.index ∧ Numeral.value imm.text % 2 ^ 8 = Numeral.value imm'.text % 2 ^ 8
  | s ac rf imm, s ac' rf' imm' => ac.index = ac'.index ∧ rf.index = rf'.index ∧
    Numeral.value imm.text % 2 ^ 4 = Numeral.value imm'.text % 2 ^ 4
  | j imm, j imm' => Numeral.value imm.text % 2 ^ 10 = Numeral.value imm'.text % 2 ^ 10
  | e1 ac rf, e1 ac' rf' => ac.index = ac'.index ∧ rf.index = rf'.index
  | e2 rf, e2 rf' => rf.index = rf'.index
  | e3 ac, e3 ac' => ac.index = ac'.index
  | e4 rf, e4 rf' => rf.index = rf'.index
  | _, _ => False

theorem Lexeme.residue_eq_residue_iff {l l' : Lexeme} {width : Nat} :
    l.residue width = l'.residue width ↔
      Numeral.value l.text % 2 ^ width = Numeral.value l'.text % 2 ^ width := by
  have hpos : (2 ^ width : Int) ≠ 0 := Int.ne_of_gt (Int.pow_pos (by decide))
  have h := Int.emod_nonneg (Numeral.value l.text) hpos
  have h' := Int.emod_nonneg (Numeral.value l'.text) hpos
  rw [residue, residue, Nat.cast_pow, Nat.cast_ofNat]
  omega

theorem Operands.values_eq_values_iff {o o' : Operands} : o.values = o'.values ↔ o.Alike o' := by
  cases o <;> cases o' <;> simp [values, Alike, Lexeme.residue_eq_residue_iff]

theorem wordBytes_inj {w w' : UInt16} (h : wordBytes w.toNat = wordBytes w'.toNat) : w = w' := by
  have hbits := congrArg (List.flatMap fun b : UInt8 => Bits.list 8 b.toNat) h
  rw [Encoding.flatMap_wordBytes, Encoding.flatMap_wordBytes] at hbits
  exact UInt16.toNat_inj.mp (Bits.list_inj w.toNat_lt w'.toNat_lt hbits)

namespace Encoding
variable {table : InstructionTable} {strict : Bool} {position : Position} {mnemonic : Text} {operands : Operands}
  {cells : List Cell}

theorem exists_word (h : instruction table strict position mnemonic operands = .ok cells) :
    ∃ row ∈ table.rows, table.find? mnemonic = some row ∧ row.format = some operands.values.format ∧
      operands.values.InRange ∧ cells.map Cell.byte? = (wordBytes (row.word operands.values).toNat).map some := by
  obtain ⟨haccepted, hlays⟩ := instruction_eq_ok.mp h
  have hrange := Operands.inRange_values haccepted
  obtain ⟨row, hmem, hrow, hf, hbytes⟩ := hlays.map_byte? hrange
  exact ⟨row, hmem, hrow, hf, hrange, hbytes⟩

/-- With distinct opcodes, the two cells of an instruction tell its mnemonic in lower case and the values of
its operands, and so two instructions have the same bytes exactly if these are the same. -/
theorem instruction_decodes (hd : (table.rows.map Instruction.opcode).Nodup) :
    (∀ strict position mnemonic operands cells,
      instruction table strict position mnemonic operands = .ok cells →
        ∃ w : UInt16, cells.map Cell.byte? = (wordBytes w.toNat).map some ∧
          table.decode? w = some ⟨LowerCase.lower mnemonic, operands.values⟩ ∧
          ∀ b ∈ operands.format.unused, w.toNat.testBit b = false) ∧
    ∀ strict strict' position position' mnemonic mnemonic' operands operands' cells cells',
      instruction table strict position mnemonic operands = .ok cells →
      instruction table strict' position' mnemonic' operands' = .ok cells' →
        (cells.map Cell.byte? = cells'.map Cell.byte? ↔
          LowerCase.lower mnemonic = LowerCase.lower mnemonic' ∧ operands.Alike operands') := by
  have hdecode {mnemonic : Text} {operands : Operands} {row : Instruction} (hmem : row ∈ table.rows)
      (hrow : table.find? mnemonic = some row) (hf : row.format = some operands.values.format)
      (hrange : operands.values.InRange) :
      table.decode? (row.word operands.values) = some ⟨LowerCase.lower mnemonic, operands.values⟩ := by
    rw [InstructionTable.decode?_word hd hmem hf hrange, InstructionTable.mnemonic_of_find? hrow]
  constructor
  · intro strict position mnemonic operands cells h
    obtain ⟨row, hmem, hrow, hf, hrange, hbytes⟩ := exists_word h
    refine ⟨row.word operands.values, hbytes, hdecode hmem hrow hf hrange, ?_⟩
    rw [← Operands.format_values]
    exact InstructionTable.testBit_word hmem hrange
  · intro strict strict' position position' mnemonic mnemonic' operands operands' cells cells' h h'
    obtain ⟨row, hmem, hrow, hf, hrange, hbytes⟩ := exists_word h
    obtain ⟨row', hmem', hrow', hf', hrange', hbytes'⟩ := exists_word h'
    rw [hbytes, hbytes', ← Operands.values_eq_values_iff]
    constructor
    · intro hsame
      have hword := wordBytes_inj (List.map_injective_iff.mpr (fun _ _ => Option.some.inj) hsame)
      have hboth := hdecode hmem hrow hf hrange
      rw [hword, hdecode hmem' hrow' hf' hrange'] at hboth
      obtain ⟨hmnemonic, hvalues⟩ := Operation.mk.inj (Option.some.inj hboth)
      exact ⟨hmnemonic.symm, hvalues.symm⟩
    · rintro ⟨hmnemonic, hvalues⟩
      -- the table is asked for the mnemonic in lower case
      have hfind : table.find? mnemonic = table.find? mnemonic' := by
        rw [InstructionTable.find?, InstructionTable.find?, hmnemonic]
      rw [hvalues, Option.some.inj (hrow.symm.trans (hfind.trans hrow'))]

/-- An instruction spelled in two ways, which share their bytes. -/
theorem instruction_decodes_spellings :
    let operands : Operands := .i ⟨{}, lit "&2"⟩ ⟨{}, lit "-1"⟩
    let operands' : Operands := .i ⟨{}, lit "&002"⟩ ⟨{}, lit "255"⟩
    (InstructionTable.builtin.rows.map Instruction.opcode).Nodup ∧
      ∃ cells cells', instruction .builtin true {} (lit "ADDI") operands = .ok cells ∧
        instruction .builtin false {} (lit "addi") operands' = .ok cells' ∧
        cells.map Cell.byte? = cells'.map Cell.byte? ∧
        ∃ w : UInt16, cells.map Cell.byte? = (wordBytes w.toNat).map some ∧
          InstructionTable.builtin.decode? w = some ⟨lit "addi", .i 2 255⟩ := by
  intro operands operands'
  have hd : (InstructionTable.builtin.rows.map Instruction.opcode).Nodup := by decide +kernel
  have hencodes : (instruction .builtin true {} (lit "ADDI") operands).toOption.isSome ∧
      (instruction .builtin false {} (lit "addi") operands').toOption.isSome := by decide +kernel
  simp only [Option.isSome_iff_exists, except_toOption_eq_some] at hencodes
  obtain ⟨⟨cells, hcells⟩, cells', hcells'⟩ := hencodes
  obtain ⟨hwords, hsame⟩ := instruction_decodes hd
  have hlower : LowerCase.lower (lit "ADDI") = lit "addi" := by decide +kernel
  have halike : LowerCase.lower (lit "ADDI") = LowerCase.lower (lit "addi") ∧ operands.Alike operands' :=
    ⟨by decide +kernel, by decide +kernel, by decide +kernel⟩
  obtain ⟨w, hw, hdecode, -⟩ := hwords _ _ _ _ _ hcells
  rw [hlower] at hdecode
  have hbytes := (hsame _ _ _ _ _ _ _ _ _ _ hcells hcells').mpr halike
  exact ⟨hd, cells, cells', hcells, hcells', hbytes, w, hw, hdecode⟩

/-- No decoding tells how a mnemonic was spelled, as the table is looked up in lower case. -/
theorem spelling_not_decoded :
    let operands : Operands := .i ⟨{}, lit "&2"⟩ ⟨{}, lit "-1"⟩
    (InstructionTable.builtin.rows.map Instruction.opcode).Nodup ∧ lit "ADDI" ≠ lit "addi" ∧
      (∃ cells, instruction .builtin true {} (lit "ADDI") operands = .ok cells ∧
        instruction .builtin true {} (lit "addi") operands = .ok cells ∧
        cells.map Cell.byte? = [some 0x5A, some 0xFF]) ∧
      ¬ ∃ decode : UInt16 → Option (Operation Nat), ∀ mnemonic cells w,
        instruction .builtin true {} mnemonic operands = .ok cells →
          cells.map Cell.byte? = (wordBytes w.toNat).map some → decode w = some ⟨mnemonic, operands.values⟩ := by
  intro operands
  have hsame : (instruction .builtin true {} (lit "addi") operands).toOption =
        (instruction .builtin true {} (lit "ADDI") operands).toOption ∧
      (instruction .builtin true {} (lit "ADDI") operands).toOption.map (·.map Cell.byte?) =
        some [some 0x5A, some 0xFF] := by decide +kernel
  obtain ⟨hlower, hbytes⟩ := hsame
  obtain ⟨cells, hcells, hbytes⟩ := Option.map_eq_some_iff.mp hbytes
  rw [hcells] at hlower
  have hupper := except_toOption_eq_some.mp hcells
  have hlower := except_toOption_eq_some.mp hlower
  refine ⟨by decide +kernel, by decide, ⟨cells, hupper, hlower, hbytes⟩, ?_⟩
  rintro ⟨decode, h⟩
  have hword : cells.map Cell.byte? = (wordBytes (0x5AFF : UInt16).toNat).map some := by
    rw [hbytes]
    decide
  have hboth := (h _ _ _ hupper hword).symm.trans (h _ _ _ hlower hword)
  exact absurd (Operation.mk.inj (Option.some.inj hboth)).1 (by decide)

end Encoding
end AccAsm
