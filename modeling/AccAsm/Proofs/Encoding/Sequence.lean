import AccAsm.Proofs.Cell.Packing
import AccAsm.Proofs.Encoding.Arguments

/-! # Lowered sequences

A pseudo-instruction stands for the operations that `Pseudo.expansion` lists. Their arguments are the values
of its operands, the scratch accumulator `&1` and register `$1`, and the bytes of an address, as numbers or as
placeholders. If the table has all of them, the cells of the pseudo-instruction are theirs, in the layouts
that written instructions have, and otherwise the first one that it lacks is blamed
(`Encoding.pseudo_expands`). -/

namespace AccAsm
open Text (lit)

/-- The low eight bits of a number. -/
def Segment.byte (v : Nat) : Segment := ofValue v.toUInt16 8

namespace Pseudo
open Segment (byte)

/-- The instructions that a pseudo-instruction stands for. -/
def expansion : Pseudo → List (Operation Segment)
  | jump (.number n) => goto (byte (n.residue 16 / 256)) (byte (n.residue 16 % 256))
  | jump (.label l) =>
    goto (.placeholder ⟨l.text, 15, 8, l.position⟩ 8) (.placeholder ⟨l.text, 7, 0, l.position⟩ 8)
  | jump (.other _) => []
  | mul a b => product (lit "tmul") a.index b.index
  | div a b => product (lit "tdiv") a.index b.index
  | load ac l offset => memory (lit "lwr") ac.index l (byte (offset.residue 8))
  | store ac l offset => memory (lit "swr") ac.index l (byte (offset.residue 8))
  | swap a b =>
    [⟨lit "xor", .r 1 a.index b.index⟩, ⟨lit "mfac", .e1 1 a.index⟩,
     ⟨lit "xor", .r 1 a.index b.index⟩, ⟨lit "mfac", .e1 1 b.index⟩,
     ⟨lit "xor", .r 1 a.index b.index⟩, ⟨lit "mfac", .e1 1 a.index⟩]
where
  goto (hi lo : Segment) : List (Operation Segment) :=
    [⟨lit "lui", .i 1 hi⟩, ⟨lit "ori", .i 1 lo⟩, ⟨lit "mfac", .e1 1 1⟩, ⟨lit "jr", .e2 1⟩]
  product (step : Text) (a b : Nat) : List (Operation Segment) :=
    [⟨lit "lli", .i 1 (byte 0)⟩, ⟨lit "lui", .i 1 (byte 0)⟩, ⟨lit "mth", .e3 1⟩, ⟨lit "mtl", .e3 1⟩,
     ⟨lit "mtac", .e1 1 a⟩, ⟨lit "mtl", .e3 1⟩, ⟨lit "lli", .i 1 (byte 0)⟩, ⟨lit "lui", .i 1 (byte 0)⟩] ++
      List.replicate 16 ⟨step, .e4 b⟩
  memory (access : Text) (d : Nat) (l : Lexeme) (offset : Segment) : List (Operation Segment) :=
    [⟨lit "lui", .i 1 (.placeholder ⟨l.text, 15, 8, l.position⟩ 8)⟩,
     ⟨lit "ori", .i 1 (.placeholder ⟨l.text, 7, 0, l.position⟩ 8)⟩,
     ⟨lit "addi", .i 1 offset⟩, ⟨lit "mfac", .e1 1 1⟩, ⟨access, .e1 d 1⟩]

end Pseudo

namespace Operation

/-- The table has the instruction with the format of its arguments. -/
def Known (table : InstructionTable) (o : Operation Segment) : Prop :=
  (table.find? o.mnemonic).bind Instruction.format = some o.arguments.format

/-- The error that blames the instruction. -/
def mismatch (table : InstructionTable) (position : Position) (o : Operation Segment) : EncodeError :=
  .tableMismatch position o.mnemonic o.arguments.format ((table.find? o.mnemonic).bind Instruction.format)

def primitive (o : Operation Segment) : Primitive := ⟨o.mnemonic, o.arguments.format, o.arguments.fields⟩

end Operation

namespace Arguments
open Encoding

/-- Every number has the width of its field. -/
def Sized : Arguments Segment → Prop
  | i _ imm => imm.WellFormed ∧ imm.width = 8
  | s _ _ imm => imm.WellFormed ∧ imm.width = 4
  | j imm => imm.WellFormed ∧ imm.width = 10
  | _ => True

theorem Sized.totalWidth {a : Arguments Segment} (h : a.Sized) : Segment.totalWidth a.fields = 10 := by
  cases a with
  | i ac imm | s ac rf imm | j imm => simp only [fields, Segment.totalWidth, h.2]; rfl
  | _ => rfl

theorem Sized.wellFormed {a : Arguments Segment} (h : a.Sized) : ∀ s ∈ a.fields, s.WellFormed := by
  have hvalue := Segment.wellFormed_ofValue
  cases a <;> simp_all [Sized, fields, accumulatorField, registerField, zeros]

theorem sized_literal (a : Arguments Nat) : a.literal.Sized := by
  cases a with
  | i ac imm | s ac rf imm | j imm => exact ⟨Segment.wellFormed_ofValue _ _, rfl⟩
  | _ => trivial

end Arguments

theorem Pseudo.sized_expansion (p : Pseudo) : ∀ o ∈ p.expansion, o.arguments.Sized := by
  have hbyte (v : Nat) : (Segment.byte v).WellFormed ∧ (Segment.byte v).width = 8 :=
    ⟨Segment.wellFormed_ofValue _ _, rfl⟩
  have hhi (l : Text) (q : Position) : (Segment.placeholder ⟨l, 15, 8, q⟩ 8).WellFormed := by
    simp [Segment.WellFormed]
  have hlo (l : Text) (q : Position) : (Segment.placeholder ⟨l, 7, 0, q⟩ 8).WellFormed := by
    simp [Segment.WellFormed]
  have hwidth (r : Ref) : (Segment.placeholder r 8).width = 8 := rfl
  cases p with
  | jump target =>
    cases target <;> simp [expansion, expansion.goto, Arguments.Sized, hbyte, hhi, hlo, hwidth]
  | mul a b | div a b => simp [expansion, expansion.product, Arguments.Sized, hbyte]
  | swap a b => simp [expansion, Arguments.Sized]
  | load ac label offset | store ac label offset =>
    simp [expansion, expansion.memory, Arguments.Sized, hbyte, hhi, hlo, hwidth]

namespace Encoding
variable {table : InstructionTable} {strict : Bool} {position : Position} {p : Pseudo} {o : Operation Segment}
  {cells : List Cell}

theorem registerOperands_gives {a b : Lexeme} {context : Text} :
    Gives (∀ o ∈ [.register a, .register b], Operand.Accepted strict o)
      (registerField a.index.toUInt16, registerField b.index.toUInt16) (registerOperands strict context a b) :=
  register_gives.cons (register_gives.cons (gives_nil rfl))

theorem addressBytes_eq (label : Lexeme) :
    addressBytes label = (.placeholder ⟨label.text, 15, 8, label.position⟩ 8,
      .placeholder ⟨label.text, 7, 0, label.position⟩ 8) := by
  have hhi : (15 - 8 + 1 : UInt8) = 8 := by decide
  have hlo : (7 - 0 + 1 : UInt8) = 8 := by decide
  simp only [addressBytes, Segment.ofRef, Ref.width, hhi, hlo]

theorem memoryAccess_gives {ac label offset : Lexeme} {context access : Text} :
    Gives (∀ o ∈ [.accumulator ac, .number 8 offset], Operand.Accepted strict o)
      ((Pseudo.expansion.memory access ac.index label (.byte (offset.residue 8))).map Operation.primitive)
      (memoryAccess context access ac label offset) := by
  unfold memoryAccess
  rw [addressBytes_eq]
  exact accumulator_gives.cons ((number_gives (by decide) (by decide)).cons (gives_nil rfl))

theorem ofValue_eq_byte (v : UInt16) : Segment.ofValue v 8 = .byte (v.toNat % 256) := by
  have hlow : Bits.low v 8 = Bits.low (v.toNat % 256).toUInt16 8 := by
    refine UInt16.toNat_inj.mp ?_
    rw [Bits.toNat_low, Bits.toNat_low, Nat.toUInt16_eq, UInt16.toNat_ofNat']
    show v.toNat % 256 = v.toNat % 256 % 65536 % 256
    omega
  rw [Segment.byte, Segment.ofValue, Segment.ofValue, hlow]

theorem shiftDown_eq (v : UInt16) : Bits.shiftDown v 8 = (v.toNat / 256).toUInt16 := rfl

/-- A pseudo-instruction is lowered exactly if its operands are accepted, and then to its expansion. -/
theorem lower_gives (hp : p.Formed) :
    Gives (∀ o ∈ p.operands, o.Accepted strict) (p.expansion.map Operation.primitive)
      (lower strict position p) := by
  cases p with
  | jump target =>
    cases target with
    | number n =>
      refine Gives.cons (number_gives (by decide) (by decide)) (gives_nil ?_)
      rw [ofValue_eq_byte (n.residue 16).toUInt16, shiftDown_eq, Lexeme.toNat_residue (by decide)]
      rfl
    | label name =>
      refine gives_nil ?_
      simp only [lower, addressBytes_eq]
      rfl
    | other part => exact hp.elim
  | mul a b | div a b | swap a b => exact registerOperands_gives.map rfl
  | load ac label offset | store ac label offset => exact memoryAccess_gives

theorem primitive_eq_ok (hs : o.arguments.Sized) :
    primitive table position o.primitive = .ok cells ↔ o.Lays table position cells := by
  have hwidth (v : UInt16) : (Packer.ofList (.ofValue v 6 :: o.primitive.fields)).width = instructionBits := by
    show 6 + Segment.totalWidth o.arguments.fields = 16
    rw [hs.totalWidth]
  unfold primitive Operation.Lays
  simp only [except_bind_eq_ok, opcodeField_eq_ok]
  constructor
  · rintro ⟨_, ⟨row, hrow, hf, rfl⟩, h⟩
    rw [if_pos (hwidth _)] at h
    exact ⟨row, hrow, hf, h⟩
  · rintro ⟨row, hrow, hf, h⟩
    refine ⟨_, ⟨row, hrow, hf, rfl⟩, ?_⟩
    rwa [if_pos (hwidth _)]

theorem primitive_of_not_known (h : ¬ o.Known table) :
    primitive table position o.primitive = .error (.error (o.mismatch table position)) := by
  have hopcode : opcodeField table position o.mnemonic o.arguments.format = fail (o.mismatch table position) := by
    unfold opcodeField Operation.mismatch
    cases hrow : table.find? o.mnemonic with
    | none => rfl
    | some row =>
      have hf : row.format ≠ some o.arguments.format := fun hf => h (by rw [Operation.Known, hrow]; exact hf)
      exact if_neg hf
  unfold primitive
  show opcodeField table position o.mnemonic o.arguments.format >>= _ = _
  rw [hopcode]
  rfl

/-- The opcode and an accumulator fill the first cell, and so a byte has the second one to itself. -/
theorem pack_immediate {opcode ac imm : Segment} (ho : opcode.width = 6) (ha : ac.width = 2) (hi : imm.width = 8)
    (position : Position) :
    pack position [opcode, ac, imm] =
      .ok [{ segments := [opcode, ac], position }, { segments := [imm], position }] := by
  have htotal : (Packer.ofList [opcode, ac, imm]).width % cellBits = 0 := by
    simp only [Packer.ofList, Segment.totalWidth, ho, ha, hi]
    decide
  refine pack_eq_ok.mpr ?_
  rw [Packer.cells, if_pos htotal, Packer.ofList]
  rw [Packer.cut, if_neg (by simp [ho]), dif_pos (by simp [ho, cellBits])]
  rw [Packer.cut, if_neg (by simp [ha]), dif_neg (by simp [ho, ha, cellBits]), if_pos (by simp [ho, ha, cellBits])]
  rw [Packer.cut, if_neg (by simp [hi]), dif_neg (by simp [hi, cellBits]), if_pos (by simp [hi, cellBits])]
  rw [Packer.cut]
  rfl

theorem pack_sized {a : Arguments Segment} (hs : a.Sized) (opcode : UInt16) (position : Position) :
    ∃ cells, pack position (.ofValue opcode 6 :: a.fields) = .ok cells ∧ cells.length = 2 ∧
      ∀ c ∈ cells, c.position = position := by
  have htotal : Segment.totalWidth (.ofValue opcode 6 :: a.fields) = 16 := by
    show 6 + Segment.totalWidth a.fields = 16
    rw [hs.totalWidth]
  obtain ⟨cells, hcells, hpacked⟩ := Packer.packed_cells
    (List.forall_mem_cons.mpr ⟨Segment.wellFormed_ofValue opcode 6, hs.wellFormed⟩) (by rw [htotal]; rfl) position
  have hlength := hpacked.length_mul
  rw [htotal] at hlength
  simp only [cellBits] at hlength
  exact ⟨cells, pack_eq_ok.mpr hcells, by omega, fun c hc => (hpacked.plain c hc).2⟩

/-- What the cells of an operation look like. -/
structure Shaped (position : Position) (o : Operation Segment) (cells : List Cell) : Prop where
  length : cells.length = 2
  position : ∀ c ∈ cells, c.position = position
  /-- A byte, be it a number or a placeholder, has a cell to itself. -/
  immediate : ∀ ac imm, o.arguments = .i ac imm →
    ∃ first second, cells = [first, second] ∧ first.isResolved ∧ second.segments = [imm]

theorem shaped_of_lays (hs : o.arguments.Sized) (h : o.Lays table position cells) : Shaped position o cells := by
  obtain ⟨row, -, -, hpack⟩ := h
  obtain ⟨cells', hcells, hlength, hposition⟩ := pack_sized hs row.opcode.toUInt16 position
  obtain rfl : cells' = cells := Except.ok.inj (hcells.symm.trans hpack)
  refine ⟨hlength, hposition, ?_⟩
  intro ac imm ha
  rw [ha] at hs hpack
  obtain rfl := Except.ok.inj ((pack_immediate rfl rfl hs.2 position).symm.trans hpack)
  exact ⟨_, _, rfl, rfl, rfl⟩

theorem exists_lays (hs : o.arguments.Sized) (hk : o.Known table) (position : Position) :
    ∃ cells, o.Lays table position cells := by
  obtain ⟨row, hrow, hf⟩ := Option.bind_eq_some_iff.mp hk
  obtain ⟨cells, hcells, -⟩ := pack_sized hs row.opcode.toUInt16 position
  exact ⟨cells, row, hrow, hf, hcells⟩

theorem pseudo_eq (hp : p.Formed) (ha : ∀ o ∈ p.operands, o.Accepted strict) :
    pseudo table strict position p =
      (p.expansion.mapM fun o => primitive table position o.primitive) >>= fun pieces => .ok pieces.flatten := by
  unfold pseudo
  rw [(lower_gives hp).eq_ok ha]
  show (p.expansion.map Operation.primitive).mapM (primitive table position) >>= _ = _
  rw [List.mapM_map]
  rfl

/-- A pseudo-instruction with accepted operands has the cells of its expansion, two for each instruction, which
are laid out as if they were written. Of the instructions that the table lacks the first one is blamed. -/
theorem pseudo_expands (hp : p.Formed) (ha : ∀ o ∈ p.operands, o.Accepted strict) (table : InstructionTable)
    (position : Position) :
    (∀ mnemonic operands cells, (∀ o ∈ operands.list, o.Accepted strict) →
      (instruction table strict position mnemonic operands = .ok cells ↔
        Operation.Lays table position ⟨mnemonic, operands.values.literal⟩ cells)) ∧
    ((∀ o ∈ p.expansion, o.Known table) → ∃ pieces, pseudo table strict position p = .ok pieces.flatten ∧
      List.Forall₂ (fun o cells => o.Lays table position cells ∧ Shaped position o cells) p.expansion pieces) ∧
    ∀ before o after, p.expansion = before ++ o :: after → (∀ b ∈ before, b.Known table) → ¬ o.Known table →
      pseudo table strict position p = .error (.error (.tableMismatch position o.mnemonic o.arguments.format
        ((table.find? o.mnemonic).bind Instruction.format))) := by
  have hcells (o : Operation Segment) (ho : o ∈ p.expansion) (hk : o.Known table) :
      ∃ cells, primitive table position o.primitive = .ok cells ∧
        o.Lays table position cells ∧ Shaped position o cells := by
    have hs := p.sized_expansion o ho
    obtain ⟨cells, hlays⟩ := exists_lays hs hk position
    exact ⟨cells, (primitive_eq_ok hs).mpr hlays, hlays, shaped_of_lays hs hlays⟩
  refine ⟨?_, ?_, ?_⟩
  · intro mnemonic operands cells haccepted
    rw [instruction_eq_ok]
    exact and_iff_right haccepted
  · intro hknown
    obtain ⟨pieces, hpieces⟩ := exists_forall₂ fun o ho => hcells o ho (hknown o ho)
    refine ⟨pieces, ?_, ?_⟩
    · rw [pseudo_eq hp ha, except_mapM_eq_ok.mpr (hpieces.imp fun _ _ h => h.1)]
      rfl
    · exact hpieces.imp fun _ _ h => h.2
  · intro before o after he hbefore ho
    have hprefix : ∀ b ∈ before, ∃ cells, primitive table position b.primitive = .ok cells := by
      intro b hb
      obtain ⟨cells, h, -⟩ := hcells b (by rw [he]; exact List.mem_append_left _ hb) (hbefore b hb)
      exact ⟨cells, h⟩
    rw [pseudo_eq hp ha, he, except_mapM_eq_error hprefix (primitive_of_not_known ho)]
    rfl

/-- A load from a label, with the built-in table and with an empty one. -/
theorem pseudo_expands_load :
    let p : Pseudo := .load ⟨{}, lit "&2"⟩ ⟨{}, lit "_l"⟩ ⟨{}, lit "-3"⟩
    p.Formed ∧ (∀ o ∈ p.operands, o.Accepted true) ∧ (∀ o ∈ p.expansion, o.Known .builtin) ∧
      (∃ pieces : List (List Cell), pseudo .builtin true {} p = .ok pieces.flatten ∧ pieces.length = 5) ∧
      pseudo .empty true {} p = .error (.error (.tableMismatch {} (lit "lui") .i none)) := by
  intro p
  have hp : p.Formed := trivial
  have hlower : (lower true {} p).toOption.isSome := by decide +kernel
  obtain ⟨sequence, hsequence⟩ := Option.isSome_iff_exists.mp hlower
  have ha := ((lower_gives hp sequence).mp (except_toOption_eq_some.mp hsequence)).1
  have hknown : ∀ o ∈ p.expansion, o.Known .builtin := by
    unfold Operation.Known
    decide +kernel
  obtain ⟨-, hpieces, -⟩ := pseudo_expands hp ha .builtin {}
  obtain ⟨-, -, hmissing⟩ := pseudo_expands hp ha .empty {}
  obtain ⟨pieces, hcells, hall⟩ := hpieces hknown
  have hlacks : ¬ Operation.Known .empty ⟨lit "lui", .i 1 (.placeholder ⟨lit "_l", 15, 8, {}⟩ 8)⟩ := by
    unfold Operation.Known
    decide +kernel
  exact ⟨hp, ha, hknown, ⟨pieces, hcells, hall.length_eq.symm⟩, hmissing [] _ _ rfl (by simp) hlacks⟩

end Encoding
end AccAsm
