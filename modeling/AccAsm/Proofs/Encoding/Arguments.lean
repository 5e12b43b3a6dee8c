import AccAsm.Proofs.Encoding.Flaw
import AccAsm.Proofs.Encoding.Item

/-! # Operands by value

An operand is read exactly if it is legible and fits (`Operand.Accepted`), wherever it comes from. An
instruction with such operands is laid out by their values alone (`Encoding.instruction_eq_ok`): its fields
are those of its `Arguments`, which are also what lowered sequences consist of. `Operation.Lays` says what
cells an instruction with given arguments has. The fields of arguments in range form the ten bits after
the opcode (`Arguments.forms_fields`). -/

namespace AccAsm

namespace Lexeme

/-- A sigil, whichever it is, and digits. -/
def IsRegister (l : Lexeme) : Prop := ∃ sigil ds, l.text = sigil :: ds ∧ Text.IsDecimal ds

/-- The number modulo `2 ^ width`. -/
def residue (l : Lexeme) (width : Nat) : Nat := (Numeral.value l.text % (2 ^ width : Nat)).toNat

theorem residue_lt (l : Lexeme) (width : Nat) : l.residue width < 2 ^ width :=
  Bits.residue_lt (Numeral.value l.text) width

theorem toNat_residue {l : Lexeme} {width : Nat} (h : width ≤ 16) :
    (l.residue width).toUInt16.toNat = l.residue width :=
  Bits.toNat_toUInt16 h (l.residue_lt width)

end Lexeme

namespace Operand

/-- The operand is spelled as one of its kind. -/
def Legible : Operand → Prop
  | accumulator reg | register reg => reg.IsRegister
  | number _ n | count n => Kind.number.Spells n.text
  | character .. => True

structure Accepted (strict : Bool) (o : Operand) : Prop where
  legible : o.Legible
  fits : o.Fits strict

end Operand

namespace Encoding
variable {α β γ : Type} {P : Prop} {a : α} {b : β} {x : Encoding α} {f : α → Encoding β}

/-- `x` has a result exactly if `P`, and then `a`. -/
def Gives (P : Prop) (a : α) (x : Encoding α) : Prop := ∀ r, x = .ok r ↔ P ∧ r = a

theorem Gives.eq_ok (hx : Gives P a x) (hp : P) : x = .ok a := (hx a).mpr ⟨hp, rfl⟩

theorem gives_nil {R : γ → Prop} (h : x = .ok a) : Gives (∀ c ∈ [], R c) a x := by
  intro r
  simp [h, eq_comm]

theorem Gives.map (hx : Gives P a x) (hf : f a = .ok b) : Gives P b (x >>= f) := by
  intro r
  rw [except_bind_eq_ok]
  constructor
  · rintro ⟨a', ha, hr⟩
    obtain ⟨hp, rfl⟩ := (hx a').mp ha
    exact ⟨hp, Except.ok.inj (hr.symm.trans hf)⟩
  · rintro ⟨hp, rfl⟩
    exact ⟨a, hx.eq_ok hp, hf⟩

theorem Gives.cons {R : γ → Prop} {c : γ} {rest : List γ} (hx : Gives (R c) a x)
    (hf : Gives (∀ d ∈ rest, R d) b (f a)) : Gives (∀ d ∈ c :: rest, R d) b (x >>= f) := by
  intro r
  rw [except_bind_eq_ok, List.forall_mem_cons]
  constructor
  · rintro ⟨a', ha, hr⟩
    obtain ⟨hc, rfl⟩ := (hx a').mp ha
    obtain ⟨hrest, rfl⟩ := (hf r).mp hr
    exact ⟨⟨hc, hrest⟩, rfl⟩
  · rintro ⟨⟨hc, hrest⟩, rfl⟩
    exact ⟨a, hx.eq_ok hc, hf.eq_ok hrest⟩

/-! ### Reading operands -/

section Reading
variable {strict : Bool} {context : Text}

theorem registerIndex_gives {reg : Lexeme} {limit : Nat} (hl : limit ≤ 255) :
    Gives (reg.IsRegister ∧ reg.index ≤ limit) reg.index (registerIndex reg limit context) := by
  intro i
  constructor
  · intro h
    have hreg : reg.IsRegister := by
      unfold registerIndex at h
      split at h
      next => cases h
      next sigil digits ht =>
        dsimp only at h
        split at h
        next => cases h
        next hread => exact ⟨sigil, digits, ht, Numeral.isDecimal_of_readUnsigned hread⟩
    obtain ⟨sigil, ds, ht, hd⟩ := hreg
    rw [registerIndex_eq ht hd hl] at h
    split at h
    next hle =>
      cases h
      exact ⟨⟨⟨sigil, ds, ht, hd⟩, hle⟩, rfl⟩
    next => cases h
  · rintro ⟨⟨⟨sigil, ds, ht, hd⟩, hle⟩, rfl⟩
    rw [registerIndex_eq ht hd hl, if_pos hle]

theorem accumulator_gives {reg : Lexeme} :
    Gives ((Operand.accumulator reg).Accepted strict) reg.index.toUInt16 (accumulator reg context) := by
  have hfits : (Operand.accumulator reg).Fits strict ↔ reg.index ≤ 3 ∧ reg.index ≠ 1 := by
    simp only [Operand.Fits, List.mem_cons, List.not_mem_nil, or_false]
    omega
  intro r
  unfold accumulator
  rw [except_bind_eq_ok]
  constructor
  · rintro ⟨i, hi, h⟩
    obtain ⟨⟨hreg, hle⟩, rfl⟩ := (registerIndex_gives (by decide) i).mp hi
    split at h
    next => cases h
    next hne =>
      cases h
      exact ⟨⟨hreg, hfits.mpr ⟨hle, hne⟩⟩, rfl⟩
  · rintro ⟨⟨hreg, hfit⟩, rfl⟩
    obtain ⟨hle, hne⟩ := hfits.mp hfit
    exact ⟨reg.index, (registerIndex_gives (by decide)).eq_ok ⟨hreg, hle⟩, if_neg hne⟩

theorem register_gives {reg : Lexeme} :
    Gives ((Operand.register reg).Accepted strict) reg.index.toUInt16 (register strict reg context) := by
  intro r
  unfold register
  rw [except_bind_eq_ok]
  constructor
  · rintro ⟨i, hi, h⟩
    obtain ⟨⟨hreg, hle⟩, rfl⟩ := (registerIndex_gives (by decide) i).mp hi
    cases hrole : fixedRole? reg.index with
    | none =>
      rw [hrole] at h
      cases h
      exact ⟨⟨hreg, hle, fun _ => fixedRole?_eq_none.mp hrole⟩, rfl⟩
    | some role =>
      rw [hrole] at h
      cases strict with
      | true => cases h
      | false =>
        cases h
        exact ⟨⟨hreg, hle, by simp⟩, rfl⟩
  · rintro ⟨⟨hreg, hle, hfree⟩, rfl⟩
    refine ⟨reg.index, (registerIndex_gives (by decide)).eq_ok ⟨hreg, hle⟩, ?_⟩
    cases strict with
    | true =>
      rw [fixedRole?_eq_none.mpr (hfree rfl)]
      rfl
    | false => cases fixedRole? reg.index <;> rfl

theorem number_gives {n : Lexeme} {width : Nat} (h₁ : 1 ≤ width) (h₁₆ : width ≤ 16) :
    Gives ((Operand.number width n).Accepted strict) (n.residue width).toUInt16 (number n width context) := by
  have hvalue {r : UInt16} (hs : Kind.number.Spells n.text) (h : number n width context = .ok r) :
      (Operand.number width n).Fits strict ∧ r = (n.residue width).toUInt16 := by
    have hfield := (number_meets hs h₁ h₁₆ context).ok r h
    unfold Lexeme.field? at hfield
    split at hfield
    next hfit =>
      refine ⟨hfit, UInt16.toNat_inj.mp ?_⟩
      rw [Lexeme.toNat_residue h₁₆]
      exact (Option.some.inj hfield).symm
    next => cases hfield
  intro r
  constructor
  · intro h
    have hs : Kind.number.Spells n.text := by
      unfold number at h
      split at h
      next => cases h
      next => cases h
      next hread => exact Numeral.spells_of_readInt64 hread
    obtain ⟨hfit, hr⟩ := hvalue hs h
    exact ⟨⟨hs, hfit⟩, hr⟩
  · rintro ⟨⟨hs, hfit⟩, rfl⟩
    have hjudged : Judged ((Operand.number width n).flaw? strict context) (number n width context) :=
      number_judged hs h₁ h₁₆
    rw [Operand.flaw?, if_pos hfit] at hjudged
    obtain ⟨r, hr⟩ := hjudged
    rw [hr, (hvalue hs hr).2]

end Reading
end Encoding

/-! ### Arguments -/

/-- The operands of an instruction by value. -/
inductive Arguments (ι : Type) where
  | n
  | r (ac rf₁ rf₂ : Nat)
  | i (ac : Nat) (imm : ι)
  | s (ac rf : Nat) (imm : ι)
  | j (imm : ι)
  | e1 (ac rf : Nat)
  | e2 (rf : Nat)
  | e3 (ac : Nat)
  | e4 (rf : Nat)
deriving DecidableEq

/-- The values of operands, numbers modulo what their fields have room for. -/
def Operands.values : Operands → Arguments Nat
  | n => .n
  | r ac rf₁ rf₂ => .r ac.index rf₁.index rf₂.index
  | i ac imm => .i ac.index (imm.residue 8)
  | s ac rf imm => .s ac.index rf.index (imm.residue 4)
  | j imm => .j (imm.residue 10)
  | e1 ac rf => .e1 ac.index rf.index
  | e2 rf => .e2 rf.index
  | e3 ac => .e3 ac.index
  | e4 rf => .e4 rf.index

namespace Arguments
open Encoding

def format {ι : Type} : Arguments ι → Format
  | n => .n
  | r .. => .r
  | i .. => .i
  | s .. => .s
  | j .. => .j
  | e1 .. => .e1
  | e2 .. => .e2
  | e3 .. => .e3
  | e4 .. => .e4

/-- Numbers as segments of the width that their fields have. -/
def literal : Arguments Nat → Arguments Segment
  | n => .n
  | r ac rf₁ rf₂ => .r ac rf₁ rf₂
  | i ac imm => .i ac (.ofValue imm.toUInt16 8)
  | s ac rf imm => .s ac rf (.ofValue imm.toUInt16 4)
  | j imm => .j (.ofValue imm.toUInt16 10)
  | e1 ac rf => .e1 ac rf
  | e2 rf => .e2 rf
  | e3 ac => .e3 ac
  | e4 rf => .e4 rf

/-- The fields that follow the opcode. -/
def fields : Arguments Segment → List Segment
  | n => [zeros 10]
  | r ac rf₁ rf₂ => [accumulatorField ac.toUInt16, registerField rf₁.toUInt16, registerField rf₂.toUInt16]
  | i ac imm => [accumulatorField ac.toUInt16, imm]
  | s ac rf imm => [accumulatorField ac.toUInt16, registerField rf.toUInt16, imm]
  | j imm => [imm]
  | e1 ac rf => [accumulatorField ac.toUInt16, registerField rf.toUInt16, zeros 4]
  | e2 rf => [zeros 2, registerField rf.toUInt16, zeros 4]
  | e3 ac => [accumulatorField ac.toUInt16, zeros 8]
  | e4 rf => [zeros 6, registerField rf.toUInt16]

/-- Every number has room in its field. -/
def InRange : Arguments Nat → Prop
  | n => True
  | r ac rf₁ rf₂ => ac < 4 ∧ rf₁ < 16 ∧ rf₂ < 16
  | i ac imm => ac < 4 ∧ imm < 256
  | s ac rf imm => ac < 4 ∧ rf < 16 ∧ imm < 16
  | j imm => imm < 1024
  | e1 ac rf => ac < 4 ∧ rf < 16
  | e2 rf => rf < 16
  | e3 ac => ac < 4
  | e4 rf => rf < 16

/-- The ten bits after the opcode. -/
def low : Arguments Nat → Nat
  | n => 0
  | r ac rf₁ rf₂ => (ac * 16 + rf₁) * 16 + rf₂
  | i ac imm => ac * 256 + imm
  | s ac rf imm => (ac * 16 + rf) * 16 + imm
  | j imm => imm
  | e1 ac rf => (ac * 16 + rf) * 16
  | e2 rf => rf * 16
  | e3 ac => ac * 256
  | e4 rf => rf

@[simp] theorem format_literal (a : Arguments Nat) : a.literal.format = a.format := by
  cases a <;> rfl

theorem forms_ofNat {address : Text → Nat} {n : Nat} {w : UInt8} (hw : w.toNat ≤ 16) (h : n < 2 ^ w.toNat) :
    Segment.Forms address [.ofValue n.toUInt16 w] w.toNat n := by
  have hn := Bits.toNat_toUInt16 hw h
  have hform : Segment.Forms address [.ofValue n.toUInt16 w] w.toNat n.toUInt16.toNat :=
    Segment.forms_ofValue (by rwa [hn])
  rwa [hn] at hform

theorem forms_fields {a : Arguments Nat} (h : a.InRange) (address : Text → Nat) :
    Segment.Forms address a.literal.fields 10 a.low := by
  have hac {n : Nat} (hn : n < 4) : Segment.Forms address [accumulatorField n.toUInt16] 2 n :=
    forms_ofNat (by decide) hn
  have hrf {n : Nat} (hn : n < 16) : Segment.Forms address [registerField n.toUInt16] 4 n :=
    forms_ofNat (by decide) hn
  cases a with
  | n => exact forms_zeros 10
  | r ac rf₁ rf₂ =>
    obtain ⟨h, h₁, h₂⟩ := h
    exact ((hac h).append (hrf h₁)).append (hrf h₂)
  | i ac imm =>
    obtain ⟨h, himm⟩ := h
    exact (hac h).append (forms_ofNat (w := 8) (by decide) himm)
  | s ac rf imm =>
    obtain ⟨h, h₁, himm⟩ := h
    exact ((hac h).append (hrf h₁)).append (forms_ofNat (w := 4) (by decide) himm)
  | j imm => exact forms_ofNat (w := 10) (by decide) h
  | e1 ac rf => simpa [literal, fields, low] using ((hac h.1).append (hrf h.2)).append (forms_zeros 4)
  | e2 rf => simpa [literal, fields, low] using ((forms_zeros 2).append (hrf h)).append (forms_zeros 4)
  | e3 ac => simpa [literal, fields, low] using (hac h).append (forms_zeros 8)
  | e4 rf => simpa [literal, fields, low] using (forms_zeros 6).append (hrf h)

/-- Numbers leave no placeholders. -/
theorem ref?_fields (a : Arguments Nat) : ∀ s ∈ a.literal.fields, s.ref?.isNone := by
  have hvalue (v : UInt16) (w : UInt8) : (Segment.ofValue v w).ref? = none := rfl
  cases a <;> simp [literal, fields, zeros, accumulatorField, registerField, hvalue]

end Arguments

namespace Operands
variable {operands : Operands} {strict : Bool}

@[simp] theorem format_values (o : Operands) : o.values.format = o.format := by
  cases o <;> rfl

theorem inRange_values (h : ∀ o ∈ operands.list, o.Accepted strict) : operands.values.InRange := by
  have hac {reg : Lexeme} (h : (Operand.accumulator reg).Accepted strict) : reg.index < 4 := by
    have hfits := h.fits
    simp only [Operand.Fits, List.mem_cons, List.not_mem_nil, or_false] at hfits
    omega
  have hrf {reg : Lexeme} (h : (Operand.register reg).Accepted strict) : reg.index < 16 :=
    Nat.lt_succ_of_le h.fits.1
  cases operands with simp only [list, List.forall_mem_cons] at h
  | n => trivial
  | r ac rf₁ rf₂ => exact ⟨hac h.1, hrf h.2.1, hrf h.2.2.1⟩
  | i ac imm => exact ⟨hac h.1, imm.residue_lt 8⟩
  | s ac rf imm => exact ⟨hac h.1, hrf h.2.1, imm.residue_lt 4⟩
  | j imm => exact imm.residue_lt 10
  | e1 ac rf => exact ⟨hac h.1, hrf h.2.1⟩
  | e2 rf => exact hrf h.1
  | e3 ac => exact hac h.1
  | e4 rf => exact hrf h.1

end Operands

/-- An instruction by the values of its operands. -/
structure Operation (ι : Type) where
  mnemonic : Text
  arguments : Arguments ι
deriving DecidableEq

/-- The cells are those of the instruction: the table has it with this format, and they are filled by its
opcode and the fields of its arguments. -/
def Operation.Lays (table : InstructionTable) (position : Position) (o : Operation Segment)
    (cells : List Cell) : Prop :=
  ∃ row, table.find? o.mnemonic = some row ∧ row.format = some o.arguments.format ∧
    Encoding.pack position (.ofValue row.opcode.toUInt16 6 :: o.arguments.fields) = .ok cells

namespace Encoding
variable {table : InstructionTable} {strict : Bool} {position : Position} {mnemonic : Text} {operands : Operands}

/-- Operands are laid out exactly if all of them are accepted, and then by their values. -/
theorem fields_gives :
    Gives (∀ o ∈ operands.list, o.Accepted strict) operands.values.literal.fields
      (fields strict mnemonic operands) := by
  cases operands with
  | n => exact gives_nil rfl
  | r ac rf₁ rf₂ => exact accumulator_gives.cons (register_gives.cons (register_gives.cons (gives_nil rfl)))
  | i ac imm => exact accumulator_gives.cons ((number_gives (by decide) (by decide)).cons (gives_nil rfl))
  | s ac rf imm =>
    exact accumulator_gives.cons (register_gives.cons ((number_gives (by decide) (by decide)).cons (gives_nil rfl)))
  | j imm => exact (number_gives (by decide) (by decide)).cons (gives_nil rfl)
  | e1 ac rf => exact accumulator_gives.cons (register_gives.cons (gives_nil rfl))
  | e2 rf => exact register_gives.cons (gives_nil rfl)
  | e3 ac => exact accumulator_gives.cons (gives_nil rfl)
  | e4 rf => exact register_gives.cons (gives_nil rfl)

theorem opcodeField_eq_ok {format : Format} {s : Segment} :
    opcodeField table position mnemonic format = .ok s ↔
      ∃ row, table.find? mnemonic = some row ∧ row.format = some format ∧ s = .ofValue row.opcode.toUInt16 6 := by
  unfold opcodeField
  cases table.find? mnemonic with
  | none => simp [fail]
  | some row =>
    by_cases hf : row.format = some format
    · simp only [if_pos hf]
      constructor
      · rintro ⟨⟩
        exact ⟨row, rfl, hf, rfl⟩
      · rintro ⟨_, ⟨⟩, -, rfl⟩
        rfl
    · simp only [if_neg hf]
      constructor
      · rintro ⟨⟩
      · rintro ⟨_, ⟨⟩, h, -⟩
        exact absurd h hf

/-- An instruction is encoded exactly if its operands are accepted, and then by their values. -/
theorem instruction_eq_ok {cells : List Cell} :
    instruction table strict position mnemonic operands = .ok cells ↔
      (∀ o ∈ operands.list, o.Accepted strict) ∧
        Operation.Lays table position ⟨mnemonic, operands.values.literal⟩ cells := by
  unfold instruction Operation.Lays
  simp only [except_bind_eq_ok, opcodeField_eq_ok, Arguments.format_literal, Operands.format_values]
  constructor
  · rintro ⟨s, ⟨row, hrow, hformat, rfl⟩, ss, hss, h⟩
    obtain ⟨hacc, rfl⟩ := (fields_gives ss).mp hss
    exact ⟨hacc, row, hrow, hformat, h⟩
  · rintro ⟨hacc, row, hrow, hformat, h⟩
    exact ⟨_, ⟨row, hrow, hformat, rfl⟩, _, fields_gives.eq_ok hacc, h⟩

end Encoding
end AccAsm
