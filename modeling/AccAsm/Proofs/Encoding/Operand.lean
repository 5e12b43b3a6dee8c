import AccAsm.Encoding.Operand
import AccAsm.Proofs.Bits
import AccAsm.Proofs.Cell.BitString
import AccAsm.Proofs.Failure
import AccAsm.Proofs.OneShot
import AccAsm.Proofs.Program.Source

/-! # Encoding of operands

Operands as the scanner spells them have the values that `Operands.low?` gives them, or are refused
for their value; they are never malformed. The fields of an instruction form, one after the other, the
ten bits after its opcode (`fields_meets`). -/

namespace AccAsm

/-- An operand has a value that the machine has no room or no use for. -/
def EncodeError.IsOperand : EncodeError → Prop
  | reservedRegister .. | registerOutOfRange .. | numberOutOfBounds .. => True
  | _ => False

namespace Segment

/-- One after the other, the segments form the number `v` in `w` bits. -/
structure Forms (address : Text → Nat) (ss : List Segment) (w v : Nat) : Prop where
  lt : v < 2 ^ w
  wellFormed : ∀ s ∈ ss, s.WellFormed
  bits : ss.flatMap (bits address) = Bits.list w v

variable {address : Text → Nat} {ss tt : List Segment} {m n x y : Nat}

theorem Forms.append (hs : Forms address ss m x) (ht : Forms address tt n y) :
    Forms address (ss ++ tt) (m + n) (x * 2 ^ n + y) where
  lt := by
    have hx : (x + 1) * 2 ^ n ≤ 2 ^ m * 2 ^ n := Nat.mul_le_mul_right _ hs.lt
    have hy := ht.lt
    rw [Nat.add_mul, Nat.one_mul] at hx
    rw [Nat.pow_add]
    omega
  wellFormed := List.forall_mem_append.mpr ⟨hs.wellFormed, ht.wellFormed⟩
  bits := by rw [List.flatMap_append, hs.bits, ht.bits, Bits.list_mul_add m x ht.lt]

theorem forms_ofValue_mod (v : UInt16) (w : UInt8) :
    Forms address [ofValue v w] w.toNat (v.toNat % 2 ^ w.toNat) where
  lt := Nat.mod_lt _ (Nat.two_pow_pos _)
  wellFormed s hs := List.mem_singleton.mp hs ▸ wellFormed_ofValue v w
  bits := by rw [List.flatMap_singleton, bits_ofValue, Bits.list_mod (Nat.le_refl _)]

theorem forms_ofValue {v : UInt16} {w : UInt8} (h : v.toNat < 2 ^ w.toNat) :
    Forms address [ofValue v w] w.toNat v.toNat := by
  have hform : Forms address [ofValue v w] w.toNat (v.toNat % 2 ^ w.toNat) := forms_ofValue_mod v w
  rwa [Nat.mod_eq_of_lt h] at hform

theorem Forms.totalWidth (h : Forms address ss m x) : totalWidth ss = m := by
  rw [← length_flatMap_bits address, h.bits, Bits.length_list]

end Segment

namespace Lexeme

/-- The number of a register, which stands after its sigil. -/
def index (l : Lexeme) : Nat := Numeral.magnitude l.text.tail

theorem field?_lt {l : Lexeme} {w v : Nat} (h : l.field? w = some v) : v < 2 ^ w := by
  unfold field? at h
  split at h
  · cases h
    exact Bits.residue_lt _ w
  · cases h

theorem register?_le {l : Lexeme} {limit i : Nat} (h : l.register? limit = some i) : i ≤ limit := by
  unfold register? at h
  split at h
  next hle => cases h; exact hle
  · cases h

end Lexeme

namespace Encoding
open Failure (Meets meets_ok meets_error)

/-! ### Values -/

/-- A numeral is read by its value, however many digits it has. -/
theorem number_eq {n : Lexeme} (hs : Kind.number.Spells n.text) (width : Nat) (context : Text) :
    number n width context =
      if 1 ≤ width ∧ width ≤ 16 ∧ (Numeral.value n.text).natAbs < 2 ^ width then
        .ok (Numeral.value n.text % (2 ^ width : Nat)).toNat.toUInt16
      else fail (.numberOutOfBounds n.position context width n.text) := by
  unfold number
  rw [Numeral.readInt64_eq hs]
  by_cases hr : -(Numeral.maxMagnitude : Int) ≤ Numeral.value n.text ∧
      Numeral.value n.text < Numeral.maxMagnitude
  · rw [if_pos hr]
    simp only [Bits.fit?_eq hr.1 hr.2]
    by_cases hf : 1 ≤ width ∧ width ≤ 16 ∧ (Numeral.value n.text).natAbs < 2 ^ width
    · rw [if_pos hf, if_pos hf]
    · rw [if_neg hf, if_neg hf]
  · -- what takes more than 64 bits has no room in a field either
    have hf : ¬ (1 ≤ width ∧ width ≤ 16 ∧ (Numeral.value n.text).natAbs < 2 ^ width) := by
      rintro ⟨-, h₁₆, hlt⟩
      have hpow : 2 ^ width ≤ 2 ^ 16 := Nat.pow_le_pow_right (by decide) h₁₆
      simp only [Numeral.maxMagnitude] at hr
      omega
    rw [if_neg hr, if_neg hf]

theorem number_meets {n : Lexeme} (hs : Kind.number.Spells n.text) {width : Nat} (h₁ : 1 ≤ width)
    (h₁₆ : width ≤ 16) (context : Text) :
    Meets EncodeError.IsOperand (fun r => n.field? width = some r.toNat) (number n width context) := by
  rw [number_eq hs]
  by_cases hf : (Numeral.value n.text).natAbs < 2 ^ width
  · rw [if_pos ⟨h₁, h₁₆, hf⟩]
    refine meets_ok ?_
    rw [Bits.toNat_toUInt16 h₁₆ (Bits.residue_lt _ width)]
    exact if_pos hf
  · rw [if_neg fun h => hf h.2.2]
    exact meets_error trivial

/-- A register is read by its number, however many digits that has. -/
theorem registerIndex_eq {reg : Lexeme} {sigil : UInt8} {ds : Text} (ht : reg.text = sigil :: ds)
    (hd : Text.IsDecimal ds) {limit : Nat} (hl : limit ≤ 255) {context : Text} :
    registerIndex reg limit context =
      if reg.index ≤ limit then .ok reg.index
      else fail (.registerOutOfRange reg.position context reg.text limit) := by
  have hi : reg.index = Numeral.magnitude ds := by rw [Lexeme.index, ht, List.tail_cons]
  unfold registerIndex
  simp only [ht, Numeral.readUnsigned_eq hd, hi]
  by_cases hu : Numeral.magnitude ds ≤ 255
  · simp only [if_pos hu]
    by_cases hm : Numeral.magnitude ds ≤ limit
    · rw [if_pos hm, if_neg (by omega)]
    · rw [if_neg hm, if_pos (by omega)]
  · rw [if_neg hu, if_neg (by omega)]

theorem registerIndex_meets {reg : Lexeme} {sigil : UInt8} {ds : Text} (ht : reg.text = sigil :: ds)
    (hd : Text.IsDecimal ds) {limit : Nat} (hl : limit ≤ 255) (context : Text) :
    Meets EncodeError.IsOperand (fun i => reg.register? limit = some i)
      (registerIndex reg limit context) := by
  rw [registerIndex_eq ht hd hl]
  by_cases hm : reg.index ≤ limit
  · rw [if_pos hm]
    exact meets_ok (if_pos hm)
  · rw [if_neg hm]
    exact meets_error trivial

theorem toNat_index {limit i : Nat} {reg : Lexeme} (hl : limit ≤ 255)
    (h : reg.register? limit = some i) : i.toUInt16.toNat = i := by
  have := Lexeme.register?_le h
  rw [Nat.toUInt16_eq, UInt16.toNat_ofNat', Nat.mod_eq_of_lt (by omega)]

theorem accumulator_meets {reg : Lexeme} (hs : Kind.accumulator.Spells reg.text) (context : Text) :
    Meets EncodeError.IsOperand (fun r => reg.register? 3 = some r.toNat) (accumulator reg context) := by
  obtain ⟨ds, ht, hd⟩ := hs
  refine (registerIndex_meets ht hd (by decide) context).bind fun i hi => ?_
  split
  · exact meets_error trivial
  · exact meets_ok (by rw [toNat_index (by decide) hi, hi])

theorem register_meets {reg : Lexeme} (hs : Kind.register.Spells reg.text) (strict : Bool)
    (context : Text) :
    Meets EncodeError.IsOperand (fun r => reg.register? 15 = some r.toNat)
      (register strict reg context) := by
  obtain ⟨ds, ht, hd⟩ := hs
  refine (registerIndex_meets ht hd (by decide) context).bind fun i hi => ?_
  have hok : reg.register? 15 = some i.toUInt16.toNat := by rw [toNat_index (by decide) hi, hi]
  split
  · split
    · exact meets_error trivial
    · exact meets_ok hok
  · exact meets_ok hok

/-! ### Fields -/

section Fields
variable {address : Text → Nat}

theorem forms_zeros (w : UInt8) : Segment.Forms address [zeros w] w.toNat 0 :=
  Segment.forms_ofValue (v := 0) (Nat.two_pow_pos _)

theorem forms_accumulator {reg : Lexeme} {r : UInt16} (h : reg.register? 3 = some r.toNat) :
    Segment.Forms address [accumulatorField r] 2 r.toNat :=
  Segment.forms_ofValue (w := accumulatorBits) (Nat.lt_succ_of_le (Lexeme.register?_le h))

theorem forms_register {reg : Lexeme} {r : UInt16} (h : reg.register? 15 = some r.toNat) :
    Segment.Forms address [registerField r] 4 r.toNat :=
  Segment.forms_ofValue (w := registerBits) (Nat.lt_succ_of_le (Lexeme.register?_le h))

theorem forms_number {n : Lexeme} {r : UInt16} {w : UInt8} (h : n.field? w.toNat = some r.toNat) :
    Segment.Forms address [.ofValue r w] w.toNat r.toNat :=
  Segment.forms_ofValue (Lexeme.field?_lt h)

end Fields

theorem fields_meets {operands : Operands} (hs : ∀ t ∈ operands.tokens, t.Legible) (strict : Bool)
    (mnemonic : Text) :
    Meets EncodeError.IsOperand
      (fun ss => ∃ low, operands.low? = some low ∧ ∀ address, Segment.Forms address ss 10 low)
      (fields strict mnemonic operands) := by
  cases operands with simp only [Operands.tokens, Lexeme.pair, Lexeme.mixed, List.cons_append,
    List.nil_append, List.forall_mem_cons] at hs
  | n => exact meets_ok ⟨0, rfl, fun _ => forms_zeros 10⟩
  | r ac rf₁ rf₂ =>
    obtain ⟨hac, -, hrf₁, -, hrf₂, -⟩ := hs
    refine (accumulator_meets (hac rfl rfl) mnemonic).bind fun a ha => ?_
    refine (register_meets (hrf₁ rfl rfl) strict mnemonic).bind fun b hb => ?_
    refine (register_meets (hrf₂ rfl rfl) strict mnemonic).bind fun c hc => ?_
    refine meets_ok ⟨_, by rw [Operands.low?, ha, hb, hc]; rfl, fun _ => ?_⟩
    exact ((forms_accumulator ha).append (forms_register hb)).append (forms_register hc)
  | i ac imm =>
    obtain ⟨hac, -, himm, -⟩ := hs
    refine (accumulator_meets (hac rfl rfl) mnemonic).bind fun a ha => ?_
    refine (number_meets (himm rfl rfl) (by decide) (by decide) mnemonic).bind fun b hb => ?_
    refine meets_ok ⟨_, by rw [Operands.low?, ha, hb]; rfl, fun _ => ?_⟩
    exact (forms_accumulator ha).append (forms_number (w := 8) hb)
  | s ac rf imm =>
    obtain ⟨hac, -, hrf, -, himm, -⟩ := hs
    refine (accumulator_meets (hac rfl rfl) mnemonic).bind fun a ha => ?_
    refine (register_meets (hrf rfl rfl) strict mnemonic).bind fun b hb => ?_
    refine (number_meets (himm rfl rfl) (by decide) (by decide) mnemonic).bind fun c hc => ?_
    refine meets_ok ⟨_, by rw [Operands.low?, ha, hb, hc]; rfl, fun _ => ?_⟩
    exact ((forms_accumulator ha).append (forms_register hb)).append (forms_number (w := 4) hc)
  | j imm =>
    refine (number_meets (hs.1 rfl rfl) (by decide) (by decide) mnemonic).bind fun a ha => ?_
    exact meets_ok ⟨_, ha, fun _ => forms_number (w := 10) ha⟩
  | e1 ac rf =>
    obtain ⟨hac, -, hrf, -⟩ := hs
    refine (accumulator_meets (hac rfl rfl) mnemonic).bind fun a ha => ?_
    refine (register_meets (hrf rfl rfl) strict mnemonic).bind fun b hb => ?_
    refine meets_ok ⟨_, by rw [Operands.low?, ha, hb]; rfl, fun _ => ?_⟩
    simpa using ((forms_accumulator ha).append (forms_register hb)).append (forms_zeros 4)
  | e2 rf =>
    refine (register_meets (hs.1 rfl rfl) strict mnemonic).bind fun a ha => ?_
    refine meets_ok ⟨_, by rw [Operands.low?, ha]; rfl, fun _ => ?_⟩
    simpa using ((forms_zeros 2).append (forms_register ha)).append (forms_zeros 4)
  | e3 ac =>
    refine (accumulator_meets (hs.1 rfl rfl) mnemonic).bind fun a ha => ?_
    refine meets_ok ⟨_, by rw [Operands.low?, ha]; rfl, fun _ => ?_⟩
    simpa using (forms_accumulator ha).append (forms_zeros 8)
  | e4 rf =>
    refine (register_meets (hs.1 rfl rfl) strict mnemonic).bind fun a ha => ?_
    refine meets_ok ⟨_, ha, fun _ => ?_⟩
    simpa using (forms_zeros 6).append (forms_register ha)

end Encoding
end AccAsm
