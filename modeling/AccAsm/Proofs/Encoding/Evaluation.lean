import AccAsm.Proofs.Encoding.Arguments

/-! # The values of operands

Numbers and registers are read by value: signs, leading zeros and the number of digits do not matter
(`operands_by_value`). A number is stored as its residue if its magnitude is below the capacity of its field
and is out of bounds otherwise, also where it exceeds 64 bits. A register is out of range, reserved or read
as its number, one of the three; accumulators and general registers differ in which numbers these are. -/

namespace AccAsm
namespace Encoding
open Text (lit)

/-! ### Numbers -/

/-- Reading `n` for a field of `width` bits is reading the value `v`. -/
structure ReadsNumber (n : Lexeme) (v : Int) (width : Nat) (context : Text) : Prop where
  stored : v.natAbs < 2 ^ width → ∃ r, number n width context = .ok r ∧ Bits.Represents width v r
  refused : 2 ^ width ≤ v.natAbs →
    number n width context = fail (.numberOutOfBounds n.position context width n.text)

/-- A 64-bit value is stored in a field, or refused, as the number it is. -/
structure FitsByValue (value : Int64) (width : Nat) : Prop where
  stored : 1 ≤ width → width ≤ 16 → value.toInt.natAbs < 2 ^ width →
    ∃ r, Bits.fit64? value width = some r ∧ Bits.Represents width value.toInt r
  refused : 1 ≤ width → width ≤ 16 → 2 ^ width ≤ value.toInt.natAbs → Bits.fit64? value width = none
  noField : width = 0 ∨ 16 < width → Bits.fit64? value width = none

theorem readsNumber {n : Lexeme} (hs : Kind.number.Spells n.text) {width : Nat} (h₁ : 1 ≤ width)
    (h₁₆ : width ≤ 16) (context : Text) : ReadsNumber n (Numeral.value n.text) width context where
  stored hf := by
    rw [number_eq hs, if_pos ⟨h₁, h₁₆, hf⟩]
    exact ⟨_, rfl, Bits.represents_residue _ h₁₆⟩
  refused hf := by rw [number_eq hs, if_neg fun h => Nat.not_lt.mpr hf h.2.2]

theorem fitsByValue (value : Int64) (width : Nat) : FitsByValue value width where
  stored h₁ h₁₆ hf := by
    rw [Bits.fit64?_eq, if_pos ⟨h₁, h₁₆, hf⟩]
    exact ⟨_, rfl, Bits.represents_residue _ h₁₆⟩
  refused _ _ hf := by rw [Bits.fit64?_eq, if_neg fun h => Nat.not_lt.mpr hf h.2.2]
  noField hw := by rw [Bits.fit64?_eq, if_neg (by omega)]

/-! ### Registers -/

/-- Reading the accumulator `reg` is reading the number `v`. -/
structure ReadsAccumulator (reg : Lexeme) (v : Nat) (context : Text) : Prop where
  accepted : (∃ r, accumulator reg context = .ok r ∧ r.toNat = v) ↔ v = 0 ∨ v = 2 ∨ v = 3
  reserved : accumulator reg context =
    fail (.reservedRegister reg.position context reg.text (lit "reserved for the assembler")) ↔ v = 1
  outOfRange : accumulator reg context = fail (.registerOutOfRange reg.position context reg.text 3) ↔ 3 < v

/-- Reading the general register `reg` is reading the number `v`. -/
structure ReadsRegister (strict : Bool) (reg : Lexeme) (v : Nat) (context : Text) : Prop where
  accepted : (∃ r, register strict reg context = .ok r ∧ r.toNat = v) ↔
    v ≤ 15 ∧ (¬ strict ∨ 2 ≤ v ∧ v ≤ 13)
  reserved : (∃ role, fixedRole? v = some role ∧
      register strict reg context = fail (.reservedRegister reg.position context reg.text role)) ↔
    v ≤ 15 ∧ strict ∧ ¬ (2 ≤ v ∧ v ≤ 13)
  outOfRange : register strict reg context =
    fail (.registerOutOfRange reg.position context reg.text 15) ↔ 15 < v

/-- What becomes of a register operand: there are registers up to the number `limit`, and one with a role is
not for programs to use. -/
def classify (reg : Lexeme) (context : Text) (limit : Nat) (role? : Option Text) : Encoding UInt16 :=
  if limit < reg.index then fail (.registerOutOfRange reg.position context reg.text limit)
  else role?.elim (.ok reg.index.toUInt16) fun role =>
    fail (.reservedRegister reg.position context reg.text role)

section Registers
variable {reg : Lexeme} {context : Text} {limit : Nat} {role? : Option Text}

theorem exists_classify_eq_ok (hl : limit ≤ 255) :
    (∃ r, classify reg context limit role? = .ok r ∧ r.toNat = reg.index) ↔ reg.index ≤ limit ∧ role? = none := by
  unfold classify
  split
  next h => simp [fail, Nat.not_le.mpr h]
  next h =>
    cases role? with
    | none =>
      -- the number of a register that exists is the same in 16 bits
      have hindex : reg.index < 2 ^ 8 := by omega
      simp [Nat.not_lt.mp h, Bits.toNat_toUInt16 (by decide) hindex]
    | some role => simp [fail]

theorem classify_eq_reserved {role : Text} :
    classify reg context limit role? = fail (.reservedRegister reg.position context reg.text role) ↔
      reg.index ≤ limit ∧ role? = some role := by
  unfold classify
  split
  next h => simp [fail, Nat.not_le.mpr h]
  next h => cases role? <;> simp [fail, Nat.not_lt.mp h]

theorem classify_eq_outOfRange :
    classify reg context limit role? = fail (.registerOutOfRange reg.position context reg.text limit) ↔
      limit < reg.index := by
  unfold classify
  split
  next h => simp [h]
  next h => cases role? <;> simp [fail, Nat.not_lt.mp h]

/-- An accumulator has a role if lowered sequences use it. -/
theorem accumulator_eq (hreg : reg.IsRegister) (context : Text) :
    accumulator reg context =
      classify reg context 3 (if reg.index = 1 then some (lit "reserved for the assembler") else none) := by
  obtain ⟨sigil, ds, ht, hd⟩ := hreg
  unfold accumulator classify
  rw [registerIndex_eq ht hd (by decide)]
  by_cases hle : reg.index ≤ 3
  · have hbind (f : Nat → Encoding UInt16) : (Except.ok reg.index >>= f) = f reg.index := rfl
    rw [if_pos hle, if_neg (Nat.not_lt.mpr hle), hbind]
    by_cases hr : reg.index = 1
    · rw [if_pos hr]
      exact if_pos hr
    · rw [if_neg hr]
      exact if_neg hr
  · rw [if_neg hle, if_pos (Nat.lt_of_not_le hle)]
    rfl

/-- The roles of general registers count in strict programs only. -/
theorem register_eq (hreg : reg.IsRegister) (strict : Bool) (context : Text) :
    register strict reg context = classify reg context 15 (if strict then fixedRole? reg.index else none) := by
  obtain ⟨sigil, ds, ht, hd⟩ := hreg
  unfold register classify
  rw [registerIndex_eq ht hd (by decide)]
  by_cases hle : reg.index ≤ 15
  · have hbind (f : Nat → Encoding UInt16) : (Except.ok reg.index >>= f) = f reg.index := rfl
    rw [if_pos hle, if_neg (Nat.not_lt.mpr hle), hbind]
    cases strict <;> cases fixedRole? reg.index <;> rfl
  · rw [if_neg hle, if_pos (Nat.lt_of_not_le hle)]
    rfl

theorem readsAccumulator (hreg : reg.IsRegister) (context : Text) :
    ReadsAccumulator reg reg.index context := by
  have heq := accumulator_eq hreg context
  constructor
  · rw [heq, exists_classify_eq_ok (by decide), ite_eq_right_iff]
    simp only [reduceCtorEq, imp_false]
    omega
  · rw [heq, classify_eq_reserved, Option.ite_none_right_eq_some]
    simp only [and_true]
    omega
  · rw [heq, classify_eq_outOfRange]

theorem fixedRole?_eq_none_iff_of_le {v : Nat} (h : v ≤ 15) : fixedRole? v = none ↔ 2 ≤ v ∧ v ≤ 13 := by
  rw [fixedRole?_eq_none]
  simp only [List.mem_cons, List.not_mem_nil, or_false]
  omega

theorem readsRegister (hreg : reg.IsRegister) (strict : Bool) (context : Text) :
    ReadsRegister strict reg reg.index context := by
  have heq := register_eq hreg strict context
  constructor
  · -- of the registers up to 15 those without a role are the ones from 2 to 13
    rw [heq, exists_classify_eq_ok (by decide)]
    refine and_congr_right fun hle => ?_
    rw [← fixedRole?_eq_none_iff_of_le hle]
    cases strict <;> simp
  · simp only [heq, classify_eq_reserved, Option.ite_none_right_eq_some]
    constructor
    · rintro ⟨role, hrole, hle, hstrict, -⟩
      rw [← fixedRole?_eq_none_iff_of_le hle, hrole]
      exact ⟨hle, hstrict, Option.some_ne_none role⟩
    · rintro ⟨hle, hstrict, hfixed⟩
      rw [← fixedRole?_eq_none_iff_of_le hle] at hfixed
      obtain ⟨role, hrole⟩ := Option.ne_none_iff_exists'.mp hfixed
      exact ⟨role, hrole, hle, hstrict, hrole⟩
  · rw [heq, classify_eq_outOfRange]

end Registers

/-- Operands are read by value, whatever their length or spelling: numbers for every field, 64-bit values for
fields of any width, and registers of both kinds. -/
theorem operands_by_value :
    (∀ (n : Lexeme) (width : Nat) (context : Text), Kind.number.Spells n.text → 1 ≤ width → width ≤ 16 →
      ReadsNumber n (Numeral.value n.text) width context) ∧
    (∀ (value : Int64) (width : Nat), FitsByValue value width) ∧
    (∀ (reg : Lexeme) (context : Text), reg.IsRegister → ReadsAccumulator reg reg.index context) ∧
    (∀ (strict : Bool) (reg : Lexeme) (context : Text), reg.IsRegister →
      ReadsRegister strict reg reg.index context) :=
  ⟨fun _ _ context hs h₁ h₁₆ => readsNumber hs h₁ h₁₆ context, fitsByValue,
    fun _ context hreg => readsAccumulator hreg context,
    fun strict _ context hreg => readsRegister hreg strict context⟩

/-- At the limits: a negative number with many zeros, a number beyond 64 bits, the least 64-bit value, an
accumulator with many zeros, and two general registers in a strict program. -/
theorem operands_by_value_extremes :
    let negative : Lexeme := ⟨{}, lit "-00000000000000000000000000015"⟩
    let large : Lexeme := ⟨{}, lit "18446744073709551617"⟩
    let two : Lexeme := ⟨{}, lit "&00000000000000000000000000002"⟩
    let fourteen : Lexeme := ⟨{}, lit "$14"⟩
    let huge : Lexeme := ⟨{}, lit "$18446744073709551621"⟩
    number negative 4 [] = .ok 1 ∧
      number large 16 [] = fail (.numberOutOfBounds {} [] 16 large.text) ∧
      Bits.fit64? Int64.minValue 16 = none ∧
      accumulator two [] = .ok 2 ∧
      register true fourteen [] = fail (.reservedRegister {} [] fourteen.text (lit "stack pointer")) ∧
      register true huge [] = fail (.registerOutOfRange {} [] huge.text 15) := by
  intro negative large two fourteen huge
  obtain ⟨hnumber, hfit, haccumulator, hregister⟩ := operands_by_value
  have hdecimal {ds : Text} (h : ds ≠ [] ∧ ds.all Text.isDigit) : Text.IsDecimal ds :=
    ⟨h.1, List.all_eq_true.mp h.2⟩
  have hnegative : Kind.number.Spells negative.text :=
    ⟨[Text.byte '-'], negative.text.tail, by decide +kernel, by decide, hdecimal (by decide +kernel)⟩
  have hlarge : Kind.number.Spells large.text := ⟨[], large.text, rfl, by decide, hdecimal (by decide +kernel)⟩
  have htwo : two.IsRegister := ⟨Text.byte '&', two.text.tail, by decide +kernel, hdecimal (by decide +kernel)⟩
  have hfourteen : fourteen.IsRegister :=
    ⟨Text.byte '$', fourteen.text.tail, by decide +kernel, hdecimal (by decide +kernel)⟩
  have hhuge : huge.IsRegister :=
    ⟨Text.byte '$', huge.text.tail, by decide +kernel, hdecimal (by decide +kernel)⟩
  refine ⟨?_, ?_, ?_, ?_, ?_, ?_⟩
  · obtain ⟨r, hr, hrep⟩ := (hnumber negative 4 [] hnegative (by decide) (by decide)).stored (by decide +kernel)
    have hone : (1 : UInt16).toNat = r.toNat := (hrep 1).mp (by decide +kernel)
    rw [hr, UInt16.toNat_inj.mp hone]
  · exact (hnumber large 16 [] hlarge (by decide) (by decide)).refused (by decide +kernel)
  · exact (hfit Int64.minValue 16).refused (by decide) (by decide) (by decide +kernel)
  · obtain ⟨r, hr, hindex⟩ := (haccumulator two [] htwo).accepted.mpr (by decide +kernel)
    have hvalue : r.toNat = (2 : UInt16).toNat := hindex.trans (by decide +kernel)
    rw [hr, UInt16.toNat_inj.mp hvalue]
  · obtain ⟨role, hrole, hr⟩ := (hregister true fourteen [] hfourteen).reserved.mpr (by decide +kernel)
    have hpointer : fixedRole? fourteen.index = some (lit "stack pointer") := by decide +kernel
    rw [hr, Option.some.inj (hrole.symm.trans hpointer)]
  · exact (hregister true huge [] hhuge).outOfRange.mpr (by decide +kernel)

end Encoding
end AccAsm
