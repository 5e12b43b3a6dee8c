import AccAsm.Proofs.Text.Ascii
import AccAsm.Text.Quoted
import Mathlib.Tactic.Ring

/-! # Numbers by their digits

`Numeral.valueIn? base t` is the number that the digits of `t` stand for in a base up to sixteen. A number
is written with digits of its value, however wide (`valueIn?_writePadded`), and both readers of digits give
the value of what they read: the one that stops at a limit (`readUnsigned_eq_ok`) and the one that takes a
fixed number of digits (`fixedDigits?_append`). -/

namespace AccAsm
namespace Numeral
open Text (byte lit)

/-- The value of a digit below `base`; letters count in either case. -/
def digitIn? (base : Nat) (b : UInt8) : Option Nat :=
  ((lit "0123456789abcdef").take base).idxOf? (Text.lowerByte b)

/-- The number whose digits are those of `n` and then those of `t`. -/
def extendIn? (base n : Nat) (t : Text) : Option Nat :=
  t.foldlM (fun n b => (digitIn? base b).map (n * base + ·)) n

/-- The number that one or more digits stand for, the most significant one coming first. -/
def valueIn? (base : Nat) (t : Text) : Option Nat := if t = [] then none else extendIn? base 0 t

variable {base n v : Nat} {t : Text}

/-! ### Digits -/

theorem digitIn?_eq_some (h₁₆ : base ≤ 16) {b : UInt8} {d : Nat} :
    digitIn? base b = some d ↔ digitValue? b = some d ∧ d < base := by
  have hall : ∀ b : UInt8, (lit "0123456789abcdef").idxOf? (Text.lowerByte b) = (digitValue? b).filter (· < 16) :=
    Text.forall_byte (by decide +kernel)
  have htake : digitIn? base b = ((digitValue? b).filter (· < 16)).bind (Option.guard (· < base)) := by
    rw [← hall]
    exact List.findIdx?_take
  rw [htake, Option.bind_eq_some_iff]
  simp only [Option.filter_eq_some_iff, Option.guard_eq_some_iff, decide_eq_true_eq]
  constructor
  · rintro ⟨d, ⟨hd, -⟩, rfl, hlt⟩
    exact ⟨hd, hlt⟩
  · rintro ⟨hd, hlt⟩
    exact ⟨d, ⟨hd, by omega⟩, rfl, hlt⟩

theorem digitIn?_digitByte (h₁₆ : base ≤ 16) {d : Nat} (hd : d < base) :
    digitIn? base (digitByte d) = some d := by
  have hvalue : ∀ d < 16, digitValue? (digitByte d) = some d := by decide +kernel
  exact (digitIn?_eq_some h₁₆).mpr ⟨hvalue d (by omega), hd⟩

theorem extendIn?_cons (b : UInt8) (t : Text) :
    extendIn? base n (b :: t) = (digitIn? base b).bind fun d => extendIn? base (n * base + d) t := by
  rw [extendIn?, List.foldlM_cons]
  cases digitIn? base b <;> rfl

theorem extendIn?_append (t u : Text) :
    extendIn? base n (t ++ u) = (extendIn? base n t).bind (extendIn? base · u) :=
  List.foldlM_append

theorem valueIn?_eq_some : valueIn? base t = some v ↔ t ≠ [] ∧ extendIn? base 0 t = some v := by
  rw [valueIn?, Option.ite_none_left_eq_some]

theorem isSome_of_extendIn? (h : extendIn? base n t = some v) : ∀ b ∈ t, (digitIn? base b).isSome := by
  induction t generalizing n with
  | nil => simp
  | cons b t ih =>
    rw [extendIn?_cons] at h
    obtain ⟨d, hd, h⟩ := Option.bind_eq_some_iff.mp h
    exact List.forall_mem_cons.mpr ⟨by rw [hd]; rfl, ih h⟩

/-- More digits make no smaller number. -/
theorem le_of_extendIn? (h₁ : 1 ≤ base) (h : extendIn? base n t = some v) : n ≤ v := by
  induction t generalizing n with
  | nil =>
    cases h
    exact Nat.le_refl v
  | cons b t ih =>
    rw [extendIn?_cons] at h
    obtain ⟨d, -, h⟩ := Option.bind_eq_some_iff.mp h
    have := ih h
    have := Nat.le_mul_of_pos_right n h₁
    omega

/-! ### Writing -/

theorem digits_ne_nil (base n : Nat) : digits base n ≠ [] := by
  rw [digits]
  split
  · exact List.cons_ne_nil _ _
  · exact List.append_ne_nil_of_right_ne_nil _ (List.cons_ne_nil _ _)

theorem extendIn?_write (h₂ : 2 ≤ base) (h₁₆ : base ≤ 16) (n : Nat) :
    extendIn? base 0 (write base n) = some n := by
  unfold write
  fun_induction digits base n with
  | case1 n h =>
    have hn : n < base := by omega
    rw [List.map_singleton, extendIn?_cons, digitIn?_digitByte h₁₆ hn, Nat.zero_mul]
    exact congrArg some (Nat.zero_add n)
  | case2 n _ ih =>
    have hlast : n % base < base := Nat.mod_lt n (by omega)
    rw [List.map_append, extendIn?_append, ih, Option.bind_some, List.map_singleton, extendIn?_cons,
      digitIn?_digitByte h₁₆ hlast]
    exact congrArg some (Nat.div_add_mod' n base)

/-- Zeros in front change nothing. -/
theorem extendIn?_zeros (h₁ : 1 ≤ base) (h₁₆ : base ≤ 16) (k : Nat) (t : Text) :
    extendIn? base 0 (List.replicate k (byte '0') ++ t) = extendIn? base 0 t := by
  have hzero : digitIn? base (byte '0') = some 0 := digitIn?_digitByte h₁₆ h₁
  induction k with
  | zero => rfl
  | succ k ih =>
    rw [List.replicate_succ, List.cons_append, extendIn?_cons, hzero, Option.bind_some, Nat.zero_mul]
    exact ih

/-- A number is written with the digits of its value. -/
theorem valueIn?_writePadded (h₂ : 2 ≤ base) (h₁₆ : base ≤ 16) (width n : Nat) :
    valueIn? base (writePadded base width n) = some n := by
  refine valueIn?_eq_some.mpr ⟨?_, ?_⟩
  · refine List.append_ne_nil_of_right_ne_nil _ ?_
    rw [write, ne_eq, List.map_eq_nil_iff]
    exact digits_ne_nil base n
  · rw [writePadded, zeroPadded, extendIn?_zeros (by omega) h₁₆, extendIn?_write h₂ h₁₆]

theorem length_digits_le {width : Nat} (hw : 1 ≤ width) (hn : n < base ^ width) :
    (digits base n).length ≤ width := by
  fun_induction digits base n generalizing width with
  | case1 => exact hw
  | case2 n h ih =>
    have hw : 1 < width := by
      refine lt_of_le_of_ne hw fun he => h (.inl ?_)
      rwa [← he, pow_one] at hn
    obtain ⟨w, rfl⟩ := Nat.exists_eq_add_of_lt hw
    have hdiv : n / base < base ^ (1 + w) := by
      rw [Nat.div_lt_iff_lt_mul (by omega), ← pow_succ]
      exact hn
    have := ih (by omega) hdiv
    rw [List.length_append, List.length_singleton]
    omega

/-- A number below `base ^ width` takes exactly `width` digits. -/
theorem length_writePadded {width : Nat} (hw : 1 ≤ width) (hn : n < base ^ width) :
    (writePadded base width n).length = width := by
  have hle : (write base n).length ≤ width := by
    rw [write, List.length_map]
    exact length_digits_le hw hn
  rw [writePadded, zeroPadded, List.length_append, List.length_replicate]
  omega

/-! ### Reading -/

theorem readDigits_eq_ok {limit : Nat} (h₁ : 1 ≤ base) (h₁₆ : base ≤ 16) (hn : n ≤ limit) :
    readDigits base limit n t = .ok v ↔ extendIn? base n t = some v ∧ v ≤ limit := by
  induction t generalizing n with
  | nil =>
    constructor
    · rintro ⟨⟩
      exact ⟨rfl, hn⟩
    · rintro ⟨⟨⟩, -⟩
      rfl
  | cons b t ih =>
    rw [extendIn?_cons, Option.bind_eq_some_iff, readDigits]
    constructor
    · intro h
      split at h
      next => cases h
      next d hd =>
        split at h
        next => cases h
        next hlt =>
          split at h
          next => cases h
          next hle =>
            obtain ⟨hext, hv⟩ := (ih (Nat.le_of_not_lt hle)).mp h
            exact ⟨⟨d, (digitIn?_eq_some h₁₆).mpr ⟨hd, Nat.lt_of_not_le hlt⟩, hext⟩, hv⟩
    · rintro ⟨⟨d, hd, hext⟩, hv⟩
      obtain ⟨hvalue, hlt⟩ := (digitIn?_eq_some h₁₆).mp hd
      have hle := le_of_extendIn? h₁ hext
      simp only [hvalue]
      rw [if_neg (by omega), if_neg (by omega)]
      exact (ih (by omega)).mpr ⟨hext, hv⟩

/-- Reading under a limit accepts exactly the numerals whose value is within it. -/
theorem readUnsigned_eq_ok {limit : Nat} (h₁ : 1 ≤ base) (h₁₆ : base ≤ 16) :
    readUnsigned base limit t = .ok v ↔ valueIn? base t = some v ∧ v ≤ limit := by
  unfold readUnsigned
  split
  next he => simp [valueIn?, List.isEmpty_iff.mp he]
  next hne =>
    have hne : t ≠ [] := List.isEmpty_iff.not.mp hne
    rw [readDigits_eq_ok h₁ h₁₆ (Nat.zero_le limit), valueIn?, if_neg hne]

/-- Reading as many digits as there are gives their value and leaves what follows. -/
theorem fixedDigits?_append (h₁₆ : base ≤ 16) (h : extendIn? base n t = some v) (rest : Text) :
    Quoted.fixedDigits? base t.length n (t ++ rest) = some (v, rest) := by
  induction t generalizing n with
  | nil =>
    cases h
    rfl
  | cons b t ih =>
    rw [extendIn?_cons] at h
    obtain ⟨d, hd, h⟩ := Option.bind_eq_some_iff.mp h
    obtain ⟨hvalue, hlt⟩ := (digitIn?_eq_some h₁₆).mp hd
    rw [List.length_cons, List.cons_append, Quoted.fixedDigits?]
    simp only [hvalue, if_pos hlt]
    exact ih h

end Numeral
end AccAsm
