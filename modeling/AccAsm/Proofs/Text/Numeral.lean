import AccAsm.Proofs.Token.Spelling
import AccAsm.Proofs.Traversal

/-! # The value of numerals

`Numeral.value` is the number that an optional sign and decimal digits stand for. Reading a numeral
as the scanner spells it gives this value, or finds it out of range (`readInt64_eq`); it is never
malformed. -/

namespace AccAsm
namespace Numeral
open Text (byte isDigit)

/-- The number whose decimal digits are those of `n` and then those of `ds`. -/
def extend (n : Nat) (ds : Text) : Nat := ds.foldl (fun n b => n * 10 + (b - byte '0').toNat) n

/-- The number that decimal digits stand for. -/
def magnitude (ds : Text) : Nat := extend 0 ds

/-- The number that an optional sign and decimal digits stand for. -/
def value : Text → Int
  | [] => 0
  | b :: ds =>
    if b = byte '-' then -magnitude ds
    else if b = byte '+' then magnitude ds
    else magnitude (b :: ds)

theorem extend_cons (n : Nat) (b : UInt8) (ds : Text) :
    extend n (b :: ds) = extend (n * 10 + (b - byte '0').toNat) ds := rfl

theorem le_extend (n : Nat) (ds : Text) : n ≤ extend n ds := by
  induction ds generalizing n with
  | nil => exact Nat.le_refl n
  | cons b ds ih =>
    have := ih (n * 10 + (b - byte '0').toNat)
    rw [extend_cons]
    omega

theorem digitValue?_of_isDigit (b : UInt8) :
    isDigit b → digitValue? b = some (b - byte '0').toNat ∧ (b - byte '0').toNat < 10 := by
  revert b
  exact Text.forall_byte (by decide +kernel)

theorem readDigits_eq {limit n : Nat} {ds : Text} (hd : ∀ b ∈ ds, isDigit b) (hn : n ≤ limit) :
    readDigits 10 limit n ds =
      if extend n ds ≤ limit then .ok (extend n ds) else .error .outOfRange := by
  induction ds generalizing n with
  | nil => rw [readDigits, extend, List.foldl_nil, if_pos hn]
  | cons b ds ih =>
    obtain ⟨hb, hd⟩ := List.forall_mem_cons.mp hd
    obtain ⟨hval, hlt⟩ := digitValue?_of_isDigit b hb
    have hle := le_extend (n * 10 + (b - byte '0').toNat) ds
    simp only [readDigits, hval]
    rw [if_neg (by omega), extend_cons]
    by_cases hl : limit < n * 10 + (b - byte '0').toNat
    · rw [if_pos hl, if_neg (by omega)]
    · rw [if_neg hl, ih hd (by omega)]

theorem readUnsigned_eq {limit : Nat} {ds : Text} (hd : Text.IsDecimal ds) :
    readUnsigned 10 limit ds =
      if magnitude ds ≤ limit then .ok (magnitude ds) else .error .outOfRange := by
  rw [readUnsigned, if_neg (by simpa using hd.1), readDigits_eq hd.2 (Nat.zero_le _), magnitude]

theorem splitSign_of_isDecimal {ds : Text} (hd : Text.IsDecimal ds) :
    splitSign ds = (false, ds) ∧ value ds = magnitude ds := by
  have : ∀ b : UInt8, isDigit b → b ≠ byte '-' ∧ b ≠ byte '+' := Text.forall_byte (by decide +kernel)
  cases ds with
  | nil => exact absurd rfl hd.1
  | cons b ds =>
    obtain ⟨hm, hp⟩ := this b (hd.2 b (.head _))
    simp [splitSign, value, hm, hp]

/-- A numeral that the scanner spells is read as its value, unless that takes more than 64 bits. -/
theorem readInt64_eq {t : Text} (h : Kind.number.Spells t) :
    readInt64 t =
      if -maxMagnitude ≤ value t ∧ value t < maxMagnitude then .ok (value t)
      else .error .outOfRange := by
  obtain ⟨sign, ds, rfl, hs, hd⟩ := h
  obtain ⟨negative, hsplit, hval⟩ : ∃ negative, splitSign (sign ++ ds) = (negative, ds) ∧
      value (sign ++ ds) = if negative then -(magnitude ds : Int) else magnitude ds := by
    simp only [List.mem_cons, List.not_mem_nil, or_false] at hs
    rcases hs with rfl | rfl | rfl
    · exact ⟨false, splitSign_of_isDecimal hd⟩
    · exact ⟨false, rfl, rfl⟩
    · exact ⟨true, rfl, rfl⟩
  have hmax : maxMagnitude ≤ maxUnsigned := by decide
  simp only [readInt64, hsplit, hval, readUnsigned_eq hd]
  by_cases hu : magnitude ds ≤ maxUnsigned
  · rw [if_pos hu]
    show ofMagnitude negative (magnitude ds) = _
    unfold ofMagnitude
    cases negative
    · simp only [Bool.false_eq_true, if_false]
      by_cases hm : magnitude ds < maxMagnitude
      · rw [if_pos hm, if_pos (by omega)]
      · rw [if_neg hm, if_neg (by omega)]
    · simp only [if_true]
      by_cases hm : magnitude ds ≤ maxMagnitude
      · rw [if_pos hm, if_pos (by simp only [maxMagnitude] at *; omega)]
      · rw [if_neg hm, if_neg (by omega)]
  · rw [if_neg hu, if_neg (by cases negative <;> simp <;> omega)]
    rfl

/-! ### Numerals that can be read -/

theorem isDigit_of_readDigits {limit n m : Nat} {ds : Text} (h : readDigits 10 limit n ds = .ok m) :
    ∀ b ∈ ds, isDigit b := by
  have hdigit : ∀ b : UInt8, ∀ d ∈ digitValue? b, d < 10 → isDigit b := Text.forall_byte (by decide +kernel)
  induction ds generalizing n with
  | nil => simp
  | cons b ds ih =>
    rw [readDigits] at h
    split at h
    next => cases h
    next d hd =>
      split at h
      next => cases h
      next hlt =>
        split at h
        next => cases h
        next => exact List.forall_mem_cons.mpr ⟨hdigit b d hd (Nat.lt_of_not_le hlt), ih h⟩

theorem isDecimal_of_readUnsigned {limit n : Nat} {ds : Text} (h : readUnsigned 10 limit ds = .ok n) :
    Text.IsDecimal ds := by
  unfold readUnsigned at h
  split at h
  next => cases h
  next hne => exact ⟨by simpa using hne, isDigit_of_readDigits h⟩

theorem exists_sign (t : Text) :
    ∃ sign ∈ [[], [byte '+'], [byte '-']], t = sign ++ (splitSign t).2 := by
  cases t with
  | nil => exact ⟨[], by simp, rfl⟩
  | cons b t =>
    by_cases hm : b = byte '-'
    · exact ⟨[byte '-'], by simp, by rw [hm]; rfl⟩
    · by_cases hp : b = byte '+'
      · exact ⟨[byte '+'], by simp, by rw [hp]; rfl⟩
      · exact ⟨[], by simp, by simp [splitSign, hm, hp]⟩

/-- Only what the scanner may spell can be read. -/
theorem spells_of_readInt64 {t : Text} {v : Int} (h : readInt64 t = .ok v) : Kind.number.Spells t := by
  obtain ⟨n, hn, -⟩ := except_bind_eq_ok.mp h
  obtain ⟨sign, hs, ht⟩ := exists_sign t
  exact ⟨sign, _, ht, hs, isDecimal_of_readUnsigned hn⟩

end Numeral
end AccAsm
