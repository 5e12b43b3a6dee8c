import AccAsm.Proofs.Text.Ascii
import AccAsm.Token.Scan

/-! # String literals

The scanner finds the closing quote of a literal without reading its characters: it only knows that a
backslash takes the next byte along. Unquoting reads them one by one. Where unquoting comes to the end
of a literal, the scanner finds it too, whatever stands behind it (`stringSize?_append`): a character
beyond ASCII holds no quote and no backslash, and behind an escape only digits are skipped. -/

namespace AccAsm
open Text (newline doubleQuote backslash)

namespace Utf8
variable {b c : UInt8} {t : Text}

theorem le_of_tail? {v : Nat} (h : tail? b = some v) : 0x80 ≤ b ∧ v < 64 := by
  unfold tail? at h
  split at h
  next hb =>
    cases h
    rw [Bool.and_eq_true, decide_eq_true_eq] at hb
    exact ⟨hb.1, Nat.mod_lt _ (by decide)⟩
  next => cases h

theorem utf8Size_scalar? {least n : Nat} {c : Char} (h : scalar? least n = some c) :
    (n < 0x800 → c.utf8Size ≤ 2) ∧ (n < 0x10000 → c.utf8Size ≤ 3) := by
  obtain ⟨hn, hc⟩ := Option.dite_none_right_eq_some.mp h
  have hval : c.val.toNat = n := by rw [← Option.some.inj hc]; rfl
  have h₂ : (0x7ff : UInt32).toNat = 0x7ff := rfl
  have h₃ : (0xffff : UInt32).toNat = 0xffff := rfl
  have hthree : c.utf8Size = 3 → 0x7ff < n := by
    intro hs
    have := UInt32.lt_iff_toNat_lt.mp (Char.utf8Size_eq_three_iff.mp hs).1
    omega
  have hfour : c.utf8Size = 4 → 0xffff < n := by
    intro hs
    have := UInt32.lt_iff_toNat_lt.mp (Char.utf8Size_eq_four_iff.mp hs)
    omega
  have := c.utf8Size_eq
  omega

/-- A character beyond ASCII is read from its first byte and tail bytes behind it. -/
theorem exists_tails_of_head? {char : Char} (hb : ¬ b < 0x80) (h : head? (b :: t) = some char) :
    ∃ tails rest, t = tails ++ rest ∧ (∀ c ∈ tails, ∃ v, tail? c = some v) ∧
      char.utf8Size ≤ tails.length + 1 := by
  simp only [head?] at h
  rw [if_neg hb] at h
  split at h
  next => cases h
  split at h
  next =>
    split at h
    next b₁ rest =>
      obtain ⟨v₁, h₁, h⟩ := Option.bind_eq_some_iff.mp h
      have := le_of_tail? h₁
      have hsize := (utf8Size_scalar? h).1 (by omega)
      exact ⟨[b₁], rest, rfl, by simp [h₁], hsize⟩
    next => cases h
  split at h
  next =>
    split at h
    next b₁ b₂ rest =>
      obtain ⟨v₁, h₁, h⟩ := Option.bind_eq_some_iff.mp h
      obtain ⟨v₂, h₂, h⟩ := Option.bind_eq_some_iff.mp h
      have := le_of_tail? h₁
      have := le_of_tail? h₂
      have hsize := (utf8Size_scalar? h).2 (by omega)
      exact ⟨[b₁, b₂], rest, rfl, by simp [h₁, h₂], hsize⟩
    next => cases h
  split at h
  next =>
    split at h
    next b₁ b₂ b₃ rest =>
      obtain ⟨v₁, h₁, h⟩ := Option.bind_eq_some_iff.mp h
      obtain ⟨v₂, h₂, h⟩ := Option.bind_eq_some_iff.mp h
      obtain ⟨v₃, h₃, -⟩ := Option.bind_eq_some_iff.mp h
      exact ⟨[b₁, b₂, b₃], rest, rfl, by simp [h₁, h₂, h₃], char.utf8Size_le_four⟩
    next => cases h
  cases h

/-- Behind the first byte of a character stand no ASCII bytes. -/
theorem le_of_mem_take (h : c ∈ t.take (headSize (b :: t) - 1)) : 0x80 ≤ c := by
  by_cases hb : b < 0x80
  · rw [headSize_cons hb] at h
    simp at h
  cases hc : head? (b :: t) with
  | none => simp [headSize, hc] at h
  | some char =>
    obtain ⟨tails, rest, rfl, htails, hsize⟩ := exists_tails_of_head? hb hc
    have hhead : headSize (b :: (tails ++ rest)) = char.utf8Size := by rw [headSize, hc]
    rw [hhead, List.take_append_of_le_length (by omega)] at h
    obtain ⟨v, hv⟩ := htails c (List.mem_of_mem_take h)
    exact (le_of_tail? hv).1

end Utf8

namespace Quoted

/-- A byte that stands for nothing else in a literal. -/
def IsPlain (b : UInt8) : Prop := b ≠ newline ∧ b ≠ doubleQuote ∧ b ≠ backslash

/-- The bytes of one character of a literal. -/
inductive Written : Text → Prop
  | raw {t : Text} (ht : ∀ b ∈ t, IsPlain b) : Written t
  | escape {e : UInt8} {t : Text} (he : e ≠ newline) (ht : ∀ b ∈ t, IsPlain b) :
      Written (backslash :: e :: t)

theorem isPlain_of_le (b : UInt8) : 0x80 ≤ b → IsPlain b := by
  unfold IsPlain
  revert b
  exact Text.forall_byte (by decide +kernel)

theorem isPlain_of_digitValue? (b : UInt8) : (Numeral.digitValue? b).isSome → IsPlain b := by
  unfold IsPlain
  revert b
  exact Text.forall_byte (by decide +kernel)

theorem exists_digits {base n v : Nat} {t : Text} {r : Nat × Text} (h : fixedDigits? base n v t = some r) :
    ∃ ds, t = ds ++ r.2 ∧ ∀ b ∈ ds, IsPlain b := by
  induction n generalizing v t with
  | zero =>
    cases h
    exact ⟨[], rfl, by simp⟩
  | succ n ih =>
    cases t with
    | nil => cases h
    | cons b t =>
      simp only [fixedDigits?] at h
      split at h
      next d hd =>
        split at h
        · obtain ⟨ds, rfl, hds⟩ := ih h
          have hb : IsPlain b := isPlain_of_digitValue? b (by rw [hd]; rfl)
          exact ⟨b :: ds, rfl, List.forall_mem_cons.mpr ⟨hb, hds⟩⟩
        · cases h
      next => cases h

theorem exists_written_escape {e : UInt8} {t : Text} {r : Text × Text}
    (h : readEscape? doubleQuote e t = some r) :
    ∃ ds, t = ds ++ r.2 ∧ Written (backslash :: e :: ds) := by
  have he : e ≠ newline := by
    rintro rfl
    cases h
  unfold readEscape? at h
  split at h
  · cases h
    exact ⟨[], rfl, .escape he (by simp)⟩
  · obtain ⟨escape, -, h⟩ := Option.bind_eq_some_iff.mp h
    obtain ⟨⟨n, rest⟩, hd, h⟩ := Option.bind_eq_some_iff.mp h
    obtain ⟨bytes, -, h⟩ := Option.bind_eq_some_iff.mp h
    cases h
    obtain ⟨ds, rfl, hds⟩ := exists_digits hd
    exact ⟨ds, rfl, .escape he hds⟩

theorem exists_written {t : Text} {r : Text × Text} (h : readChar? doubleQuote t = some r) :
    ∃ front, t = front ++ r.2 ∧ Written front := by
  unfold readChar? at h
  split at h
  · cases h
  next b t =>
    split at h
    · cases h
    next hb =>
      rw [Bool.or_eq_true, beq_iff_eq, beq_iff_eq, not_or] at hb
      split at h
      next hbs =>
        obtain rfl := eq_of_beq hbs
        split at h
        · obtain ⟨ds, rfl, hds⟩ := exists_written_escape h
          exact ⟨_, rfl, hds⟩
        · cases h
      next hbs =>
        cases h
        refine ⟨b :: t.take (Utf8.headSize (b :: t) - 1), by simp, .raw ?_⟩
        refine List.forall_mem_cons.mpr ⟨⟨hb.2, hb.1, by simpa using hbs⟩, fun c hc => ?_⟩
        exact isPlain_of_le c (Utf8.le_of_mem_take hc)

end Quoted

namespace Scan
open Quoted (IsPlain Written)
variable {b : UInt8} {t rest : Text}

theorem stringSize?_quote (t : Text) : stringSize? (doubleQuote :: t) = some 1 := by
  cases t <;> rfl

theorem stringSize?_escape (b : UInt8) (t : Text) :
    stringSize? (backslash :: b :: t) = (stringSize? t).map (· + 2) := by
  rw [stringSize?, if_pos (beq_self_eq_true _)]

theorem stringSize?_cons (hb : IsPlain b) (t : Text) :
    stringSize? (b :: t) = (stringSize? t).map (· + 1) := by
  obtain ⟨-, hq, hs⟩ := hb
  cases t with
  | nil => simp [stringSize?, hq]
  | cons c t => rw [stringSize?, if_neg (by simpa using hs), if_neg (by simpa using hq)]

theorem stringSize?_plain (ht : ∀ b ∈ t, IsPlain b) (rest : Text) :
    stringSize? (t ++ rest) = (stringSize? rest).map (· + t.length) := by
  induction t with
  | nil => simp
  | cons b t ih =>
    obtain ⟨hb, ht⟩ := List.forall_mem_cons.mp ht
    rw [List.cons_append, stringSize?_cons hb, ih ht, Option.map_map]
    rfl

theorem stringSize?_written (ht : Written t) (rest : Text) :
    stringSize? (t ++ rest) = (stringSize? rest).map (· + t.length) := by
  cases ht with
  | raw ht => exact stringSize?_plain ht rest
  | escape _ ht =>
    rw [List.cons_append, List.cons_append, stringSize?_escape, stringSize?_plain ht, Option.map_map]
    rfl

/-- A literal that can be unquoted ends where it does for the scanner, on the line where it starts. -/
theorem stringSize?_append {v : Text} (h : Quoted.readBody? doubleQuote t = some v) (rest : Text) :
    newline ∉ t ∧ stringSize? (t ++ rest) = some t.length := by
  fun_induction Quoted.readBody? doubleQuote t generalizing v with
  | case1 t ht =>
    obtain rfl := eq_of_beq ht
    exact ⟨by decide, stringSize?_quote rest⟩
  | case2 t _ r hr _ ih =>
    obtain ⟨w, hw, -⟩ := Option.map_eq_some_iff.mp h
    obtain ⟨hn, hsize⟩ := ih hw
    obtain ⟨front, hfront, hwritten⟩ := Quoted.exists_written hr
    have hnew : newline ∉ front := by
      cases hwritten with
      | raw ht => exact fun hm => (ht _ hm).1 rfl
      | escape he ht =>
        simp only [List.mem_cons, not_or]
        exact ⟨by decide, he.symm, fun hm => (ht _ hm).1 rfl⟩
    rw [hfront]
    refine ⟨by simp [hnew, hn], ?_⟩
    rw [List.append_assoc, stringSize?_written hwritten, hsize, List.length_append, Option.map_some,
      Nat.add_comm]
  | case3 => cases h

end Scan
end AccAsm
