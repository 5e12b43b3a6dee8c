import AccAsm.Proofs.Text.Quoting
import AccAsm.Proofs.Token.Literal

/-! # Decoding the front of a text

`Utf8.Decodes t c n`: decoding `t` from its front on yields the character `c` and takes `n` bytes. This is the
character that is encoded there, or U+FFFD for a single byte where none is. Reading characters decodes them so
(`decodes_head?`), and what stands behind a line cannot change what is decoded on it (`Decodes.append`). -/

namespace AccAsm
namespace Utf8
variable {b : UInt8} {c : Char} {t rest : Text} {n v least : Nat}

inductive Decodes : Text → Char → Nat → Prop
  | char (c : Char) (rest : Text) : Decodes (encode c ++ rest) c (encode c).length
  | invalid {b : UInt8} {rest : Text} (h : ∀ c, ¬ encode c <+: b :: rest) : Decodes (b :: rest) replacement 1

/-! ### Encoded characters -/

theorem toNat_of_scalar? (h : scalar? least n = some c) : least ≤ n ∧ c.toNat = n := by
  obtain ⟨hn, hc⟩ := Option.dite_none_right_eq_some.mp h
  refine ⟨hn.1, ?_⟩
  rw [← Option.some.inj hc]
  rfl

theorem eq_ofNat_of_tail? (h : tail? b = some v) : b = UInt8.ofNat (v + 128) := by
  have htail : ∀ b : UInt8, (0x80 ≤ b && b < 0xC0) = true → b = UInt8.ofNat (b.toNat % 64 + 128) :=
    Text.forall_byte (by decide +kernel)
  unfold tail? at h
  split at h
  next hb =>
    cases h
    exact htail b hb
  next => cases h

theorem encode_two {x y : Nat} (hx : x < 32) (hy : y < 64) (hc : c.toNat = x * 64 + y) (h : 0x80 ≤ c.toNat) :
    encode c = [UInt8.ofNat (x + 192), UInt8.ofNat (y + 128)] := by
  have hv : c.val.toNat = c.toNat := rfl
  have hx' : c.toNat / 64 % 32 = x := by omega
  have hy' : c.toNat % 64 = y := by omega
  unfold encode String.utf8EncodeChar
  dsimp only
  rw [hv, if_neg (by omega), if_pos (by omega), hx', hy']

theorem encode_three {x y z : Nat} (hx : x < 16) (hy : y < 64) (hz : z < 64)
    (hc : c.toNat = (x * 64 + y) * 64 + z) (h : 0x800 ≤ c.toNat) :
    encode c = [UInt8.ofNat (x + 224), UInt8.ofNat (y + 128), UInt8.ofNat (z + 128)] := by
  have hv : c.val.toNat = c.toNat := rfl
  have hx' : c.toNat / 4096 % 16 = x := by omega
  have hy' : c.toNat / 64 % 64 = y := by omega
  have hz' : c.toNat % 64 = z := by omega
  unfold encode String.utf8EncodeChar
  dsimp only
  rw [hv, if_neg (by omega), if_neg (by omega), if_pos (by omega), hx', hy', hz']

theorem encode_four {w x y z : Nat} (hw : w < 8) (hx : x < 64) (hy : y < 64) (hz : z < 64)
    (hc : c.toNat = ((w * 64 + x) * 64 + y) * 64 + z) (h : 0x10000 ≤ c.toNat) :
    encode c = [UInt8.ofNat (w + 240), UInt8.ofNat (x + 128), UInt8.ofNat (y + 128),
      UInt8.ofNat (z + 128)] := by
  have hv : c.val.toNat = c.toNat := rfl
  have hw' : c.toNat / 262144 % 8 = w := by omega
  have hx' : c.toNat / 4096 % 64 = x := by omega
  have hy' : c.toNat / 64 % 64 = y := by omega
  have hz' : c.toNat % 64 = z := by omega
  unfold encode String.utf8EncodeChar
  dsimp only
  rw [hv, if_neg (by omega), if_neg (by omega), if_neg (by omega), hw', hx', hy', hz']

/-- A character that is read from the front of a text is encoded there. -/
theorem encode_prefix_of_head? (h : head? t = some c) : encode c <+: t := by
  have hone : ∀ a : UInt8, a < 0x80 → a.toNat < 0x80 := Text.forall_byte (by decide +kernel)
  have htwo : ∀ a : UInt8, ¬ a < 0xC0 → a < 0xE0 → a = UInt8.ofNat (a.toNat % 32 + 192) :=
    Text.forall_byte (by decide +kernel)
  have hthree : ∀ a : UInt8, ¬ a < 0xE0 → a < 0xF0 → a = UInt8.ofNat (a.toNat % 16 + 224) :=
    Text.forall_byte (by decide +kernel)
  have hfour : ∀ a : UInt8, ¬ a < 0xF0 → a < 0xF8 → a = UInt8.ofNat (a.toNat % 8 + 240) :=
    Text.forall_byte (by decide +kernel)
  cases t with
  | nil => cases h
  | cons a t =>
    simp only [head?] at h
    -- as many bytes as the first one announces
    split at h
    next ha =>
      obtain ⟨-, hc⟩ := toNat_of_scalar? h
      rw [encode_ascii (hc ▸ hone a ha), hc]
      exact ⟨t, by rw [Nat.toUInt8, UInt8.ofNat_toNat]; rfl⟩
    split at h
    next => cases h
    next ha =>
    split at h
    next ha' =>
      split at h
      next b₁ rest =>
        obtain ⟨v₁, h₁, h⟩ := Option.bind_eq_some_iff.mp h
        obtain ⟨hle, hc⟩ := toNat_of_scalar? h
        rw [encode_two (Nat.mod_lt _ (by decide)) (le_of_tail? h₁).2 hc (hc ▸ hle), ← htwo a ha ha',
          ← eq_ofNat_of_tail? h₁]
        exact ⟨rest, rfl⟩
      next => cases h
    next ha =>
    split at h
    next ha' =>
      split at h
      next b₁ b₂ rest =>
        obtain ⟨v₁, h₁, h⟩ := Option.bind_eq_some_iff.mp h
        obtain ⟨v₂, h₂, h⟩ := Option.bind_eq_some_iff.mp h
        obtain ⟨hle, hc⟩ := toNat_of_scalar? h
        rw [encode_three (Nat.mod_lt _ (by decide)) (le_of_tail? h₁).2 (le_of_tail? h₂).2 hc (hc ▸ hle),
          ← hthree a ha ha', ← eq_ofNat_of_tail? h₁, ← eq_ofNat_of_tail? h₂]
        exact ⟨rest, rfl⟩
      next => cases h
    next ha =>
    split at h
    next ha' =>
      split at h
      next b₁ b₂ b₃ rest =>
        obtain ⟨v₁, h₁, h⟩ := Option.bind_eq_some_iff.mp h
        obtain ⟨v₂, h₂, h⟩ := Option.bind_eq_some_iff.mp h
        obtain ⟨v₃, h₃, h⟩ := Option.bind_eq_some_iff.mp h
        obtain ⟨hle, hc⟩ := toNat_of_scalar? h
        rw [encode_four (Nat.mod_lt _ (by decide)) (le_of_tail? h₁).2 (le_of_tail? h₂).2 (le_of_tail? h₃).2 hc
          (hc ▸ hle), ← hfour a ha ha', ← eq_ofNat_of_tail? h₁, ← eq_ofNat_of_tail? h₂,
          ← eq_ofNat_of_tail? h₃]
        exact ⟨rest, rfl⟩
      next => cases h
    next => cases h

/-! ### Decoding -/

theorem decodes_head? (ht : t ≠ []) : Decodes t ((head? t).getD replacement) (headSize t) := by
  cases hc : head? t with
  | some c =>
    obtain ⟨rest, rfl⟩ := encode_prefix_of_head? hc
    rw [headSize_encode]
    exact .char c rest
  | none =>
    obtain ⟨b, rest, rfl⟩ := List.exists_cons_of_ne_nil ht
    have hsize : headSize (b :: rest) = 1 := by rw [headSize, hc]
    rw [hsize]
    refine .invalid fun c hp => ?_
    obtain ⟨rest', hrest⟩ := hp
    rw [← hrest, head?_encode] at hc
    cases hc

/-- A NUL is decoded where the byte is zero, and nowhere else. -/
theorem Decodes.eq_nul_iff (h : Decodes t c n) : c = '\x00' ↔ t.head? = some 0 := by
  have hnul : encode '\x00' = [0] := by decide
  cases h with
  | char c rest =>
    constructor
    · rintro rfl
      rw [hnul]
      rfl
    · intro hz
      obtain ⟨tail, ht⟩ := List.head?_eq_some_iff.mp hz
      have hc := head?_encode c rest
      rw [ht, head?_cons (by decide)] at hc
      exact (Option.some.inj hc).symm
  | @invalid b rest h =>
    refine iff_of_false (by decide) fun hz => h '\x00' ?_
    obtain rfl : b = 0 := by simpa using hz
    rw [hnul]
    exact ⟨rest, rfl⟩

theorem le_of_encode_eq_cons (h : encode c = b :: t) : ∀ d ∈ t, 0x80 ≤ d := by
  intro d hd
  have hsize := headSize_encode c []
  rw [List.append_nil, h, List.length_cons] at hsize
  refine le_of_mem_take (b := b) (t := t) ?_
  rwa [hsize, Nat.add_sub_cancel, List.take_length]

/-- No character goes on behind the end of a line. -/
theorem Decodes.append (h : Decodes t c n) {after : Text}
    (ha : after = [] ∨ ∃ next, after = Text.newline :: next) : Decodes (t ++ after) c n := by
  cases h with
  | char c rest =>
    rw [List.append_assoc]
    exact .char c (rest ++ after)
  | @invalid b rest h =>
    rw [List.cons_append]
    refine .invalid fun c hp => ?_
    obtain ⟨behind, hbehind⟩ := hp
    rw [← List.cons_append, List.append_eq_append_iff] at hbehind
    rcases hbehind with ⟨inside, hline, -⟩ | ⟨_ | ⟨d, outside⟩, hc, hafter⟩
    · exact h c ⟨inside, hline.symm⟩
    · exact h c ⟨[], by simp [hc]⟩
    · -- the newline would be one of the bytes of the character
      obtain rfl : d = Text.newline := by
        rcases ha with rfl | ⟨next, rfl⟩
        · cases hafter
        · exact (List.cons.inj hafter).1.symm
      exact absurd (le_of_encode_eq_cons hc Text.newline (by simp)) (by decide)

end Utf8
end AccAsm
