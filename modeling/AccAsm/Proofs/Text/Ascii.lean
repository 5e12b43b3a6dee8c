import AccAsm.Text.Blank
import AccAsm.Text.LowerCase
import Mathlib.Data.List.DropRight
import Mathlib.Data.List.TakeWhile

/-! # ASCII text

A byte below 128 is a character of its own, wherever it stands. Lower case then works byte by
byte (`lower_cons`, `lower_eq_map`), and leaves lower-case letters as they are (`lower_eq_self`); so does
trimming (`trim_eq`). -/

namespace AccAsm

namespace Text

/-- What holds of the 256 bytes by computation holds of all bytes. -/
theorem forall_byte {p : UInt8 → Prop} (h : ∀ n < 256, p (UInt8.ofNat n)) (b : UInt8) : p b :=
  UInt8.ofNat_toNat (x := b) ▸ h b.toNat b.toNat_lt

def IsAscii (t : Text) : Prop := ∀ b ∈ t, b < 0x80

instance (t : Text) : Decidable t.IsAscii := inferInstanceAs (Decidable (∀ b ∈ t, b < 0x80))

/-- White space in ASCII text. -/
def isSpace (b : UInt8) : Bool := b == byte ' ' || (byte '\t' ≤ b && b ≤ byte '\r')

/-- `t` without the white space at its ends. -/
def stripped (t : Text) : Text := (t.dropWhile isSpace).rdropWhile isSpace

theorem IsAscii.stripped {t : Text} (h : t.IsAscii) : t.stripped.IsAscii := fun b hb =>
  h b ((List.dropWhile_sublist isSpace).subset ((List.rdropWhile_prefix isSpace _).subset hb))

end Text

namespace Utf8

theorem head?_cons {b : UInt8} (hb : b < 0x80) (t : Text) : head? (b :: t) = some (Char.ofNat b.toNat) := by
  have : ∀ b : UInt8, b < 0x80 → scalar? 0 b.toNat = some (Char.ofNat b.toNat) :=
    Text.forall_byte (by decide +kernel)
  simp only [head?]
  rw [if_pos hb, this b hb]

theorem headSize_cons {b : UInt8} (hb : b < 0x80) (t : Text) : headSize (b :: t) = 1 := by
  have : ∀ b : UInt8, b < 0x80 → (Char.ofNat b.toNat).utf8Size = 1 := Text.forall_byte (by decide +kernel)
  rw [headSize, head?_cons hb]
  exact this b hb

theorem chars_cons {b : UInt8} (hb : b < 0x80) (t : Text) :
    chars (b :: t) = Char.ofNat b.toNat :: chars t := by
  rw [chars, pieces, head?_cons hb, headSize_cons hb]
  rfl

theorem pieces_ascii {t : Text} (ht : t.IsAscii) : pieces t = t.map fun b => ⟨some (Char.ofNat b.toNat), [b]⟩ := by
  induction t with
  | nil => rw [pieces]; rfl
  | cons b t ih =>
    obtain ⟨hb, ht⟩ := List.forall_mem_cons.mp ht
    rw [pieces, head?_cons hb, headSize_cons hb, List.map_cons, ← ih ht]
    rfl

end Utf8

namespace LowerCase

theorem lower_cons {b : UInt8} (hb : b < 0x80) (t : Text) :
    lower (b :: t) = Text.lowerByte b :: lower t := by
  have : ∀ b : UInt8, b < 0x80 → Utf8.encode (lowerChar (Char.ofNat b.toNat)) = [Text.lowerByte b] :=
    Text.forall_byte (by decide +kernel)
  rw [lower, Utf8.chars_cons hb, List.map_cons, Utf8.encodeAll, List.flatMap_cons, this b hb]
  rfl

theorem lower_eq_self {t : Text} (ht : ∀ b ∈ t, Text.isLower b) : lower t = t := by
  have kept : ∀ b : UInt8, Text.isLower b → b < 0x80 ∧ Text.lowerByte b = b :=
    Text.forall_byte (by decide +kernel)
  induction t with
  | nil => rw [lower, Utf8.chars, Utf8.pieces]; rfl
  | cons b t ih =>
    obtain ⟨hb, hl⟩ := kept b (ht b (by simp))
    rw [lower_cons hb, hl, ih fun c hc => ht c (by simp [hc])]

theorem lower_eq_map {t : Text} (ht : t.IsAscii) : lower t = t.map Text.lowerByte := by
  induction t with
  | nil => rw [lower, Utf8.chars, Utf8.pieces]; rfl
  | cons b t ih =>
    obtain ⟨hb, ht⟩ := List.forall_mem_cons.mp ht
    rw [lower_cons hb, ih ht, List.map_cons]

end LowerCase

namespace Blank

theorem dropWhile_congr {p q : UInt8 → Bool} {t : Text} (h : ∀ b ∈ t, p b = q b) :
    t.dropWhile p = t.dropWhile q := by
  induction t with
  | nil => rfl
  | cons b t ih =>
    obtain ⟨hb, h⟩ := List.forall_mem_cons.mp h
    rw [List.dropWhile_cons, List.dropWhile_cons, hb, ih h]

theorem trim_eq {t : Text} (ht : t.IsAscii) : trim t = t.stripped := by
  have hblank : ∀ b : UInt8, b < 0x80 → isBlank (Char.ofNat b.toNat) = Text.isSpace b :=
    Text.forall_byte (by decide +kernel)
  have hdrop {u : Text} (hu : u.IsAscii) :
      u.dropWhile (fun b => isBlank (Char.ofNat b.toNat)) = u.dropWhile Text.isSpace :=
    dropWhile_congr fun b hb => hblank b (hu b hb)
  have hinner : Text.IsAscii (t.dropWhile Text.isSpace).reverse := fun b hb =>
    ht b ((List.dropWhile_sublist _).subset (List.mem_reverse.mp hb))
  simp only [trim, Utf8.pieces_ascii ht, List.dropWhile_map, ← List.map_reverse, List.flatMap_map]
  show ((t.dropWhile fun b => isBlank (Char.ofNat b.toNat)).reverse.dropWhile
    fun b => isBlank (Char.ofNat b.toNat)).reverse.flatMap (fun b => [b]) = _
  rw [List.flatMap_singleton', hdrop ht, hdrop hinner]
  rfl

end Blank
end AccAsm
