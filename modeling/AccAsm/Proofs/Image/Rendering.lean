import AccAsm.Image.Rendering
import AccAsm.Proofs.Text.Digits
import AccAsm.Proofs.Text.Path
import AccAsm.Proofs.Traversal

/-! # Reading renderings back

The hexadecimal rendering and the listing are read line by line (`Image.readHex?`, `Image.readListing?`), and
what is read is the image again: its raw bytes from the one, and bytes with their addresses and labels from the
other (`Image.render_reads_back`). So neither rendering loses anything that it is meant to show. A label is the
rest of its line, whatever blanks it has; only a newline in it could not be told from the end of the line. -/

namespace AccAsm
open Text (byte lit newline)

namespace Text

/-- The lines of a text in which a newline ends every line. -/
def endedLines? (t : Text) : Option (List Text) :=
  if (splitOn newline t).getLast? = some [] then some (splitOn newline t).dropLast else none

/-- What follows `start` in a text that starts with it. -/
def after? (start t : Text) : Option Text :=
  if start.isPrefixOf t then some (t.drop start.length) else none

theorem after?_append (start t : Text) : after? start (start ++ t) = some t := by
  rw [after?, if_pos (List.isPrefixOf_iff_prefix.mpr (List.prefix_append start t)), List.drop_left]

theorem endedLines?_flatMap {lines : List Text} (h : ∀ l ∈ lines, newline ∉ l) :
    endedLines? (lines.flatMap (· ++ [newline])) = some lines := by
  have hsplit : splitOn newline (lines.flatMap (· ++ [newline])) = lines ++ [[]] := by
    rw [← List.append_nil (lines.flatMap _), splitOn_flatMap h]
    rfl
  rw [endedLines?, hsplit, if_pos (by simp), List.dropLast_concat]

end Text

namespace Image

/-! ### Readers -/

/-- A byte in two hexadecimal digits. -/
def readHexLine? (line : Text) : Option UInt8 :=
  if line.length = 2 then (Numeral.valueIn? 16 line).map Nat.toUInt8 else none

/-- The bytes of a hexadecimal rendering. -/
def readHex? (t : Text) : Option (List UInt8) := t.endedLines?.bind fun lines => lines.mapM readHexLine?

/-- Eight binary digits, and after two blanks a label, which is empty if there is none. -/
def readByte? (t : Text) : Option ImageByte :=
  if 8 ≤ t.length then do
    let value ← Numeral.valueIn? 2 (t.take 8)
    let label ← if t.length = 8 then some [] else Text.after? (lit "  ") (t.drop 8)
    return ⟨value.toUInt8, label⟩
  else none

/-- A hexadecimal address, and a byte after two blanks. -/
def readListingLine? (line : Text) : Option (Nat × ImageByte) := do
  let address := line.takeWhile (· ≠ byte ' ')
  let rest ← Text.after? (lit "  ") (line.drop address.length)
  return (← Numeral.valueIn? 16 address, ← readByte? rest)

/-- The addresses and bytes of a listing. -/
def readListing? (t : Text) : Option (List (Nat × ImageByte)) :=
  t.endedLines?.bind fun lines => lines.mapM readListingLine?

/-! ### Lines -/

/-- A line of the listing without its newline. -/
def listingText (b : ImageByte) (address : Nat) : Text :=
  Numeral.writePadded 16 4 address ++ (lit "  " ++ (Numeral.writePadded 2 8 b.value.toNat ++
    if b.label.isEmpty then [] else lit "  " ++ b.label))

theorem listingLine_eq (b : ImageByte) (address : Nat) :
    listingLine b address = listingText b address ++ [newline] := by
  simp only [listingLine, listingText, List.append_assoc]

theorem digitIn?_writePadded {base : Nat} (h₂ : 2 ≤ base) (h₁₆ : base ≤ 16) (width n : Nat) :
    ∀ b ∈ Numeral.writePadded base width n, (Numeral.digitIn? base b).isSome :=
  Numeral.isSome_of_extendIn? (Numeral.valueIn?_eq_some.mp (Numeral.valueIn?_writePadded h₂ h₁₆ width n)).2

theorem newline_notMem_writePadded {base : Nat} (h₂ : 2 ≤ base) (h₁₆ : base ≤ 16) (width n : Nat) :
    newline ∉ Numeral.writePadded base width n := by
  have hnone : ∀ base < 17, Numeral.digitIn? base newline = none := by decide +kernel
  intro hm
  have hsome := digitIn?_writePadded h₂ h₁₆ width n newline hm
  rw [hnone base (by omega)] at hsome
  cases hsome

theorem readHexLine?_writePadded (b : UInt8) : readHexLine? (Numeral.writePadded 16 2 b.toNat) = some b := by
  have hlength : (Numeral.writePadded 16 2 b.toNat).length = 2 :=
    Numeral.length_writePadded (by decide) b.toNat_lt
  rw [readHexLine?, if_pos hlength, Numeral.valueIn?_writePadded (by omega) (by omega)]
  exact congrArg some UInt8.ofNat_toNat

theorem readByte?_append (value : UInt8) (label : Text) :
    readByte? (Numeral.writePadded 2 8 value.toNat ++ if label.isEmpty then [] else lit "  " ++ label) =
      some ⟨value, label⟩ := by
  have hlength : (Numeral.writePadded 2 8 value.toNat).length = 8 :=
    Numeral.length_writePadded (by decide) value.toNat_lt
  have hvalue := Numeral.valueIn?_writePadded (Nat.le_refl 2) (by decide) 8 value.toNat
  generalize Numeral.writePadded 2 8 value.toNat = digits at hlength hvalue ⊢
  have hbyte : value.toNat.toUInt8 = value := UInt8.ofNat_toNat
  rw [readByte?, if_pos (by rw [List.length_append]; omega), List.take_left' hlength, List.drop_left' hlength,
    hvalue]
  cases label with
  | nil => simp [hlength, hbyte]
  | cons c label =>
    have hlong : ¬ (digits ++ (lit "  " ++ c :: label)).length = 8 := by
      simp [hlength]
    simp only [List.isEmpty_cons, Bool.false_eq_true, if_false, if_neg hlong, Text.after?_append]
    exact congrArg (fun b => some (⟨b, c :: label⟩ : ImageByte)) hbyte

theorem readListingLine?_listingText (b : ImageByte) (address : Nat) :
    readListingLine? (listingText b address) = some (address, b) := by
  have hvalue := Numeral.valueIn?_writePadded (by decide) (Nat.le_refl 16) 4 address
  have hdigits := digitIn?_writePadded (by decide) (Nat.le_refl 16) 4 address
  unfold listingText readListingLine?
  generalize Numeral.writePadded 16 4 address = digits at hvalue hdigits ⊢
  have hspace : ∀ c ∈ digits, decide (c ≠ byte ' ') = true := by
    intro c hc
    rw [decide_eq_true_eq]
    rintro rfl
    exact absurd (hdigits _ hc) (by decide +kernel)
  have htake (rest : Text) : (digits ++ (lit "  " ++ rest)).takeWhile (· ≠ byte ' ') = digits := by
    rw [List.takeWhile_append_of_pos hspace]
    exact List.append_nil digits
  simp only [htake, List.drop_left, Text.after?_append, Option.bind_eq_bind, Option.bind_some, hvalue,
    readByte?_append]
  rfl

/-- Addresses go on beyond four digits. -/
example : listingText ⟨1, []⟩ 0x1ffff = lit "1ffff  00000001" := by decide +kernel

/-! ### Renderings -/

variable (img : Image)

theorem hex_eq : img.hex = (img.raw.map fun b => Numeral.writePadded 16 2 b.toNat).flatMap (· ++ [newline]) := by
  rw [hex, raw, List.map_map, List.flatMap_map]
  rfl

theorem readHex?_hex : readHex? img.hex = some img.raw := by
  have hlines : ∀ l ∈ img.raw.map fun b => Numeral.writePadded 16 2 b.toNat, newline ∉ l := by
    rw [List.forall_mem_map]
    exact fun b _ => newline_notMem_writePadded (by omega) (by omega) 2 b.toNat
  rw [hex_eq, readHex?, Text.endedLines?_flatMap hlines, Option.bind_some, option_mapM_eq_some,
    List.forall₂_map_left_iff, List.forall₂_same]
  exact fun b _ => readHexLine?_writePadded b

theorem listing_eq :
    img.listing = (img.bytes.zipIdx.map fun p => listingText p.1 p.2).flatMap (· ++ [newline]) := by
  rw [listing, List.flatMap_map]
  exact congrArg (List.flatMap · _) (funext fun p => listingLine_eq p.1 p.2)

theorem readListing?_listing (hl : ∀ b ∈ img.bytes, newline ∉ b.label) :
    readListing? img.listing = some (img.bytes.zipIdx.map Prod.swap) := by
  have hlines : ∀ l ∈ img.bytes.zipIdx.map fun p => listingText p.1 p.2, newline ∉ l := by
    rw [List.forall_mem_map]
    intro p hp
    have hlabel := hl p.1 (List.fst_mem_of_mem_zipIdx hp)
    have haddress := newline_notMem_writePadded (by decide) (Nat.le_refl 16) 4 p.2
    have hbits := newline_notMem_writePadded (Nat.le_refl 2) (by decide) 8 p.1.value.toNat
    have hblanks : newline ∉ lit "  " := by decide
    unfold listingText
    split <;> simp [hlabel, haddress, hbits, hblanks]
  rw [listing_eq, readListing?, Text.endedLines?_flatMap hlines, Option.bind_some, option_mapM_eq_some,
    List.forall₂_map_left_iff, List.forall₂_map_right_iff, List.forall₂_same]
  exact fun p _ => readListingLine?_listingText p.1 p.2

/-- The hexadecimal rendering reads back as the raw bytes, and so determines them. A listing whose labels have
no newlines reads back as the bytes with their labels, each at its address, and so determines these too. -/
theorem render_reads_back :
    (readHex? (img.render .hex) = some (img.render .binary) ∧
      ∀ other : Image, other.render .hex = img.render .hex → other.raw = img.raw) ∧
    ((∀ b ∈ img.bytes, newline ∉ b.label) →
      readListing? (img.render .listing) = some (img.bytes.zipIdx.map fun p => (p.2, p.1)) ∧
        ∀ other : Image, (∀ b ∈ other.bytes, newline ∉ b.label) →
          other.render .listing = img.render .listing → other.bytes = img.bytes) := by
  refine ⟨⟨readHex?_hex img, fun other h => ?_⟩, fun hl => ⟨readListing?_listing img hl, fun other ho h => ?_⟩⟩
  · have hread : readHex? other.hex = some img.raw := (congrArg readHex? h).trans (readHex?_hex img)
    exact Option.some.inj ((readHex?_hex other).symm.trans hread)
  · have hread : readListing? other.listing = _ := (congrArg readListing? h).trans (readListing?_listing img hl)
    have hswapped := Option.some.inj ((readListing?_listing other ho).symm.trans hread)
    have hpairs := List.map_injective_iff.mpr Prod.swap_injective hswapped
    rw [← List.zipIdx_map_fst 0 other.bytes, hpairs, List.zipIdx_map_fst]

/-- A label that starts with blanks itself, next to a byte without any. -/
theorem render_reads_back_blanks :
    let img : Image := { bytes := [⟨10, lit "_a"⟩, ⟨255, []⟩, ⟨0, lit "  x"⟩] }
    (∀ b ∈ img.bytes, newline ∉ b.label) ∧
      img.render .listing = lit "0000  00001010  _a\n0001  11111111\n0002  00000000    x\n" ∧
      readListing? (img.render .listing) = some [(0, ⟨10, lit "_a"⟩), (1, ⟨255, []⟩), (2, ⟨0, lit "  x"⟩)] := by
  intro img
  have hl : ∀ b ∈ img.bytes, newline ∉ b.label := by decide +kernel
  exact ⟨hl, by decide +kernel, ((render_reads_back img).2 hl).1⟩

end Image
end AccAsm
