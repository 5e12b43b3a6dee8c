import AccAsm.Proofs.Text.Digits

/-! # Spellings of characters

Between double quotes a character can be written in several ways (`Quoted.Spells`): as it is, or with one of
the escapes. However each character of a text is written, unquoting gives the encoding of the text
(`Quoted.unquote?_spellsAll`), and reading that gives the characters (`Utf8.chars_encodeAll`). -/

namespace AccAsm

namespace Utf8
variable {a : Nat} {c : Char}

theorem scalar?_toNat {least : Nat} (h : least ≤ c.toNat) : scalar? least c.toNat = some c := by
  rw [scalar?, dif_pos ⟨h, c.valid⟩]
  exact congrArg some (Char.ext (UInt32.toNat_inj.mp rfl))

theorem tail?_ofNat (n : Nat) : tail? (UInt8.ofNat (n % 64 + 128)) = some (n % 64) := by
  have htail : ∀ a < 64, tail? (UInt8.ofNat (a + 128)) = some a := by decide +kernel
  exact htail _ (Nat.mod_lt n (by decide))

theorem head?_two (ha : a < 32) (b : UInt8) (t : Text) :
    head? (UInt8.ofNat (a + 192) :: b :: t) = (tail? b).bind fun b => scalar? 0x80 (a * 64 + b) := by
  have hlead : ∀ a < 32, ¬ UInt8.ofNat (a + 192) < 0x80 ∧ ¬ UInt8.ofNat (a + 192) < 0xC0 ∧
      UInt8.ofNat (a + 192) < 0xE0 ∧ (UInt8.ofNat (a + 192)).toNat % 32 = a := by decide +kernel
  obtain ⟨h₁, h₂, h₃, hmod⟩ := hlead a ha
  simp only [head?]
  rw [if_neg h₁, if_neg h₂, if_pos h₃, hmod]
  rfl

theorem head?_three (ha : a < 16) (b c : UInt8) (t : Text) :
    head? (UInt8.ofNat (a + 224) :: b :: c :: t) =
      (tail? b).bind fun b => (tail? c).bind fun c => scalar? 0x800 ((a * 64 + b) * 64 + c) := by
  have hlead : ∀ a < 16, ¬ UInt8.ofNat (a + 224) < 0x80 ∧ ¬ UInt8.ofNat (a + 224) < 0xC0 ∧
      ¬ UInt8.ofNat (a + 224) < 0xE0 ∧ UInt8.ofNat (a + 224) < 0xF0 ∧
      (UInt8.ofNat (a + 224)).toNat % 16 = a := by decide +kernel
  obtain ⟨h₁, h₂, h₃, h₄, hmod⟩ := hlead a ha
  simp only [head?]
  rw [if_neg h₁, if_neg h₂, if_neg h₃, if_pos h₄, hmod]
  rfl

theorem head?_four (ha : a < 8) (b c d : UInt8) (t : Text) :
    head? (UInt8.ofNat (a + 240) :: b :: c :: d :: t) =
      (tail? b).bind fun b => (tail? c).bind fun c => (tail? d).bind fun d =>
        scalar? 0x10000 (((a * 64 + b) * 64 + c) * 64 + d) := by
  have hlead : ∀ a < 8, ¬ UInt8.ofNat (a + 240) < 0x80 ∧ ¬ UInt8.ofNat (a + 240) < 0xC0 ∧
      ¬ UInt8.ofNat (a + 240) < 0xE0 ∧ ¬ UInt8.ofNat (a + 240) < 0xF0 ∧ UInt8.ofNat (a + 240) < 0xF8 ∧
      (UInt8.ofNat (a + 240)).toNat % 8 = a := by decide +kernel
  obtain ⟨h₁, h₂, h₃, h₄, h₅, hmod⟩ := hlead a ha
  simp only [head?]
  rw [if_neg h₁, if_neg h₂, if_neg h₃, if_neg h₄, if_pos h₅, hmod]
  rfl

theorem encode_ascii (h : c.toNat < 0x80) : encode c = [c.toNat.toUInt8] := if_pos (Nat.le_of_lt_succ h)

theorem toNat_lt (c : Char) : c.toNat < 0x110000 := by
  have hvalid : c.toNat < 0xd800 ∨ 0xdfff < c.toNat ∧ c.toNat < 0x110000 := c.valid
  omega

/-- The front of a text is read as the character that is encoded there. -/
theorem head?_encode (c : Char) (rest : Text) : head? (encode c ++ rest) = some c := by
  have hv : c.val.toNat = c.toNat := rfl
  have := toNat_lt c
  unfold encode String.utf8EncodeChar
  dsimp only
  rw [hv]
  split_ifs with h₁ h₂ h₃
  · have hlt : ∀ n ≤ 127, UInt8.ofNat n < 0x80 ∧ (UInt8.ofNat n).toNat = n := by decide +kernel
    have hlt := hlt c.toNat h₁
    rw [List.singleton_append, head?_cons hlt.1, hlt.2, Char.ofNat_toNat]
  · have hval : c.toNat / 64 % 32 * 64 + c.toNat % 64 = c.toNat := by omega
    rw [List.cons_append, List.cons_append, head?_two (Nat.mod_lt _ (by decide)), tail?_ofNat,
      Option.bind_some, hval]
    exact scalar?_toNat (by omega)
  · have hval : (c.toNat / 4096 % 16 * 64 + c.toNat / 64 % 64) * 64 + c.toNat % 64 = c.toNat := by omega
    rw [List.cons_append, List.cons_append, List.cons_append, head?_three (Nat.mod_lt _ (by decide)),
      tail?_ofNat, Option.bind_some, tail?_ofNat, Option.bind_some, hval]
    exact scalar?_toNat (by omega)
  · have hval : ((c.toNat / 262144 % 8 * 64 + c.toNat / 4096 % 64) * 64 + c.toNat / 64 % 64) * 64 +
        c.toNat % 64 = c.toNat := by omega
    rw [List.cons_append, List.cons_append, List.cons_append, List.cons_append,
      head?_four (Nat.mod_lt _ (by decide)), tail?_ofNat, Option.bind_some, tail?_ofNat, Option.bind_some,
      tail?_ofNat, Option.bind_some, hval]
    exact scalar?_toNat (by omega)

theorem headSize_encode (c : Char) (rest : Text) : headSize (encode c ++ rest) = (encode c).length := by
  rw [headSize, head?_encode]
  exact (String.length_utf8EncodeChar c).symm

theorem encode_ne_nil (c : Char) : encode c ≠ [] := String.utf8EncodeChar_ne_nil

theorem pieces_encode (c : Char) (rest : Text) :
    pieces (encode c ++ rest) = ⟨some c, encode c⟩ :: pieces rest := by
  have hhead := head?_encode c rest
  have hsize := headSize_encode c rest
  obtain ⟨b, t, hbytes⟩ := List.exists_cons_of_ne_nil (encode_ne_nil c)
  rw [hbytes, List.cons_append] at hhead hsize ⊢
  rw [List.length_cons] at hsize
  rw [pieces, hhead, hsize, Nat.add_sub_cancel, List.take_left, List.drop_left]

/-- Reading undoes encoding. -/
theorem chars_encodeAll (cs : List Char) : chars (encodeAll cs) = cs := by
  induction cs with
  | nil => rw [chars, encodeAll, List.flatMap_nil, pieces, List.map_nil]
  | cons c cs ih =>
    rw [chars, encodeAll, List.flatMap_cons, pieces_encode, List.map_cons]
    exact congrArg (c :: ·) ih

end Utf8

namespace Quoted
open Text (byte doubleQuote backslash newline)

/-- The letters after a backslash, and the characters they stand for. -/
def letters : List (UInt8 × Char) :=
  [(byte 'a', '\x07'), (byte 'b', '\x08'), (byte 'f', '\x0c'), (byte 'n', '\n'), (byte 'r', '\r'),
    (byte 't', '\t'), (byte 'v', '\x0b'), (backslash, '\\'), (doubleQuote, '"')]

/-- `t` is a way to write the character `c` between double quotes. -/
inductive Spells (c : Char) : Text → Prop
  | raw (hc : c ≠ '"' ∧ c ≠ '\\' ∧ c ≠ '\n') : Spells c (Utf8.encode c)
  | letter {e : UInt8} (he : (e, c) ∈ letters) : Spells c [backslash, e]
  | hex {ds : Text} (hc : c.toNat < 0x80) (hl : ds.length = 2) (hv : Numeral.valueIn? 16 ds = some c.toNat) :
      Spells c (backslash :: byte 'x' :: ds)
  | octal {ds : Text} (hc : c.toNat < 0x80) (hl : ds.length = 3) (hv : Numeral.valueIn? 8 ds = some c.toNat) :
      Spells c (backslash :: ds)
  | short {ds : Text} (hl : ds.length = 4) (hv : Numeral.valueIn? 16 ds = some c.toNat) :
      Spells c (backslash :: byte 'u' :: ds)
  | long {ds : Text} (hl : ds.length = 8) (hv : Numeral.valueIn? 16 ds = some c.toNat) :
      Spells c (backslash :: byte 'U' :: ds)

/-- `t` is a way to write the characters `cs` between double quotes. -/
inductive SpellsAll : List Char → Text → Prop
  | nil : SpellsAll [] []
  | cons {c : Char} {cs : List Char} {t body : Text} (h : Spells c t) (hs : SpellsAll cs body) :
      SpellsAll (c :: cs) (t ++ body)

variable {c : Char} {cs : List Char} {t body : Text}

theorem readChar?_backslash (e : UInt8) (t : Text) :
    readChar? doubleQuote (backslash :: e :: t) = readEscape? doubleQuote e t := by
  rw [readChar?, if_neg (by decide), if_pos (by decide)]

theorem readEscape?_numbered {mark e : UInt8} {escape : NumberedEscape} {ds bytes : Text} {n : Nat}
    (hb : escapedByte? mark e = none) (he : numberedEscape? e = some escape) (hbase : escape.base ≤ 16)
    (hl : ds.length = escape.digits) (hv : Numeral.extendIn? escape.base escape.start ds = some n)
    (hn : numberedBytes? escape.isByte n = some bytes) (rest : Text) :
    readEscape? mark e (ds ++ rest) = some (bytes, rest) := by
  rw [readEscape?, hb, he]
  simp only [Option.bind_eq_bind, Option.bind_some, ← hl, Numeral.fixedDigits?_append hbase hv, hn]
  rfl

theorem numberedBytes?_byte (h : c.toNat < 0x80) : numberedBytes? true c.toNat = some (Utf8.encode c) := by
  rw [numberedBytes?, if_pos rfl, if_pos (by omega), Utf8.encode_ascii h]

theorem numberedBytes?_char (c : Char) : numberedBytes? false c.toNat = some (Utf8.encode c) := by
  rw [numberedBytes?, if_neg (by decide), Utf8.scalar?_toNat (Nat.zero_le _)]
  rfl

theorem readChar?_raw (hc : c ≠ '"' ∧ c ≠ '\\' ∧ c ≠ '\n') (rest : Text) :
    readChar? doubleQuote (Utf8.encode c ++ rest) = some (Utf8.encode c, rest) := by
  have hhead := Utf8.head?_encode c rest
  have hsize := Utf8.headSize_encode c rest
  obtain ⟨b, t, hbytes⟩ := List.exists_cons_of_ne_nil (Utf8.encode_ne_nil c)
  rw [hbytes, List.cons_append] at hhead hsize
  rw [List.length_cons] at hsize
  -- an ASCII byte in front would be the whole character
  have hother {q : UInt8} (hq : q < 0x80) (hc : c ≠ Char.ofNat q.toNat) : b ≠ q := by
    rintro rfl
    exact hc (Option.some.inj (hhead.symm.trans (Utf8.head?_cons hq _)))
  have hquote : b ≠ doubleQuote := hother (by decide) hc.1
  have hslash : b ≠ backslash := hother (by decide) hc.2.1
  have hnewline : b ≠ newline := hother (by decide) hc.2.2
  rw [hbytes, List.cons_append]
  unfold readChar?
  dsimp only
  rw [if_neg (by simp [hquote, hnewline]), if_neg (by simpa using hslash), hhead, hsize, Nat.add_sub_cancel,
    List.drop_left, Option.getD_some, hbytes]

theorem readChar?_letter {e : UInt8} (he : (e, c) ∈ letters) (rest : Text) :
    readChar? doubleQuote (backslash :: e :: rest) = some (Utf8.encode c, rest) := by
  have hescaped : ∀ p ∈ letters, (escapedByte? doubleQuote p.1).map ([·]) = some (Utf8.encode p.2) := by
    decide +kernel
  obtain ⟨b, hb, hbytes⟩ := Option.map_eq_some_iff.mp (hescaped _ he)
  rw [readChar?_backslash, readEscape?, hb]
  exact congrArg (fun bytes => some (bytes, rest)) hbytes

theorem readChar?_octal {ds : Text} (hc : c.toNat < 0x80) (hl : ds.length = 3)
    (hv : Numeral.valueIn? 8 ds = some c.toNat) (rest : Text) :
    readChar? doubleQuote (backslash :: ds ++ rest) = some (Utf8.encode c, rest) := by
  obtain ⟨e, ds, rfl⟩ := List.exists_cons_of_length_eq_add_one hl
  obtain ⟨-, hv⟩ := Numeral.valueIn?_eq_some.mp hv
  rw [Numeral.extendIn?_cons] at hv
  obtain ⟨d, hd, hv⟩ := Option.bind_eq_some_iff.mp hv
  -- the first digit is read with the escape
  have hfirst : ∀ e : UInt8, ∀ d < 8, Numeral.digitIn? 8 e = some d → escapedByte? doubleQuote e = none ∧
      numberedEscape? e = some { base := 8, digits := 2, start := d, isByte := true } :=
    Text.forall_byte (by decide +kernel)
  obtain ⟨hnone, hsome⟩ := hfirst e d ((Numeral.digitIn?_eq_some (by decide)).mp hd).2 hd
  rw [Nat.zero_mul, Nat.zero_add] at hv
  rw [List.cons_append, List.cons_append, readChar?_backslash]
  exact readEscape?_numbered hnone hsome (show 8 ≤ 16 by decide) (Nat.succ.inj hl) hv (numberedBytes?_byte hc) rest

/-- However a character is written, it is read as itself. -/
theorem readChar?_spells (h : Spells c t) (rest : Text) :
    readChar? doubleQuote (t ++ rest) = some (Utf8.encode c, rest) := by
  cases h with
  | raw hc => exact readChar?_raw hc rest
  | letter he => exact readChar?_letter he rest
  | octal hc hl hv => exact readChar?_octal hc hl hv rest
  | hex hc hl hv =>
    rw [List.cons_append, List.cons_append, readChar?_backslash]
    exact readEscape?_numbered (by decide) rfl (by decide) hl (Numeral.valueIn?_eq_some.mp hv).2
      (numberedBytes?_byte hc) rest
  | short hl hv | long hl hv =>
    rw [List.cons_append, List.cons_append, readChar?_backslash]
    exact readEscape?_numbered (by decide) rfl (by decide) hl (Numeral.valueIn?_eq_some.mp hv).2
      (numberedBytes?_char c) rest

theorem readBody?_of_readChar? {mark : UInt8} {r : Text × Text} (h : readChar? mark t = some r) :
    readBody? mark t = (readBody? mark r.2).map (r.1 ++ ·) := by
  have hne : t ≠ [mark] := by
    rintro rfl
    rw [readChar?, if_pos (by simp)] at h
    cases h
  rw [readBody?, if_neg (by simpa using hne)]
  split
  next r' hr =>
    cases h.symm.trans hr
    rfl
  next hr => cases h.symm.trans hr

theorem unquote?_spellsAll (h : SpellsAll cs body) :
    unquote? (doubleQuote :: (body ++ [doubleQuote])) = some (Utf8.encodeAll cs) := by
  rw [unquote?, if_pos (by decide)]
  induction h with
  | nil =>
    rw [List.nil_append, readBody?, if_pos (by decide)]
    rfl
  | cons hc _ ih =>
    rw [List.append_assoc, readBody?_of_readChar? (readChar?_spells hc _), ih]
    rfl

/-- Every text can be written, with escapes alone. -/
theorem exists_spellsAll (cs : List Char) : ∃ body, SpellsAll cs body := by
  induction cs with
  | nil => exact ⟨[], .nil⟩
  | cons c cs ih =>
    obtain ⟨body, hbody⟩ := ih
    have hlt : c.toNat < 16 ^ 8 := Nat.lt_trans (Utf8.toNat_lt c) (by decide)
    have hlong := Spells.long (Numeral.length_writePadded (by decide) hlt)
      (Numeral.valueIn?_writePadded (by decide) (by decide) 8 c.toNat)
    exact ⟨_, .cons hlong hbody⟩

end Quoted
end AccAsm
