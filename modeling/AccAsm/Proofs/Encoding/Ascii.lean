import AccAsm.Encoding
import AccAsm.Instruction.Builtin
import AccAsm.Proofs.Text.Quoting
import AccAsm.Proofs.Token.Printing
import AccAsm.Proofs.Traversal

/-! # Literals of characters

Three readers go over the same literal: the scanner looks for its end, unquoting turns it into bytes, and
these are read as characters again. Whatever characters it holds and however they are written, the outcome
is one cell for each of them, or the first one that does not fit (`Encoding.ascii_charwise`). -/

namespace AccAsm
open Text (lit doubleQuote)

/-- Fields of eight bits take a cell each. -/
theorem Packer.cut_bytes (position : Position) {fields : List Segment} (h : ∀ s ∈ fields, s.width = 8)
    (done : List Cell) :
    cut position done [] 0 fields = done.reverse ++ fields.map fun s => { segments := [s], position } := by
  induction fields generalizing done with
  | nil => rw [cut, List.map_nil, List.append_nil]
  | cons s fields ih =>
    obtain ⟨hs, h⟩ := List.forall_mem_cons.mp h
    rw [cut, if_neg (by rw [hs]; decide), dif_neg (by rw [hs]; decide), if_pos (by rw [hs]; rfl), ih h]
    simp

theorem Segment.totalWidth_bytes {fields : List Segment} (h : ∀ s ∈ fields, s.width = 8) :
    totalWidth fields = 8 * fields.length := by
  induction fields with
  | nil => rfl
  | cons s fields ih =>
    obtain ⟨hs, h⟩ := List.forall_mem_cons.mp h
    rw [totalWidth, hs, ih h, List.length_cons, Nat.mul_succ, Nat.add_comm]
    rfl

namespace Encoding
variable {table : InstructionTable} {strict : Bool} {cs : List Char} {position place : Position} {body : Text}
  {e : Emission}

theorem pack_bytes_exact {fields : List Segment} (h : ∀ s ∈ fields, s.width = 8) :
    pack position fields = .ok (fields.map fun s => { segments := [s], position }) := by
  have hwidth : (Packer.ofList fields).width % cellBits = 0 := by
    rw [Packer.ofList, Segment.totalWidth_bytes h]
    exact Nat.mul_mod_right 8 _
  rw [pack, Packer.cells, if_pos hwidth, Packer.ofList, Packer.cut_bytes position h]
  rfl

theorem charField_le {c : Char} (h : c.toNat ≤ 0xFF) :
    charField place c = .ok (.literal c.toNat.toUInt16 8) := by
  have hlow : ∀ n ≤ 0xFF, Segment.ofValue n.toUInt16 8 = .literal n.toUInt16 8 := by decide +kernel
  rw [charField, if_pos h, hlow c.toNat h]
  rfl

theorem charField_gt {c : Char} (h : 0xFF < c.toNat) :
    charField place c = fail (.numberOutOfBounds place (lit ".ascii") 8 (Quoted.quoteChar c)) :=
  if_neg (by omega)

theorem ascii_spellsAll (h : Quoted.SpellsAll cs body) :
    ascii position ⟨place, doubleQuote :: (body ++ [doubleQuote])⟩ = cs.mapM (charField place) >>= pack position := by
  have hchars := Utf8.chars_encodeAll cs
  simp only [ascii, Quoted.unquote?_spellsAll h, hchars]

theorem ascii_eq_ok (h : Quoted.SpellsAll cs body) (hc : ∀ c ∈ cs, c.toNat ≤ 0xFF) :
    ascii position ⟨place, doubleQuote :: (body ++ [doubleQuote])⟩ =
      .ok (cs.map fun c => { segments := [.literal c.toNat.toUInt16 8], position }) := by
  have hfields : cs.mapM (charField place) = .ok (cs.map fun c => .literal c.toNat.toUInt16 8) := by
    rw [except_mapM_eq_ok, List.forall₂_map_right_iff, List.forall₂_same]
    exact fun c hm => charField_le (hc c hm)
  have hwidth : ∀ s ∈ cs.map fun c => Segment.literal c.toNat.toUInt16 8, s.width = 8 := by
    intro s hs
    obtain ⟨c, -, rfl⟩ := List.mem_map.mp hs
    rfl
  rw [ascii_spellsAll h, hfields]
  exact (pack_bytes_exact hwidth).trans (congrArg Except.ok List.map_map)

theorem ascii_eq_error (h : Quoted.SpellsAll cs body) {c : Char} (hc : cs.find? (0xFF < ·.toNat) = some c) :
    ascii position ⟨place, doubleQuote :: (body ++ [doubleQuote])⟩ =
      fail (.numberOutOfBounds place (lit ".ascii") 8 (Quoted.quoteChar c)) := by
  obtain ⟨hlarge, before, after, rfl, hbefore⟩ := List.find?_eq_some_iff_append.mp hc
  have hfields : (before ++ c :: after).mapM (charField place) =
      fail (.numberOutOfBounds place (lit ".ascii") 8 (Quoted.quoteChar c)) := by
    refine except_mapM_eq_error (fun b hb => ?_) (charField_gt (of_decide_eq_true hlarge))
    have hle : b.toNat ≤ 0xFF := by simpa using hbefore b hb
    exact ⟨_, charField_le hle⟩
  rw [ascii_spellsAll h, hfields]
  rfl

theorem item_ascii {literal : Lexeme} : e.item table strict (.data position (.ascii literal)) =
    ascii position literal >>= fun cells => pure (e.emit cells) := rfl

/-- Every byte is the number of a character. -/
theorem toNat_ofNat_byte (b : UInt8) : (Char.ofNat b.toNat).toNat = b.toNat := by
  revert b
  exact Text.forall_byte (by decide +kernel)

/-- However the characters of a literal are written, it is one token, in every place of a line and all by
itself, and it is encoded to one cell for every character: if all are below 256, to their numbers, and
otherwise to nothing, because of the first that is not. So a literal can hold any bytes. -/
theorem ascii_charwise (table : InstructionTable) (strict : Bool) (e : Emission) (position place : Position) :
    (∀ (cs : List Char) (body : Text), Quoted.SpellsAll cs body →
      let literal := doubleQuote :: (body ++ [doubleQuote])
      let i := Item.data position (.ascii ⟨place, literal⟩)
      (∀ (l : Scan.Line) (done : List Token) (column : Nat) (rest : Text), rest.head?.all Scan.isDelimiter →
        l.scanFrom done column (literal ++ rest) =
          l.scanFrom (⟨.string, l.position column literal.length, literal⟩ :: done) (column + literal.length) rest) ∧
      (∀ file, ∃ ts, Scan.tokens file literal = .ok ts ∧
        ts.map Token.content = [(.string, literal), (.endOfFile, [])]) ∧
      ((∀ c ∈ cs, c.toNat ≤ 0xFF) → e.item table strict i =
        .ok (e.emit (cs.map fun c => { segments := [.literal c.toNat.toUInt16 8], position }))) ∧
      ∀ c, cs.find? (0xFF < ·.toNat) = some c → e.item table strict i =
        fail (.numberOutOfBounds place (lit ".ascii") 8 (Quoted.quoteChar c))) ∧
    ∀ bytes : List UInt8, ∃ literal, e.item table strict (.data position (.ascii ⟨place, literal⟩)) =
      .ok (e.emit (bytes.map fun b => { segments := [.literal b.toUInt16 8], position })) := by
  constructor
  · intro cs body h literal i
    have hspells : Kind.string.Spells literal := ⟨rfl, by rw [Quoted.unquote?_spellsAll h]; rfl⟩
    refine ⟨fun l done column rest hrest => ?_, fun file => ?_, fun hc => ?_, fun c hc => ?_⟩
    · exact Scan.scanFrom_append l ⟨.string, literal, hspells⟩ done column (.inr hrest)
    · have hreads : Scan.Reads (literal ++ []) [(.string, literal)] :=
        .token (s := ⟨.string, literal, hspells⟩) (.inr (by rintro b ⟨⟩)) .nil
      rw [List.append_nil] at hreads
      exact Scan.exists_tokens_of_reads hreads file
    · rw [item_ascii, ascii_eq_ok h hc]
      rfl
    · rw [item_ascii, ascii_eq_error h hc]
      rfl
  · intro bytes
    have hle : ∀ c ∈ bytes.map fun b => Char.ofNat b.toNat, c.toNat ≤ 0xFF := by
      intro c hc
      obtain ⟨b, -, rfl⟩ := List.mem_map.mp hc
      rw [toNat_ofNat_byte]
      exact Nat.le_of_lt_succ b.toNat_lt
    obtain ⟨body, hbody⟩ := Quoted.exists_spellsAll (bytes.map fun b => Char.ofNat b.toNat)
    refine ⟨doubleQuote :: (body ++ [doubleQuote]), ?_⟩
    have hvalue : ∀ b : UInt8, b.toNat.toUInt16 = b.toUInt16 := Text.forall_byte (by decide +kernel)
    rw [item_ascii, ascii_eq_ok hbody hle, List.map_map]
    simp only [Function.comp_def, toNat_ofNat_byte, hvalue]
    rfl

/-- Characters in every kind of spelling, and one that does not fit before another one. -/
theorem ascii_charwise_mixed :
    let fits : List Char := ['A', 'ÿ', '\n', '"', '\x7f', '0', 'é', 'à']
    let spelled := lit "Aÿ\\n\\\"\\x7F\\060\\u00e9\\U000000E0"
    let i (body : Text) := Item.data {} (.ascii ⟨{}, doubleQuote :: (body ++ [doubleQuote])⟩)
    Quoted.SpellsAll fits spelled ∧ Quoted.SpellsAll ['ÿ', '€', 'Ā'] (lit "ÿ€\\u0100") ∧
      Emission.item .builtin true {} (i spelled) = .ok (Emission.emit {} ([65, 255, 10, 34, 127, 48, 233, 224].map
        fun n => { segments := [.literal n 8] })) ∧
      Emission.item .builtin true {} (i (lit "ÿ€\\u0100")) =
        fail (.numberOutOfBounds {} (lit ".ascii") 8 (lit "'€'")) := by
  intro fits spelled i
  have hspelled : Quoted.SpellsAll fits (Utf8.encode 'A' ++ (Utf8.encode 'ÿ' ++ (lit "\\n" ++ (lit "\\\"" ++
      (lit "\\x7F" ++ (lit "\\060" ++ (lit "\\u00e9" ++ (lit "\\U000000E0" ++ [])))))))) :=
    .cons (.raw (by decide)) <| .cons (.raw (by decide)) <| .cons (.letter (by decide)) <|
      .cons (.letter (by decide)) <| .cons (@Quoted.Spells.hex _ (lit "7F") (by decide) rfl (by decide +kernel)) <|
      .cons (@Quoted.Spells.octal _ (lit "060") (by decide) rfl (by decide +kernel)) <|
      .cons (@Quoted.Spells.short _ (lit "00e9") rfl (by decide +kernel)) <|
      .cons (@Quoted.Spells.long _ (lit "000000E0") rfl (by decide +kernel)) .nil
  have hlarge : Quoted.SpellsAll ['ÿ', '€', 'Ā'] (Utf8.encode 'ÿ' ++ (Utf8.encode '€' ++ (lit "\\u0100" ++ []))) :=
    .cons (.raw (by decide)) <| .cons (.raw (by decide)) <|
      .cons (@Quoted.Spells.short _ (lit "0100") rfl (by decide +kernel)) .nil
  have hfits : ∀ c ∈ fits, c.toNat ≤ 0xFF := by simp [fits]
  have hfirst : ['ÿ', '€', 'Ā'].find? (0xFF < ·.toNat) = some '€' := by decide +kernel
  have hquote : Quoted.quoteChar '€' = lit "'€'" := by decide +kernel
  have hcharwise := (ascii_charwise .builtin true {} {} {}).1
  have hfails := (hcharwise _ _ hlarge).2.2.2 '€' hfirst
  rw [hquote] at hfails
  exact ⟨hspelled, hlarge, (hcharwise fits _ hspelled).2.2.1 hfits, hfails⟩

end Encoding
end AccAsm
