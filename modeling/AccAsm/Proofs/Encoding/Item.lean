import AccAsm.Encoding.Item
import AccAsm.Proofs.Encoding.Lowering

/-! # Encoding of items

`Encodes table i cells`: the cells are whole, and with an address for every label that the item refers
to, they hold its bytes. Encoding a sound item gives such cells, or an error that `Item.Refuses`
describes (`item_meets`). -/

namespace AccAsm
open Text (lit)

namespace Item

/-- The labels whose addresses an item needs. -/
def references : Item → List Text
  | pseudo _ p => p.references
  | _ => []

/-- An operand has no room, or the item is a pseudo-instruction and the table lacks one of the
instructions that it is lowered to, or has it with another format. -/
def Refuses (table : InstructionTable) (i : Item) (e : EncodeError) : Prop :=
  e.IsOperand ∨ ∃ position p mnemonic want found, i = .pseudo position p ∧
    (mnemonic, want) ∈ p.primitives ∧ e = .tableMismatch position mnemonic want found ∧
    (table.find? mnemonic).bind Instruction.format = found ∧ found ≠ some want

end Item

/-- The cells hold the bytes of the item. -/
structure Encodes (table : InstructionTable) (i : Item) (cells : List Cell) : Prop where
  whole : ∀ c ∈ cells, c.Whole
  plain : ∀ c ∈ cells, c.label = []
  mentions : ∀ label ∈ i.references, ∃ c ∈ cells, c.Mentions label
  bytes : ∀ find? : Text → Option UInt16, (∀ label ∈ i.references, (find? label).isSome) →
    ∃ bs, i.bytes? table (fun label => (find? label).map UInt16.toNat) = some bs ∧
      cells.map (Cell.bits (addressOf find?)) = bs.map fun b => Bits.list 8 b.toNat

theorem Encodes.length {table : InstructionTable} {i : Item} {cells : List Cell}
    (h : Encodes table i cells) : cells.length = i.size := by
  obtain ⟨bs, hbs, hcells⟩ := h.bytes (fun _ => some 0) fun _ _ => rfl
  rw [← Item.length_bytes? hbs]
  simpa using congrArg List.length hcells

namespace Encoding
open Failure (Meets meets_ok meets_error)
variable {table : InstructionTable} {position : Position}

/-! ### Packing -/

theorem flatMap_byte (b : UInt8) : [b].flatMap (fun b => Bits.list 8 b.toNat) = Bits.list 8 b.toNat :=
  List.flatMap_singleton _ b

theorem flatMap_wordBytes (w : Nat) :
    (wordBytes w).flatMap (fun b => Bits.list 8 b.toNat) = Bits.list 16 w := by
  rw [Bits.list_add 8 8, wordBytes, List.flatMap_cons, List.flatMap_singleton, Bits.list_toUInt8,
    Bits.list_toUInt8]
  exact congrArg _ (Bits.list_mod (Nat.le_refl 8) w)

theorem packed_word {fields : List Segment} {cells : List Cell} {address : Text → Nat} {w : Nat}
    (hp : Packed position fields cells) (hf : Segment.Forms address fields 16 w) :
    cells.map (Cell.bits address) = (wordBytes w).map fun b => Bits.list 8 b.toNat :=
  hp.map_bits (by rw [hf.bits, flatMap_wordBytes])

theorem pack_eq_ok {fields : List Segment} {cells : List Cell} :
    pack position fields = .ok cells ↔ (Packer.ofList fields).cells position = .ok cells :=
  except_mapError_eq_ok

theorem pack_word {fields : List Segment} {address : Text → Nat} {w : Nat}
    (hf : Segment.Forms address fields 16 w) (position : Position) :
    ∃ cells, pack position fields = .ok cells ∧ Packed position fields cells := by
  obtain ⟨cells, hc, hp⟩ := Packer.packed_cells hf.wellFormed (by rw [hf.totalWidth]; rfl) position
  exact ⟨cells, pack_eq_ok.mpr hc, hp⟩

/-- Fields that do not depend on labels are packed into their bytes. -/
theorem pack_bytes {fields : List Segment} {bs : List UInt8} (hw : ∀ s ∈ fields, s.WellFormed)
    (hb : ∀ address, fields.flatMap (Segment.bits address) = bs.flatMap fun b => Bits.list 8 b.toNat)
    (position : Position) :
    ∃ cells, pack position fields = .ok cells ∧ Packed position fields cells ∧
      ∀ address, cells.map (Cell.bits address) = bs.map fun b => Bits.list 8 b.toNat := by
  have hwidth : Segment.totalWidth fields = bs.length * cellBits := by
    have hlen := congrArg List.length (hb fun _ => 0)
    rw [Segment.length_flatMap_bits, List.length_flatMap] at hlen
    rw [hlen, List.map_eq_replicate_iff.mpr fun b _ => Bits.length_list 8 b.toNat,
      List.sum_replicate_nat]
  obtain ⟨cells, hc, hp⟩ := Packer.packed_cells hw (by rw [hwidth, Nat.mul_mod_left]) position
  exact ⟨cells, pack_eq_ok.mpr hc, hp, fun address => hp.map_bits (hb address)⟩

/-! ### Data -/

/-- Every element is put out as one field, which has the bits of its bytes. -/
theorem exists_bytes_of_fields {α β : Type} {g : α → Option β} {out : β → List UInt8} {l : List α}
    {ss : List Segment}
    (h : List.Forall₂ (fun a s => ∃ b, g a = some b ∧ s.WellFormed ∧
      ∀ address, s.bits address = (out b).flatMap fun b => Bits.list 8 b.toNat) l ss) :
    ∃ bs, l.mapM g = some bs ∧ (∀ s ∈ ss, s.WellFormed) ∧ ∀ address,
      ss.flatMap (Segment.bits address) = (bs.flatMap out).flatMap fun b => Bits.list 8 b.toNat := by
  induction h with
  | nil => exact ⟨[], rfl, by simp, fun _ => rfl⟩
  | cons ha _ ih =>
    obtain ⟨b, hb, hw, hbits⟩ := ha
    obtain ⟨bs, hbs, hws, hrest⟩ := ih
    refine ⟨b :: bs, ?_, List.forall_mem_cons.mpr ⟨hw, hws⟩, fun address => ?_⟩
    · rw [List.mapM_cons, hb, hbs]
      rfl
    · rw [List.flatMap_cons, hbits, hrest, List.flatMap_cons, List.flatMap_append]

theorem spells_numbers {values : List Lexeme} (hs : ∀ t ∈ Lexeme.numbers values, t.Legible) :
    ∀ n ∈ values, Kind.number.Spells n.text := by
  intro n hn
  refine hs (n.token .number) ?_ rfl rfl
  cases values with
  | nil => cases hn
  | cons m values =>
    rcases List.mem_cons.mp hn with rfl | hn
    · exact .head _
    · exact .tail _ (List.mem_flatMap.mpr ⟨n, hn, .tail _ (.head _)⟩)

theorem pack_meets {α β : Type} (g : α → Option β) (out : β → List UInt8) {l : List α}
    {ss : List Segment} {d : Data}
    (h : List.Forall₂ (fun a s => ∃ b, g a = some b ∧ s.WellFormed ∧
      ∀ address, s.bits address = (out b).flatMap fun b => Bits.list 8 b.toNat) l ss)
    (hd : ∀ bs, l.mapM g = some bs → d.bytes? = some (bs.flatMap out)) :
    Meets EncodeError.IsOperand (Encodes table (.data position d)) (pack position ss) := by
  obtain ⟨bs, hbs, hw, hbits⟩ := exists_bytes_of_fields h
  obtain ⟨cells, hc, hp, hcells⟩ := pack_bytes hw hbits position
  rw [hc]
  exact meets_ok ⟨hp.whole, fun c hc => (hp.plain c hc).1, by simp [Item.references],
    fun find? _ => ⟨_, hd bs hbs, hcells _⟩⟩

/-- The size of some space is read by its value, however many digits it has. -/
theorem space_eq {count : Lexeme} (hs : Kind.number.Spells count.text) (position : Position) :
    space position count =
      if 0 ≤ Numeral.value count.text ∧ Numeral.value count.text ≤ 65536 then
        .ok (List.replicate (Numeral.value count.text).toNat { segments := [zeros 8], position })
      else fail (.numberOutOfBounds count.position (lit ".space") 16 count.text) := by
  have hcap : (Bits.capacity wordBits : Int) = 65536 := rfl
  unfold space
  rw [Numeral.readInt64_eq hs]
  by_cases hr : -(Numeral.maxMagnitude : Int) ≤ Numeral.value count.text ∧
      Numeral.value count.text < Numeral.maxMagnitude
  · simp only [if_pos hr, hcap]
    by_cases hn : 0 ≤ Numeral.value count.text ∧ Numeral.value count.text ≤ 65536
    · rw [if_neg (by omega), if_pos hn]
      rfl
    · rw [if_pos (by omega), if_neg hn]
      rfl
  · rw [if_neg hr, if_neg (by simp only [Numeral.maxMagnitude] at hr; omega)]
    rfl

theorem space_meets {count : Lexeme} (hs : Kind.number.Spells count.text) :
    Meets EncodeError.IsOperand (Encodes table (.data position (.space count)))
      (space position count) := by
  rw [space_eq hs]
  by_cases hn : 0 ≤ Numeral.value count.text ∧ Numeral.value count.text ≤ 65536
  · rw [if_pos hn]
    refine meets_ok ⟨?_, ?_, by simp [Item.references], fun find? _ => ⟨_, if_pos hn, ?_⟩⟩
    · intro c hc
      obtain ⟨-, rfl⟩ := List.mem_replicate.mp hc
      exact ⟨fun s hs => List.mem_singleton.mp hs ▸ Segment.wellFormed_ofValue _ _, rfl⟩
    · intro c hc
      obtain ⟨-, rfl⟩ := List.mem_replicate.mp hc
      rfl
    · rw [List.map_replicate, List.map_replicate]
      rfl
  · rw [if_neg hn]
    exact meets_error trivial

theorem numberFields_meets {values : List Lexeme} (hs : ∀ n ∈ values, Kind.number.Spells n.text)
    {width : UInt8} (h₁ : 1 ≤ width.toNat) (h₁₆ : width.toNat ≤ 16) (context : Text) :
    Meets EncodeError.IsOperand
      (List.Forall₂ (fun n s => ∃ v, n.field? width.toNat = some v ∧ s.WellFormed ∧
        ∀ address, s.bits address = Bits.list width.toNat v) values)
      (numberFields context width values) := by
  refine Meets.mapM fun n hn => ?_
  refine (number_meets (hs n hn) h₁ h₁₆ context).bind fun r hr => ?_
  exact meets_ok ⟨_, hr, Segment.wellFormed_ofValue _ _, fun _ => Segment.bits_ofValue _ _⟩

theorem charField_meets (c : Char) :
    Meets EncodeError.IsOperand (fun s => ∃ b, charByte? c = some b ∧ s.WellFormed ∧
      ∀ address, s.bits address = Bits.list 8 b.toNat) (charField position c) := by
  unfold charField charByte?
  split
  next hc =>
    refine meets_ok ⟨_, rfl, Segment.wellFormed_ofValue _ _, fun _ => ?_⟩
    rw [Segment.bits_ofValue, Bits.list_toUInt8, Nat.toUInt16_eq, UInt16.toNat_ofNat']
    exact Bits.list_mod (by decide) _
  · exact meets_error trivial

theorem data_meets {d : Data} (hs : ∀ t ∈ d.tokens, t.Legible) :
    Meets EncodeError.IsOperand (Encodes table (.data position d)) (data position d) := by
  cases d with
  | space count => exact space_meets (hs _ (.head _) rfl rfl)
  | words values =>
    refine (numberFields_meets (spells_numbers hs) (by decide) (by decide) _).bind fun ss hss => ?_
    refine pack_meets (fun n : Lexeme => (n.field? 16).map wordBytes) id (hss.imp ?_) fun bs hbs => ?_
    · rintro n s ⟨v, hv, hw, hbits⟩
      refine ⟨wordBytes v, Option.map_eq_some_iff.mpr ⟨v, hv, rfl⟩, hw, fun address => ?_⟩
      exact (hbits address).trans (flatMap_wordBytes v).symm
    · rw [Data.bytes?, hbs, List.flatMap_id]
      rfl
  | bytes values =>
    refine (numberFields_meets (spells_numbers hs) (by decide) (by decide) _).bind fun ss hss => ?_
    refine pack_meets (fun n : Lexeme => (n.field? 8).map Nat.toUInt8) (fun b => [b]) (hss.imp ?_)
      fun bs hbs => ?_
    · rintro n s ⟨v, hv, hw, hbits⟩
      refine ⟨v.toUInt8, Option.map_eq_some_iff.mpr ⟨v, hv, rfl⟩, hw, fun address => ?_⟩
      exact (hbits address).trans (Bits.list_toUInt8 v ▸ (flatMap_byte v.toUInt8).symm)
    · rw [Data.bytes?, hbs, List.flatMap_singleton']
  | ascii literal =>
    obtain ⟨text, ht⟩ := Option.isSome_iff_exists.mp (hs _ (.head _) rfl rfl).2
    have ht : Quoted.unquote? literal.text = some text := ht
    simp only [data, ascii, ht]
    refine (Meets.mapM fun c _ => charField_meets c).bind fun ss hss => ?_
    refine pack_meets charByte? (fun b => [b]) (hss.imp ?_) fun bs hbs => ?_
    · rintro c s ⟨b, hb, hw, hbits⟩
      exact ⟨b, hb, hw, fun address => (hbits address).trans (flatMap_byte b).symm⟩
    · rw [Data.bytes?, ht, Option.bind_some, hbs, List.flatMap_singleton']

/-! ### Instructions -/

/-- The opcode of a mnemonic, or what the table has instead of the format. -/
theorem forms_opcode {address : Text → Nat} {row : Instruction} (h : row ∈ table.rows) :
    Segment.Forms address [.ofValue row.opcode.toUInt16 6] 6 row.opcode.toNat := by
  have hlt : row.opcode.toNat < 64 := table.opcode_lt row h
  have hval : row.opcode.toUInt16.toNat = row.opcode.toNat := UInt8.toNat_toUInt16 _
  rw [← hval]
  exact Segment.forms_ofValue (w := 6) (by rw [hval]; exact hlt)

theorem opcodeField_meets (table : InstructionTable) (position : Position) (mnemonic : Text)
    (format : Format) :
    Meets (fun e => ∃ found, e = .tableMismatch position mnemonic format found ∧
        (table.find? mnemonic).bind Instruction.format = found ∧ found ≠ some format)
      (fun s => ∃ i, table.find? mnemonic = some i ∧
        ∀ address, Segment.Forms address [s] 6 i.opcode.toNat)
      (opcodeField table position mnemonic format) := by
  unfold opcodeField
  split
  next hf => exact meets_error ⟨none, rfl, by rw [hf]; rfl, fun h => nomatch h⟩
  next i hf =>
    split
    next hi =>
      exact meets_ok ⟨i, hf, fun _ => forms_opcode (List.mem_of_find?_eq_some hf)⟩
    next hi => exact meets_error ⟨i.format, rfl, by rw [hf]; rfl, hi⟩

theorem instruction_meets {mnemonic : Text} {operands : Operands} {opcode : UInt8}
    (ht : table.find? mnemonic = some ⟨mnemonic, some operands.format, opcode⟩)
    (hs : ∀ t ∈ operands.tokens, t.Legible) (strict : Bool) :
    Meets EncodeError.IsOperand (Encodes table (.instruction position mnemonic operands))
      (instruction table strict position mnemonic operands) := by
  refine ((opcodeField_meets table position mnemonic operands.format).mono ?_ fun _ h => h).bind
    fun s ⟨i, hi, hop⟩ => ?_
  · rintro e ⟨found, -, rfl, hne⟩
    exact absurd (by rw [ht]; rfl) hne
  refine (fields_meets hs strict mnemonic).bind fun ss ⟨low, hlow, hform⟩ => ?_
  have hword (address : Text → Nat) :
      Segment.Forms address (s :: ss) 16 (i.opcode.toNat * 1024 + low) := (hop address).append (hform address)
  obtain ⟨cells, hc, hp⟩ := pack_word (hword fun _ => 0) position
  rw [hc]
  refine meets_ok ⟨hp.whole, fun c hc => (hp.plain c hc).1, by simp [Item.references], fun find? _ =>
    ⟨_, ?_, packed_word hp (hword _)⟩⟩
  rw [Item.bytes?, hlow]
  show Step.bytes? table ⟨mnemonic, low⟩ = _
  rw [Step.bytes?, hi]
  rfl

/-- The cells hold the opcode and the fields of a primitive. -/
def Assembles (table : InstructionTable) (position : Position) (q : Primitive) (cells : List Cell) : Prop :=
  ∃ i s, table.find? q.mnemonic = some i ∧ (∀ address, Segment.Forms address [s] 6 i.opcode.toNat) ∧
    Packed position (s :: q.fields) cells

theorem primitive_meets {q : Primitive} {address : Text → Nat} {low : Nat}
    (hf : Segment.Forms address q.fields 10 low) :
    Meets (fun e => ∃ found, e = .tableMismatch position q.mnemonic q.format found ∧
        (table.find? q.mnemonic).bind Instruction.format = found ∧ found ≠ some q.format)
      (Assembles table position q) (primitive table position q) := by
  refine (opcodeField_meets table position q.mnemonic q.format).bind fun s ⟨i, hi, hop⟩ => ?_
  have hword := (hop address).append hf
  have hwidth : (Packer.ofList (s :: q.fields)).width = instructionBits := hword.totalWidth
  obtain ⟨cells, hc, hp⟩ := pack_word hword position
  simp only [hwidth, if_true]
  have hcells : ofFault ((Packer.ofList (s :: q.fields)).cells position) = .ok cells := hc
  rw [hcells]
  exact meets_ok ⟨i, s, hi, hop, hp⟩

/-- Primitives that form the bits of steps are assembled to their bytes. -/
theorem exists_bytes_of_steps {address : Text → Nat} {sequence : List Primitive}
    {pieces : List (List Cell)} {steps : List Step}
    (hp : List.Forall₂ (Assembles table position) sequence pieces)
    (hs : List.Forall₂ (Shows address) sequence steps) :
    ∃ words, steps.mapM (Step.bytes? table) = some words ∧
      pieces.flatten.map (Cell.bits address) = words.flatten.map fun b => Bits.list 8 b.toNat := by
  induction hp generalizing steps with
  | nil =>
    cases hs
    exact ⟨[], rfl, rfl⟩
  | cons hq _ ih =>
    obtain _ | @⟨_, step, _, _, ⟨hm, hform⟩, hs⟩ := hs
    obtain ⟨i, s, hi, hop, hpack⟩ := hq
    obtain ⟨words, hwords, hrest⟩ := ih hs
    refine ⟨wordBytes (i.opcode.toNat * 1024 + step.low) :: words, ?_, ?_⟩
    · rw [List.mapM_cons, hwords, Step.bytes?, ← hm, hi]
      rfl
    · rw [List.flatten_cons, List.map_append, hrest, List.flatten_cons, List.map_append,
        packed_word hpack ((hop address).append hform)]
      rfl

theorem pseudo_meets {p : Pseudo} (hp : p.Formed) (hs : ∀ t ∈ p.tokens, t.Legible) (strict : Bool) :
    Meets (Item.Refuses table (.pseudo position p)) (Encodes table (.pseudo position p))
      (pseudo table strict position p) := by
  refine ((lower_meets hp hs strict position).mono (fun _ => .inl) fun _ h => h).bind
    fun sequence hlow => ?_
  obtain ⟨_, -, hwidth⟩ := hlow.shows (fun _ => some 0) fun _ _ => rfl
  have hprim : ∀ q ∈ sequence, Meets (Item.Refuses table (.pseudo position p))
      (Assembles table position q) (primitive table position q) := by
    intro q hq
    obtain ⟨_, -, -, hform⟩ := exists_of_forall₂ hwidth hq
    refine (primitive_meets hform).mono ?_ fun _ h => h
    rintro e ⟨found, he, hfound, hne⟩
    refine .inr ⟨position, p, q.mnemonic, q.format, found, rfl, ?_, he, hfound, hne⟩
    rw [← hlow.primitives]
    exact List.mem_map.mpr ⟨q, hq, rfl⟩
  refine (Meets.mapM hprim).bind fun pieces hpieces => meets_ok ⟨?_, ?_, ?_, fun find? hf => ?_⟩
  · intro c hc
    obtain ⟨cells, hcells, hc⟩ := List.mem_flatten.mp hc
    obtain ⟨q, -, i, s, -, -, hpack⟩ := exists_of_forall₂ hpieces.flip hcells
    exact hpack.whole c hc
  · intro c hc
    obtain ⟨cells, hcells, hc⟩ := List.mem_flatten.mp hc
    obtain ⟨q, -, i, s, -, -, hpack⟩ := exists_of_forall₂ hpieces.flip hcells
    exact (hpack.plain c hc).1
  · intro label hl
    obtain ⟨q, hq, s, hs, hment⟩ := hlow.mentions label hl
    obtain ⟨cells, hcells, i, o, -, -, hpack⟩ := exists_of_forall₂ hpieces hq
    obtain ⟨c, hc, hment⟩ := hpack.mentions s (.tail _ hs) label hment
    exact ⟨c, List.mem_flatten.mpr ⟨cells, hcells, hc⟩, hment⟩
  · obtain ⟨steps, hsteps, hshows⟩ := hlow.shows find? hf
    obtain ⟨words, hwords, hbits⟩ := exists_bytes_of_steps hpieces hshows
    refine ⟨words.flatten, ?_, hbits⟩
    rw [Item.bytes?, hsteps]
    show steps.mapM (Step.bytes? table) >>= _ = _
    rw [hwords]
    rfl

/-- A sound item is encoded, or refused for a reason that lies in the program or the table. -/
theorem item_meets {i : Item} (hi : i.Sound table) (strict : Bool) :
    Meets (Item.Refuses table i) (Encodes table i) (item table strict i) := by
  obtain ⟨⟨name, rfl⟩ | hdata | hcode, htok⟩ := hi
  · exact meets_ok ⟨by simp, by simp, by simp [Item.references], fun _ _ => ⟨[], rfl, rfl⟩⟩
  · obtain ⟨position, hform⟩ := hdata
    exact (data_meets fun t ht => htok t (.tail _ ht)).mono (fun _ => .inl) fun _ h => h
  · cases hcode with
    | instruction position _ ht =>
      exact (instruction_meets ht (fun t h => htok t (.tail _ h)) strict).mono (fun _ => .inl) fun _ h => h
    | pseudo position hp => exact pseudo_meets hp (fun t h => htok t (.tail _ h)) strict

end Encoding
end AccAsm
