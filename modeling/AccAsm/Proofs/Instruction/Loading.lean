import AccAsm.Instruction.Load
import AccAsm.Proofs.Instruction.Table
import AccAsm.Proofs.Text.Digits
import AccAsm.Proofs.Traversal

/-! # Loaded instruction tables

A `Record` has the three fields of a line of a table as they are written. If all fields are ASCII text, the
records after the header make a table exactly if each of them is `Record.Valid` and no two mnemonics differ
only in letter case. The table then has a row for each record and answers for its mnemonic, in any letter case,
and for nothing else (`InstructionTable.ofRecords_exact`). -/

namespace AccAsm
open Text (lit)

/-- The fields of a line of a table, as they are written. -/
structure Record where
  mnemonic : Text
  tag : Text
  opcode : Text
deriving DecidableEq, Repr

namespace Record

def fields (r : Record) : List Text := [r.mnemonic, r.tag, r.opcode]

def IsAscii (r : Record) : Prop := ∀ t ∈ r.fields, t.IsAscii

instance (r : Record) : Decidable r.IsAscii := inferInstanceAs (Decidable (∀ t ∈ r.fields, t.IsAscii))

/-- The mnemonic that the table has for a record. -/
def key (r : Record) : Text := r.mnemonic.stripped.map Text.lowerByte

/-- The tag names the format, in any letter case. -/
def HasFormat (r : Record) (f : Format) : Prop := r.tag.stripped.map Text.lowerByte = f.tag

/-- The opcode is written in binary, with any number of zeros in front. -/
def HasOpcode (r : Record) (v : Nat) : Prop := Numeral.valueIn? 2 r.opcode.stripped = some v

instance (r : Record) (f : Format) : Decidable (r.HasFormat f) :=
  inferInstanceAs (Decidable (r.tag.stripped.map Text.lowerByte = f.tag))

instance (r : Record) (v : Nat) : Decidable (r.HasOpcode v) :=
  inferInstanceAs (Decidable (Numeral.valueIn? 2 r.opcode.stripped = some v))

structure Valid (r : Record) : Prop where
  mnemonic : r.mnemonic.stripped ≠ []
  format : ∃ f, r.HasFormat f
  opcode : ∃ v < 64, r.HasOpcode v

/-- The row of a record. -/
def Gives (r : Record) (i : Instruction) : Prop :=
  ∃ f v, r.HasFormat f ∧ r.HasOpcode v ∧ v < 64 ∧ i = ⟨r.key, some f, v.toUInt8⟩

variable {r : Record} {i : Instruction}

theorem exists_gives_iff : (∃ i, r.Gives i) ↔ (∃ f, r.HasFormat f) ∧ ∃ v < 64, r.HasOpcode v := by
  constructor
  · rintro ⟨i, f, v, hf, ho, hv, -⟩
    exact ⟨⟨f, hf⟩, v, hv, ho⟩
  · rintro ⟨⟨f, hf⟩, v, hv, ho⟩
    exact ⟨_, f, v, hf, ho, hv, rfl⟩

theorem Gives.mnemonic (h : r.Gives i) : i.mnemonic = r.key := by
  obtain ⟨f, v, -, -, -, rfl⟩ := h
  rfl

theorem Gives.opcode_lt (h : r.Gives i) : i.opcode.toNat < opcodeLimit := by
  obtain ⟨f, v, -, -, hv, rfl⟩ := h
  show v % 256 < 64
  omega

end Record

/-! ### Rows -/

theorem Format.tag_injective : Function.Injective tag := by
  intro f g
  cases f <;> cases g <;> decide +kernel

theorem Format.parse?_eq_some {tag : Text} (ht : tag.IsAscii) {f : Format} :
    parse? tag = some f ↔ tag.stripped.map Text.lowerByte = f.tag := by
  have hfind : ∀ f : Format, all.find? (·.tag == f.tag) = some f := by
    intro f
    cases f <;> decide +kernel
  simp only [parse?, Blank.trim_eq ht, LowerCase.lower_eq_map ht.stripped]
  constructor
  · intro h
    have hb := List.find?_some h
    exact (eq_of_beq hb).symm
  · intro h
    rw [h]
    exact hfind f

namespace InstructionTable
variable {r : Record} {i : Instruction} {rows : List Instruction} {records : List Record} {n : Nat}
  {t : InstructionTable}

theorem parseRow_eq_ok (hr : r.IsAscii) :
    parseRow n r.mnemonic r.tag r.opcode = .ok i ↔ r.Gives i := by
  obtain ⟨hm, ht, ho, -⟩ : r.mnemonic.IsAscii ∧ r.tag.IsAscii ∧ r.opcode.IsAscii ∧ True := by
    simpa [Record.IsAscii, Record.fields] using hr
  have hread (v : Nat) : Numeral.readUnsigned 2 (opcodeLimit - 1) (Blank.trim r.opcode) = .ok v ↔
      r.HasOpcode v ∧ v < 64 := by
    rw [Blank.trim_eq ho, Numeral.readUnsigned_eq_ok (by omega) (by omega)]
    exact and_congr_right fun _ => Nat.lt_succ_iff.symm
  have hkey : LowerCase.lower (Blank.trim r.mnemonic) = r.key := by
    rw [Blank.trim_eq hm, LowerCase.lower_eq_map hm.stripped]
    rfl
  rw [parseRow, hkey]
  constructor
  · intro h
    split at h
    next f hf =>
      split at h
      next v hv =>
        cases h
        exact ⟨f, v, (Format.parse?_eq_some ht).mp hf, ((hread v).mp hv).1, ((hread v).mp hv).2, rfl⟩
      next => cases h
    next => cases h
  · rintro ⟨f, v, hf, hv, hlt, rfl⟩
    rw [(Format.parse?_eq_some ht).mpr hf, (hread v).mpr ⟨hv, hlt⟩]
    rfl

theorem parseRows_eq_ok (hr : ∀ r ∈ records, r.IsAscii) :
    parseRows n (records.map Record.fields) = .ok rows ↔ List.Forall₂ Record.Gives records rows := by
  induction records generalizing n rows with
  | nil =>
    rw [List.map_nil, List.forall₂_nil_left_iff]
    exact ⟨fun h => (Except.ok.inj h).symm, fun h => h ▸ rfl⟩
  | cons r records ih =>
    obtain ⟨hr, hrest⟩ := List.forall_mem_cons.mp hr
    rw [List.map_cons, parseRows, except_bind_eq_ok, List.forall₂_cons_left_iff]
    constructor
    · rintro ⟨i, hi, h⟩
      obtain ⟨is, his, h⟩ := except_bind_eq_ok.mp h
      cases h
      exact ⟨i, is, (parseRow_eq_ok hr).mp hi, (ih hrest).mp his, rfl⟩
    · rintro ⟨i, is, hi, his, rfl⟩
      exact ⟨i, (parseRow_eq_ok hr).mpr hi, except_bind_eq_ok.mpr ⟨is, (ih hrest).mpr his, rfl⟩⟩

/-! ### Tables -/

theorem map_mnemonic_of_gives (h : List.Forall₂ Record.Gives records rows) :
    rows.map Instruction.mnemonic = records.map Record.key := by
  induction h with
  | nil => rfl
  | cons hi _ ih => rw [List.map_cons, List.map_cons, hi.mnemonic, ih]

/-- A table is loaded if the records after the header give its rows. -/
theorem ofRecords_eq_ok {header : Record} (hr : ∀ r ∈ records, r.IsAscii) :
    ofRecords ((header :: records).map Record.fields) = .ok t ↔ List.Forall₂ Record.Gives records t.rows := by
  rw [List.map_cons, ofRecords, except_bind_eq_ok]
  constructor
  · rintro ⟨rows, hrows, ht⟩
    rw [ofList_eq_ok.mp (except_mapError_eq_ok.mp ht)]
    exact (parseRows_eq_ok hr).mp hrows
  · intro h
    exact ⟨t.rows, (parseRows_eq_ok hr).mpr h, except_mapError_eq_ok.mpr (ofList_eq_ok.mpr rfl)⟩

/-- Records give the rows of a table exactly if they are valid and have different mnemonics. -/
theorem exists_gives_rows_iff :
    (∃ t : InstructionTable, List.Forall₂ Record.Gives records t.rows) ↔
      (∀ r ∈ records, r.Valid) ∧ records.Pairwise fun r r' => r.key ≠ r'.key := by
  constructor
  · rintro ⟨t, h⟩
    refine ⟨fun r hr => ?_, ?_⟩
    · obtain ⟨i, hi, hg⟩ := exists_of_forall₂ h hr
      obtain ⟨hf, ho⟩ := Record.exists_gives_iff.mp ⟨i, hg⟩
      refine ⟨fun hempty => t.mnemonic_ne_nil i hi ?_, hf, ho⟩
      rw [hg.mnemonic, Record.key, hempty, List.map_nil]
    · have hnodup := t.nodup
      rw [map_mnemonic_of_gives h] at hnodup
      exact List.pairwise_map.mp hnodup
  · rintro ⟨hvalid, hkeys⟩
    obtain ⟨rows, h⟩ := exists_forall₂ fun r hr =>
      Record.exists_gives_iff.mpr ⟨(hvalid r hr).format, (hvalid r hr).opcode⟩
    have hrow (i : Instruction) (hi : i ∈ rows) : ∃ r ∈ records, r.Gives i := exists_of_forall₂ h.flip hi
    refine ⟨⟨rows, fun i hi => ?_, fun i hi => ?_, ?_⟩, h⟩
    · obtain ⟨r, hr, hg⟩ := hrow i hi
      rw [hg.mnemonic, Record.key, ne_eq, List.map_eq_nil_iff]
      exact (hvalid r hr).mnemonic
    · obtain ⟨r, -, hg⟩ := hrow i hi
      exact hg.opcode_lt
    · rw [map_mnemonic_of_gives h]
      exact List.pairwise_map.mpr hkeys

/-- Every spelling of the mnemonic of a record is found. -/
theorem find?_eq_some_of_gives (h : List.Forall₂ Record.Gives records t.rows) (hr : r ∈ records) {f : Format}
    {v : Nat} (hf : r.HasFormat f) (hv : r.HasOpcode v) {m : Text} (hm : m.IsAscii)
    (hk : m.map Text.lowerByte = r.key) : t.find? m = some ⟨r.key, some f, v.toUInt8⟩ := by
  obtain ⟨i, hi, f', v', hf', hv', -, rfl⟩ := exists_of_forall₂ h hr
  obtain rfl : f' = f := Format.tag_injective (hf'.symm.trans hf)
  obtain rfl : v' = v := Option.some.inj (hv'.symm.trans hv)
  exact find?_eq_some.mpr ⟨hi, by rw [LowerCase.lower_eq_map hm, hk]⟩

/-- Only the mnemonics of the records are found. -/
theorem find?_eq_none_of_gives (h : List.Forall₂ Record.Gives records t.rows) {m : Text} (hm : m.IsAscii)
    (hk : ∀ r ∈ records, m.map Text.lowerByte ≠ r.key) : t.find? m = none := by
  rw [Option.eq_none_iff_forall_ne_some]
  intro i hi
  obtain ⟨hmem, hmnemonic⟩ := find?_eq_some.mp hi
  obtain ⟨r, hr, hg⟩ := exists_of_forall₂ h.flip hmem
  refine hk r hr ?_
  rw [← LowerCase.lower_eq_map hm, ← hmnemonic]
  exact Record.Gives.mnemonic hg

/-- Records of ASCII text make a table exactly if there is a header, the records after it are valid and no two of
them have the same mnemonic in any letter case. It has a row for each of these records, finds it by every spelling
of its mnemonic, and finds nothing else. -/
theorem ofRecords_exact (records : List Record) (ha : ∀ r ∈ records, r.IsAscii) :
    (∀ text, Csv.read 3 text = .ok (records.map Record.fields) →
      load text = ofRecords (records.map Record.fields)) ∧
    ((∃ t, ofRecords (records.map Record.fields) = .ok t) ↔
      records ≠ [] ∧ (∀ r ∈ records.tail, r.Valid) ∧ records.tail.Pairwise fun r r' => r.key ≠ r'.key) ∧
    ∀ t, ofRecords (records.map Record.fields) = .ok t →
      t.size = records.tail.length ∧
      (∀ r ∈ records.tail, ∀ f v, r.HasFormat f → r.HasOpcode v →
        ∀ m : Text, m.IsAscii → m.map Text.lowerByte = r.key → t.find? m = some ⟨r.key, some f, v.toUInt8⟩) ∧
      ∀ m : Text, m.IsAscii → (∀ r ∈ records.tail, m.map Text.lowerByte ≠ r.key) → t.find? m = none := by
  refine ⟨fun text h => by rw [load, h]; rfl, ?_⟩
  cases records with
  | nil => simp [ofRecords]
  | cons header records =>
    have hrest := (List.forall_mem_cons.mp ha).2
    simp only [ofRecords_eq_ok hrest, List.tail_cons, ne_eq, reduceCtorEq, not_false_eq_true, true_and]
    refine ⟨exists_gives_rows_iff, fun t h => ⟨h.length_eq.symm, ?_, ?_⟩⟩
    · intro r hr f v hf hv m hm hk
      exact find?_eq_some_of_gives h hr hf hv hm hk
    · intro m hm hk
      exact find?_eq_none_of_gives h hm hk

/-- Blanks, letter case and leading zeros: a table of two rows under a header that is none. -/
theorem ofRecords_exact_spellings :
    let records : List Record := [⟨lit "Name", lit "?", lit "Code"⟩, ⟨lit " aDD\t", lit "R ", lit "0000000101"⟩,
      ⟨lit "nop", lit "n", lit " 111111"⟩]
    let text := lit "Name,?,Code\n\" aDD\t\",R ,0000000101\n# none\nnop,n,\" 111111\"\n"
    (∀ r ∈ records, r.IsAscii) ∧ Csv.read 3 text = .ok (records.map Record.fields) ∧
      ∃ t, load text = .ok t ∧ t.size = 2 ∧ t.find? (lit "Add") = some ⟨lit "add", some .r, 5⟩ ∧
        t.find? (lit " aDD\t") = none := by
  intro records text
  have ha : ∀ r ∈ records, r.IsAscii := by decide +kernel
  have hread : Csv.read 3 text = .ok (records.map Record.fields) := by decide +kernel
  obtain ⟨hload, hexists, htable⟩ := ofRecords_exact records ha
  have hvalid : ∀ r ∈ records.tail, r.Valid := by
    simp only [records, List.tail_cons, List.forall_mem_cons]
    refine ⟨⟨by decide +kernel, ⟨.r, by decide +kernel⟩, 5, by decide, by decide +kernel⟩,
      ⟨by decide +kernel, ⟨.n, by decide +kernel⟩, 63, by decide, by decide +kernel⟩, by simp⟩
  obtain ⟨t, ht⟩ := hexists.mpr ⟨List.cons_ne_nil _ _, hvalid, by decide +kernel⟩
  obtain ⟨hsize, hfound, hnone⟩ := htable t ht
  have hadd : t.find? (lit "Add") = some ⟨lit "add", some .r, 5⟩ :=
    hfound ⟨lit " aDD\t", lit "R ", lit "0000000101"⟩ (.head _) .r 5 (by decide +kernel) (by decide +kernel) _
      (by decide +kernel) (by decide +kernel)
  exact ⟨ha, hread, t, (hload text hread).trans ht, hsize, hadd, hnone _ (by decide +kernel) (by decide +kernel)⟩

end InstructionTable
end AccAsm
