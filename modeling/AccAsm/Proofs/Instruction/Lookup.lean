import AccAsm.Proofs.Instruction.Table
import AccAsm.Proofs.Text.Ascii

/-! # Which rows of a table are found

A table keeps the mnemonics of its rows as they are given, while a look-up folds what it is asked for to lower
case. A row is therefore found by all spellings of its mnemonic if that has no capital letter, and by none of
them if it has one (`find?_eq_some_iff`). A table answers for all of its rows exactly if no mnemonic has a
capital (`ofList_answers`). -/

namespace AccAsm
open Text (lit lowerByte)

namespace Text

/-- No capital letter. -/
def IsFolded (t : Text) : Prop := ∀ b ∈ t, ¬ isUpper b

instance (t : Text) : Decidable t.IsFolded := inferInstanceAs (Decidable (∀ b ∈ t, ¬ isUpper b))

theorem isFolded_map_lowerByte (t : Text) : IsFolded (t.map lowerByte) := by
  have hlower : ∀ b : UInt8, ¬ isUpper (lowerByte b) := forall_byte (by decide +kernel)
  intro b hb
  obtain ⟨c, -, rfl⟩ := List.mem_map.mp hb
  exact hlower c

theorem isFolded_iff {t : Text} : t.IsFolded ↔ t.map lowerByte = t := by
  constructor
  · intro h
    have hkept (b : UInt8) (hb : b ∈ t) : lowerByte b = b := if_neg (h b hb)
    rw [List.map_congr_left hkept, List.map_id']
  · intro h
    rw [← h]
    exact isFolded_map_lowerByte t

theorem map_lowerByte_map_lowerByte (t : Text) : (t.map lowerByte).map lowerByte = t.map lowerByte :=
  isFolded_iff.mp (isFolded_map_lowerByte t)

end Text

namespace InstructionTable
variable {t : InstructionTable} {rows : List Instruction} {i : Instruction} {m name : Text}

/-- The table answers for each of the rows by every spelling of its mnemonic, and for no other text. -/
structure Answers (t : InstructionTable) (rows : List Instruction) : Prop where
  found : ∀ i ∈ rows, ∀ m : Text, m.IsAscii → m.map lowerByte = i.mnemonic.map lowerByte → t.find? m = some i
  only : ∀ m : Text, m.IsAscii → (∀ i ∈ rows, m.map lowerByte ≠ i.mnemonic.map lowerByte) → t.find? m = none
  listed : ∀ name ∈ t.mnemonics, ∃ i ∈ rows, t.find? name = some i ∧ t.get name = .ok i

theorem mem_mnemonics : name ∈ t.mnemonics ↔ ∃ i ∈ t.rows, i.mnemonic = name := by
  rw [mnemonics, List.mem_mergeSort, List.mem_map]

theorem get_of_find? (h : t.find? m = some i) : t.get m = .ok i := by
  rw [get, h]

theorem get_of_find?_eq_none (h : t.find? m = none) : t.get m = .error (.missingInstruction m) := by
  rw [get, h]

theorem find?_eq_some_iff (hi : i ∈ t.rows) (hm : m.IsAscii) :
    t.find? m = some i ↔ i.mnemonic.IsFolded ∧ m.map lowerByte = i.mnemonic.map lowerByte := by
  rw [find?_eq_some, LowerCase.lower_eq_map hm]
  constructor
  · rintro ⟨-, h⟩
    rw [h, Text.map_lowerByte_map_lowerByte]
    exact ⟨Text.isFolded_map_lowerByte m, rfl⟩
  · rintro ⟨hf, hs⟩
    rw [hs, Text.isFolded_iff.mp hf]
    exact ⟨hi, rfl⟩

/-- A look-up depends on whether the table lists the text in lower case. -/
theorem exists_find?_iff (hm : m.IsAscii) :
    (∃ i ∈ t.rows, t.find? m = some i) ↔ m.map lowerByte ∈ t.mnemonics := by
  simp only [find?_eq_some, LowerCase.lower_eq_map hm, mem_mnemonics, and_self_left]

theorem find?_eq_none (hm : m.IsAscii) (hn : m.map lowerByte ∉ t.mnemonics) : t.find? m = none := by
  rw [Option.eq_none_iff_forall_ne_some]
  intro i h
  exact hn ((exists_find?_iff hm).mp ⟨i, (find?_eq_some.mp h).1, h⟩)

/-- A table of rows with ASCII mnemonics finds the rows without a capital letter, by all spellings of their
mnemonics, and nothing else. It answers for all rows exactly if none has a capital. A mnemonic that the
table lists is found if it lists it in lower case too; otherwise it is missing. -/
theorem ofList_answers (ha : ∀ i ∈ rows, i.mnemonic.IsAscii) (h : ofList rows = .ok t) :
    (t.Answers rows ↔ ∀ i ∈ rows, i.mnemonic.IsFolded) ∧
    (∀ i ∈ rows, ∀ m : Text, m.IsAscii →
      (t.find? m = some i ↔ i.mnemonic.IsFolded ∧ m.map lowerByte = i.mnemonic.map lowerByte)) ∧
    (∀ m : Text, m.IsAscii → (∀ i ∈ rows, m.map lowerByte ≠ i.mnemonic.map lowerByte) → t.find? m = none) ∧
    ∀ name ∈ t.mnemonics,
      (name.map lowerByte ∈ t.mnemonics → ∃ i ∈ rows, t.find? name = some i ∧ t.get name = .ok i) ∧
      (name.map lowerByte ∉ t.mnemonics →
        t.find? name = none ∧ t.get name = .error (.missingInstruction name)) := by
  obtain rfl := ofList_eq_ok.mp h
  have honly (m : Text) (hm : m.IsAscii)
      (hne : ∀ i ∈ t.rows, m.map lowerByte ≠ i.mnemonic.map lowerByte) : t.find? m = none := by
    refine find?_eq_none hm fun hmem => ?_
    obtain ⟨i, hi, hmnemonic⟩ := mem_mnemonics.mp hmem
    exact hne i hi (by rw [hmnemonic, Text.map_lowerByte_map_lowerByte])
  refine ⟨⟨?_, ?_⟩, fun i hi m hm => find?_eq_some_iff hi hm, honly, ?_⟩
  · intro hall i hi
    exact ((find?_eq_some_iff hi (ha i hi)).mp (hall.found i hi _ (ha i hi) rfl)).1
  · intro hf
    refine ⟨fun i hi m hm hs => (find?_eq_some_iff hi hm).mpr ⟨hf i hi, hs⟩, honly, fun name hn => ?_⟩
    obtain ⟨i, hi, rfl⟩ := mem_mnemonics.mp hn
    have hfind := (find?_eq_some_iff hi (ha i hi)).mpr ⟨hf i hi, rfl⟩
    exact ⟨i, hi, hfind, get_of_find? hfind⟩
  · intro name hn
    have hname : name.IsAscii := by
      obtain ⟨i, hi, rfl⟩ := mem_mnemonics.mp hn
      exact ha i hi
    constructor
    · intro hl
      obtain ⟨i, hi, hfind⟩ := (exists_find?_iff hname).mpr hl
      exact ⟨i, hi, hfind, get_of_find? hfind⟩
    · intro hl
      have hfind := find?_eq_none hname hl
      exact ⟨hfind, get_of_find?_eq_none hfind⟩

/-- Two rows in lower case, of which one has no format. -/
theorem ofList_answers_lower :
    let rows : List Instruction := [⟨lit "add", some .r, 1⟩, ⟨lit "x-2", none, 63⟩]
    (∀ i ∈ rows, i.mnemonic.IsAscii) ∧ ∃ t, ofList rows = .ok t ∧ t.Answers rows ∧
      t.find? (lit "X-2") = some ⟨lit "x-2", none, 63⟩ ∧ t.find? (lit "x2") = none := by
  intro rows
  have ha : ∀ i ∈ rows, i.mnemonic.IsAscii := by decide +kernel
  have hsome : (ofList rows).toOption.isSome := by decide +kernel
  obtain ⟨t, ht⟩ := Option.isSome_iff_exists.mp hsome
  rw [except_toOption_eq_some] at ht
  obtain ⟨hanswers, hrow, honly, -⟩ := ofList_answers ha ht
  refine ⟨ha, t, ht, hanswers.mpr (by decide +kernel), ?_, ?_⟩
  · exact (hrow _ (.tail _ (.head _)) _ (by decide +kernel)).mpr ⟨by decide +kernel, by decide +kernel⟩
  · exact honly _ (by decide +kernel) (by decide +kernel)

/-- A row with a capital letter is listed and cannot be found, not even by its own mnemonic. Beside a row that
differs from it in letter case only, that other row is found for both. -/
theorem ofList_capital_missing :
    let add : Instruction := ⟨lit "ADD", some .r, 1⟩
    let other : Instruction := ⟨lit "add", some .i, 2⟩
    (∃ t, ofList [add] = .ok t ∧ add.mnemonic ∈ t.mnemonics ∧ t.find? add.mnemonic = none ∧
      t.get add.mnemonic = .error (.missingInstruction add.mnemonic) ∧ ¬ t.Answers [add]) ∧
    ∃ t, ofList [add, other] = .ok t ∧ t.find? add.mnemonic = some other ∧ ¬ t.Answers [add, other] := by
  intro add other
  have hmissing : (ofList [add]).toOption.map (fun t => (t.mnemonics, t.find? add.mnemonic)) =
      some ([add.mnemonic], none) := by decide +kernel
  have hother : (ofList [add, other]).toOption.map (·.find? add.mnemonic) = some (some other) := by
    decide +kernel
  have hne : other ≠ add := by decide +kernel
  have hascii : add.mnemonic.IsAscii := by decide +kernel
  simp only [Option.map_eq_some_iff, except_toOption_eq_some, Prod.mk.injEq] at hmissing hother
  obtain ⟨t, ht, hlisted, hfind⟩ := hmissing
  obtain ⟨s, hs, hsfind⟩ := hother
  refine ⟨⟨t, ht, by simp [hlisted], hfind, get_of_find?_eq_none hfind, fun h => ?_⟩, s, hs, hsfind, fun h => ?_⟩
  · have := h.found add (.head _) _ hascii rfl
    simp [hfind] at this
  · have := h.found add (.head _) _ hascii rfl
    rw [hsfind, Option.some_inj] at this
    exact hne this

end InstructionTable
end AccAsm
