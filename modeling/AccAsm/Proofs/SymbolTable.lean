import AccAsm.Proofs.Encoding.Origins
import AccAsm.Proofs.Inclusion.Flattening
import AccAsm.Proofs.Linking.Exactness
import AccAsm.Proofs.Program.Walking
import AccAsm.SymbolTable
import Mathlib.Data.List.Flatten

/-! # Symbol tables of assemblies

An image never has more bytes than there are addresses, so nothing wraps around in its symbol table, which
has one symbol for every cell. The main result (`SymbolTable.ofCells_describes`) says what the table tells about
an image: the line of every byte is that of the item which the byte comes from, the labels are those of the
image, and without inclusions the lines go up with the addresses. For the last, the items of a file start with
tokens in their order (`Program.positions_sublist`), and tokens never go back to an earlier line
(`Scan.pairwise_line`). -/

namespace AccAsm
open Text (lit)

/-! ### Lines of items -/

namespace Scan
variable {file rest : Text} {line start j : Nat} {ts : List Token}

theorem Laid.le_line (h : Laid file line start j rest ts) : ∀ t ∈ ts, (line : Int) ≤ t.position.line := by
  induction h with
  | nil => simp
  | newline _ ih =>
    intro t ht
    have := ih t ht
    omega
  | blank _ _ ih | comment _ _ _ _ ih => exact ih
  | token _ _ _ _ ih => exact List.forall_mem_cons.mpr ⟨Int.le_refl _, ih⟩

theorem Laid.pairwise_line (h : Laid file line start j rest ts) :
    ts.Pairwise fun t u => t.position.line ≤ u.position.line := by
  induction h with
  | nil => exact .nil
  | newline _ ih | blank _ _ ih | comment _ _ _ _ ih => exact ih
  | token _ _ _ h ih => exact .cons h.le_line ih

/-- The tokens of a file never go back to an earlier line. -/
theorem pairwise_line {source : Text} {body : List Token} {last : Token}
    (h : tokens file source = .ok (body ++ [last])) :
    body.Pairwise fun t u => t.position.line ≤ u.position.line := by
  obtain ⟨body', last', heq, -, -, hlaid⟩ := laid_tokens h
  obtain ⟨rfl, -⟩ := List.append_inj' heq rfl
  exact hlaid.pairwise_line

end Scan

theorem Item.position_sublist (i : Item) : [i.position].Sublist (Token.places i.tokens) := by
  cases i with
  | label name | instruction position mnemonic operands | pseudo position p =>
    rw [tokens, Token.places_cons_of_hasNode (by rfl)]
    exact (List.nil_sublist _).cons_cons _
  | data position d =>
    rw [tokens, Token.places_cons_of_hasNode (by cases d <;> rfl)]
    exact (List.nil_sublist _).cons_cons _

/-- The items of a program start with tokens of it, in their order. -/
theorem Program.positions_sublist (p : Program) : (p.items.map Item.position).Sublist (Token.places p.tokens) := by
  have hitems (items : List Item) :
      (items.map Item.position).Sublist (Token.places (items.flatMap Item.tokens)) := by
    rw [Token.places_flatMap, List.map_eq_flatMap]
    exact List.Sublist.flatMap_right items fun i _ => i.position_sublist
  rw [items, tokens, Token.places_flatMap, List.map_flatMap]
  refine List.Sublist.flatMap_right p.fields fun f _ => ?_
  cases f with
  | data position items | code position items =>
    rw [Field.tokens, Token.places_cons_of_hasNode (by rfl)]
    exact (hitems items).cons _
  | inclusion position path => exact List.nil_sublist _

theorem Assembler.Parses.pairwise_line {a : Assembler} {file text : Text} {p : Program} (h : a.Parses file text p) :
    p.items.Pairwise fun i j => i.position.line ≤ j.position.line := by
  obtain ⟨body, last, htokens, -, -, -, hkept⟩ := h.exists_tokens
  have hplaces : (Token.places p.tokens).Pairwise fun q q' => q.line ≤ q'.line := by
    rw [← hkept, Token.places_kept]
    exact List.pairwise_map.mpr ((Scan.pairwise_line htokens).filter _)
  have hpositions := hplaces.sublist p.positions_sublist
  rwa [List.pairwise_map] at hpositions

/-- Without inclusions, the items of an expanded program start one behind the other. -/
theorem Assembler.pairwise_line {a : Assembler} {file text : Text} {p q : Program} (hp : a.Parses file text p)
    (hi : ∀ f ∈ p.fields, f.isInclusion = false) (hq : (a.program file text).outcome = .ok q) :
    q.items.Pairwise fun i j => i.position.line ≤ j.position.line := by
  obtain ⟨p', fields, hp', hfields, rfl⟩ := program_eq_ok.mp hq
  obtain rfl := hp.unique hp'
  obtain rfl : p.fields = fields := Except.ok.inj ((expand_eq_self hi).symm.trans hfields)
  exact hp.pairwise_line

theorem Encoding.pairwise_line {table : InstructionTable} {strict : Bool} {items : List Item}
    {pieces : List (List Cell)} (h : List.Forall₂ (fun i cells => item table strict i = .ok cells) items pieces)
    (hi : items.Pairwise fun i j => i.position.line ≤ j.position.line) :
    pieces.flatten.Pairwise fun c d => c.position.line ≤ d.position.line := by
  -- the cells of one item share its line
  induction h with
  | nil => exact .nil
  | @cons i piece items pieces hpiece h ih =>
    obtain ⟨hfirst, hi⟩ := List.pairwise_cons.mp hi
    have hat {c : Cell} (hc : c ∈ piece) : c.position = i.position := (stands_item hpiece c hc).2
    refine List.pairwise_append.mpr ⟨?_, ih hi, fun c hc d hd => ?_⟩
    · exact List.pairwise_of_forall_mem_list fun c hc d hd => by rw [hat hc, hat hd]
    · obtain ⟨piece', hpiece', hd⟩ := List.mem_flatten.mp hd
      obtain ⟨i', hi', hitem⟩ := exists_of_forall₂ h.flip hpiece'
      rw [hat hc, (stands_item hitem d hd).2]
      exact hfirst i' hi'

/-! ### Tables -/

namespace SymbolTable
variable {source : Text} {cells : List Cell}

theorem lines_ofCells (h : cells.length ≤ addressSpace) :
    (ofCells source cells).lines = cells.map fun c => (c.position.file, c.position.line) := by
  rw [lines, symbols_ofCells h, List.map_map]
  rfl

theorem mem_labels_ofCells (h : cells.length ≤ addressSpace) {address : Nat} {label : Text} :
    (address, label) ∈ (ofCells source cells).labels ↔ label ≠ [] ∧ cells[address]?.map Cell.label = some label := by
  rw [labels, symbols_ofCells h, List.mem_filterMap]
  constructor
  · rintro ⟨⟨y, k⟩, hmem, hy⟩
    obtain ⟨hne, heq⟩ := Option.ite_none_left_eq_some.mp hy
    cases heq
    rw [List.mem_zipIdx_iff_getElem?, List.getElem?_map] at hmem
    obtain ⟨c, hc, rfl⟩ := Option.map_eq_some_iff.mp hmem
    exact ⟨List.isEmpty_iff.not.mp hne, congrArg (Option.map Cell.label) hc⟩
  · rintro ⟨hne, hlabel⟩
    obtain ⟨c, hc, rfl⟩ := Option.map_eq_some_iff.mp hlabel
    refine ⟨(Symbol.ofCell c, address), ?_, ?_⟩
    · rw [List.mem_zipIdx_iff_getElem?, List.getElem?_map, hc]
      rfl
    · exact if_neg (List.isEmpty_iff.not.mpr hne)

/-- The first cell with a label is at the least of the addresses that the table gives the label. -/
theorem index?_eq_some_iff (h : cells.length ≤ addressSpace) {address : Nat} {label : Text} :
    Cell.index? cells label = some address ↔
      (address, label) ∈ (ofCells source cells).labels ∧
        ∀ other, (other, label) ∈ (ofCells source cells).labels → address ≤ other := by
  simp only [mem_labels_ofCells h]
  unfold Cell.index?
  rw [Option.ite_none_left_eq_some, List.findIdx?_eq_some_iff_getElem]
  constructor
  · rintro ⟨hne, hlt, hlabel, hbefore⟩
    refine ⟨⟨hne, by simpa [hlt] using hlabel⟩, fun other hother => Nat.le_of_not_lt fun hother' => ?_⟩
    obtain ⟨c, hc, rfl⟩ := Option.map_eq_some_iff.mp hother.2
    obtain ⟨_, rfl⟩ := List.getElem?_eq_some_iff.mp hc
    exact hbefore other hother' (decide_eq_true rfl)
  · rintro ⟨⟨hne, hlabel⟩, hleast⟩
    obtain ⟨c, hc, rfl⟩ := Option.map_eq_some_iff.mp hlabel
    obtain ⟨hlt, rfl⟩ := List.getElem?_eq_some_iff.mp hc
    refine ⟨hne, hlt, decide_eq_true rfl, fun j hj hother => ?_⟩
    have hle := hleast j ⟨hne, by simpa [hj.trans hlt] using hother⟩
    omega

/-- The symbol table of an assembly has a line for every byte of the image, namely that of the item whose
encoding the byte comes from, and the labels of the image in their places. The address of a label in the image
is the least one that the table has for it. If the file includes no others, the lines never go back. -/
theorem ofCells_describes {a : Assembler} {file text : Text} {r : Assembly}
    (h : (a.assemble file text).outcome = .ok r) (source : Text) :
    let table := ofCells source r.cells
    (∀ address, table.lines[address]?.isSome ↔ address < r.image.bytes.length) ∧
    r.image.bytes.length = Item.totalSize r.program.items ∧
    (∀ before i after, r.program.items = before ++ i :: after →
      ∃ piece, Encoding.item a.table a.strict i = .ok piece ∧ piece.length = i.size ∧ ∀ k < i.size,
        r.cells[Item.totalSize before + k]?.map Cell.unlabelled = piece[k]? ∧
        table.lines[Item.totalSize before + k]? = some (i.position.file, i.position.line)) ∧
    (∀ address label, (address, label) ∈ table.labels ↔
      label ≠ [] ∧ r.image.bytes[address]?.map ImageByte.label = some label) ∧
    (∀ label address, r.image.labels.find? label = some address ↔
      (address.toNat, label) ∈ table.labels ∧ ∀ other, (other, label) ∈ table.labels → address.toNat ≤ other) ∧
    ∀ p, (a.source file text).outcome = .ok p → (∀ f ∈ p.fields, f.isInclusion = false) →
      table.lines.Pairwise fun l l' => l.2 ≤ l'.2 := by
  intro table
  obtain ⟨hprogram, hencode, hlink, -⟩ := Assembler.assemble_eq_ok.mp h
  have hsound := Assembler.program_sound hprogram
  have hflat : ∀ f ∈ r.program.fields, f.isInclusion = false := fun f hf => (hsound f hf).2
  have hlays := (Program.encode_meets hsound a.strict).ok r.cells hencode
  obtain ⟨htable, -, hlabels, -⟩ := Image.link_eq_ok hlays.whole hlink
  have hroom := (LabelTable.find?_ofCells htable).1
  have hlength : r.image.bytes.length = r.cells.length := by simpa using congrArg List.length hlabels
  have hlines : table.lines = r.cells.map fun c => (c.position.file, c.position.line) := lines_ofCells hroom
  refine ⟨fun address => ?_, hlength.trans hlays.size, fun before i after hi => ?_, fun address label => ?_,
    fun label address => ?_, fun p hp hplain => ?_⟩
  · simp [hlines, hlength]
  · obtain ⟨piece, hpiece, hsize, hat⟩ := Program.getElem?_encode hflat (Program.sound_items hsound) hencode hi
    refine ⟨piece, hpiece, hsize, fun k hk => ?_⟩
    obtain ⟨c, hc, hsame, hposition⟩ := hat k hk
    rw [hlines, List.getElem?_map, hc, hsame, ← hposition]
    exact ⟨rfl, rfl⟩
  · rw [mem_labels_ofCells hroom, ← List.getElem?_map, ← List.getElem?_map, hlabels]
  · rw [← index?_eq_some_iff hroom, ← LabelTable.toNat_find? htable]
    exact (Option.map_injective (fun _ _ => UInt16.toNat_inj.mp)).eq_iff.symm
  · obtain ⟨pieces, hpieces, hcells⟩ := Program.encode_pieces hflat hencode
    have hitems := Assembler.pairwise_line (Assembler.source_eq_ok.mp hp) hplain hprogram
    have hordered := Encoding.pairwise_line hpieces hitems
    rw [← hcells, List.pairwise_map] at hordered
    rw [hlines, List.pairwise_map]
    exact hordered

/-- The second byte of an item, and a label that is declared twice. -/
theorem ofCells_describes_twice :
    let a : Assembler := {}
    let text := lit ".inst\n_x: jump _y\n.data\n_y: .byte 1, 2\n\n_y: .byte 3"
    ∃ r, (a.assemble (lit "main") text).outcome = .ok r ∧ r.image.bytes.length = 11 ∧
      let table := ofCells (lit "main") r.cells
      table.lines[9]? = some (lit "main", 4) ∧ (10, lit "_y") ∈ table.labels ∧
        (8, lit "_y") ∈ table.labels ∧ (∀ other, (other, lit "_y") ∈ table.labels → 8 ≤ other) ∧
        table.lines.Pairwise fun l l' => l.2 ≤ l'.2 := by
  intro a text
  have h : ((a.source (lit "main") text).outcome.toOption.bind fun p =>
      (p.encode a.table a.strict).toOption.bind fun cells =>
        (Image.link a.strict cells).toOption.bind fun img => p.items[3]?.map fun i =>
          (p.fields.all (!·.isInclusion), Item.totalSize (p.items.take 3), i.size, img.bytes.length,
            decide (i.position.file = lit "main" ∧ i.position.line = 4 ∧
              img.bytes[10]?.map ImageByte.label = some (lit "_y") ∧ img.labels.find? (lit "_y") = some 8))) =
      some (true, 8, 2, 11, true) := by
    decide +kernel
  simp only [Option.bind_eq_some_iff, Option.map_eq_some_iff, except_toOption_eq_some] at h
  obtain ⟨p, hp, cells, hcells, img, himg, i, hi, heq⟩ := h
  simp only [Prod.mk.injEq, decide_eq_true_eq] at heq
  obtain ⟨hincl, hbefore, hsize, hlength, hfile, hline, hlabel, hfind⟩ := heq
  have hplain : ∀ f ∈ p.fields, f.isInclusion = false := by simpa using hincl
  have hprogram : (a.program (lit "main") text).outcome = .ok p := Assembler.program_eq_ok.mpr
    ⟨p, p.fields, Assembler.source_eq_ok.mp hp, Assembler.expand_eq_self hplain, rfl⟩
  have hr : (a.assemble (lit "main") text).outcome = .ok ⟨lit "main", p, cells, img⟩ :=
    Assembler.assemble_eq_ok.mpr ⟨hprogram, hcells, himg, rfl⟩
  have hsplit : p.items = p.items.take 3 ++ i :: p.items.drop 4 := by
    obtain ⟨hlt, rfl⟩ := List.getElem?_eq_some_iff.mp hi
    rw [List.getElem_cons_drop, List.take_append_drop]
  obtain ⟨-, -, hlines, hlabels, hleast, hordered⟩ := ofCells_describes hr (lit "main")
  obtain ⟨piece, -, -, hat⟩ := hlines _ i _ hsplit
  have hsecond := (hat 1 (by omega)).2
  rw [hbefore, hfile, hline] at hsecond
  obtain ⟨hfirst, hrest⟩ := (hleast (lit "_y") 8).mp hfind
  have hagain := (hlabels 10 (lit "_y")).mpr ⟨by decide, Option.map_eq_some_iff.mpr hlabel⟩
  exact ⟨_, hr, hlength, hsecond, hagain, hfirst, hrest, hordered p hp hplain⟩

end SymbolTable
end AccAsm
