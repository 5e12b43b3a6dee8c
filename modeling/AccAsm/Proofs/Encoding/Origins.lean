import AccAsm.Proofs.Encoding.Composition
import AccAsm.Proofs.Encoding.Layout

/-! # Origins of cells

Every cell of an item stands where the item does (`Encoding.stands_item`), and the cells of a program are those
of its items one after the other, but for the labels that are put on them (`Program.encode_pieces`). So the
item that a cell comes from is found by counting: it starts behind the cells of the items before it
(`Program.getElem?_encode`). -/

namespace AccAsm

/-- Where an item starts. -/
def Item.position : Item → Position
  | label name => name.position
  | data position _ | instruction position _ _ | pseudo position _ => position

/-- The cell without the label that was put on it. -/
def Cell.unlabelled (c : Cell) : Cell := { c with label := [] }

namespace Encoding
variable {table : InstructionTable} {strict : Bool} {position : Position} {cells : List Cell}

theorem stands_pack {fields : List Segment} (h : pack position fields = .ok cells) :
    ∀ c ∈ cells, c.label = [] ∧ c.position = position := by
  intro c hc
  obtain ⟨hlabel, hposition, -⟩ := Packer.forall_mem_cells (Q := fun _ => True)
    (fun _ _ _ _ _ => ⟨trivial, trivial⟩) (fun _ _ _ => trivial) (pack_eq_ok.mp h) c hc
  exact ⟨hlabel, hposition⟩

theorem stands_data {d : Data} (h : data position d = .ok cells) :
    ∀ c ∈ cells, c.label = [] ∧ c.position = position := by
  cases d with
  | space count =>
    simp only [data, space] at h
    split at h
    · cases h
    · split at h
      · cases h
      · cases h
        intro c hc
        obtain rfl := List.eq_of_mem_replicate hc
        exact ⟨rfl, rfl⟩
  | words values | bytes values =>
    obtain ⟨fields, -, h⟩ := except_bind_eq_ok.mp h
    exact stands_pack h
  | ascii literal =>
    simp only [data, ascii] at h
    split at h
    · cases h
    · obtain ⟨fields, -, h⟩ := except_bind_eq_ok.mp h
      exact stands_pack h

theorem stands_primitive {p : Primitive} (h : primitive table position p = .ok cells) :
    ∀ c ∈ cells, c.label = [] ∧ c.position = position := by
  obtain ⟨opcode, -, h⟩ := except_bind_eq_ok.mp h
  dsimp only at h
  split at h
  · exact stands_pack h
  · cases h

/-- Items are encoded to cells without labels, all in the place of the item. -/
theorem stands_item {i : Item} (h : item table strict i = .ok cells) :
    ∀ c ∈ cells, c.label = [] ∧ c.position = i.position := by
  cases i with
  | label name =>
    cases h
    simp
  | data position d => exact stands_data h
  | instruction position mnemonic operands =>
    obtain ⟨opcode, -, h⟩ := except_bind_eq_ok.mp h
    obtain ⟨fields, -, h⟩ := except_bind_eq_ok.mp h
    exact stands_pack h
  | pseudo position p =>
    obtain ⟨sequence, -, h⟩ := except_bind_eq_ok.mp h
    obtain ⟨pieces, hpieces, h⟩ := except_bind_eq_ok.mp h
    cases h
    intro c hc
    obtain ⟨piece, hpiece, hc⟩ := List.mem_flatten.mp hc
    obtain ⟨p, -, hp⟩ := exists_of_forall₂ (except_mapM_eq_ok.mp hpieces).flip hpiece
    exact stands_primitive hp c hc

theorem length_item {i : Item} (hi : i.Sound table) (h : item table strict i = .ok cells) :
    cells.length = i.size :=
  ((item_meets hi strict).ok cells h).length

/-- In the cells of all items, those of an item stand behind as many as the items before it have room for. -/
theorem getElem?_flatten {items before after : List Item} {i : Item} {pieces : List (List Cell)}
    (hs : ∀ i ∈ items, i.Sound table)
    (h : List.Forall₂ (fun i cells => item table strict i = .ok cells) items pieces)
    (hi : items = before ++ i :: after) :
    ∃ piece, item table strict i = .ok piece ∧ piece.length = i.size ∧
      ∀ k < i.size, pieces.flatten[Item.totalSize before + k]? = piece[k]? := by
  subst hi
  induction before generalizing pieces with
  | nil =>
    cases h with
    | @cons _ piece _ rest hpiece _ =>
      have hlength := length_item (hs i (.head _)) hpiece
      refine ⟨piece, hpiece, hlength, fun k hk => ?_⟩
      rw [List.flatten_cons, Item.totalSize, List.map_nil, List.sum_nil, Nat.zero_add,
        List.getElem?_append_left (hlength ▸ hk)]
  | cons j before ih =>
    cases h with
    | @cons _ first _ rest hfirst hrest =>
      obtain ⟨hj, hs⟩ := List.forall_mem_cons.mp hs
      obtain ⟨piece, hpiece, hlength, hat⟩ := ih hs hrest
      refine ⟨piece, hpiece, hlength, fun k hk => ?_⟩
      have hsize : Item.totalSize (j :: before) + k = first.length + (Item.totalSize before + k) := by
        rw [length_item hj hfirst, Item.totalSize, List.map_cons, List.sum_cons, Nat.add_assoc]
        rfl
      rw [hsize, List.flatten_cons, List.getElem?_append_right (Nat.le_add_right _ _), Nat.add_sub_cancel_left,
        hat k hk]

end Encoding

namespace Emission
variable {table : InstructionTable} {strict : Bool} {items : List Item} {e e' : Emission} {i : Item}
  {cells : List Cell}

theorem map_unlabelled_mark (hp : ∀ c ∈ cells, c.label = []) (pending : Option Lexeme) :
    (mark pending cells).map Cell.unlabelled = cells := by
  have hplain {c : Cell} {label : Text} (h : c.label = []) : ({ c with label } : Cell).unlabelled = c := by
    rw [Cell.unlabelled, ← h]
  have hrest {l : List Cell} (h : ∀ c ∈ l, c.label = []) : l.map Cell.unlabelled = l :=
    (List.map_congr_left fun c hc => hplain (h c hc)).trans (List.map_id l)
  unfold mark
  split
  next name c rest =>
    obtain ⟨hc, hp⟩ := List.forall_mem_cons.mp hp
    rw [List.map_cons, hplain hc, hrest hp]
  next => exact hrest hp

/-- Every item adds its cells, the first of which may get a label. -/
theorem item_piece (h : e.item table strict i = .ok e') :
    ∃ cells, Encoding.item table strict i = .ok cells ∧
      e'.cells.toList.map Cell.unlabelled = e.cells.toList.map Cell.unlabelled ++ cells := by
  cases hl : i.isLabel with
  | true =>
    cases i with
    | label name =>
      have h : e.declare name = .ok e' := h
      unfold declare at h
      split at h
      · cases h
      · cases h
        exact ⟨[], rfl, (List.append_nil _).symm⟩
    | data position d | instruction position mnemonic o | pseudo position q => cases hl
  | false =>
    rw [item_eq hl] at h
    obtain ⟨cells, hcells, he⟩ := except_bind_eq_ok.mp h
    cases he
    refine ⟨cells, hcells, ?_⟩
    rw [toList_emit, List.map_append, map_unlabelled_mark fun c hc => (Encoding.stands_item hcells c hc).1]

theorem foldlM_pieces (h : items.foldlM (item table strict) e = .ok e') :
    ∃ pieces, List.Forall₂ (fun i cells => Encoding.item table strict i = .ok cells) items pieces ∧
      e'.cells.toList.map Cell.unlabelled = e.cells.toList.map Cell.unlabelled ++ pieces.flatten := by
  induction items generalizing e with
  | nil =>
    cases h
    exact ⟨[], .nil, (List.append_nil _).symm⟩
  | cons i items ih =>
    rw [List.foldlM_cons] at h
    obtain ⟨e₁, h₁, h⟩ := except_bind_eq_ok.mp h
    obtain ⟨cells, hcells, hfirst⟩ := item_piece h₁
    obtain ⟨pieces, hpieces, hrest⟩ := ih h
    refine ⟨cells :: pieces, .cons hcells hpieces, ?_⟩
    rw [hrest, hfirst, List.flatten_cons, List.append_assoc]

end Emission

namespace Program
variable {table : InstructionTable} {strict : Bool} {p : Program} {cells : List Cell}

theorem sound_items (h : ∀ f ∈ p.fields, f.Sound table ∧ f.isInclusion = false) :
    ∀ i ∈ p.items, i.Sound table := by
  intro i hi
  obtain ⟨f, hf, hi⟩ := List.mem_flatMap.mp hi
  exact (h f hf).1.items i hi

/-- The cells of a program are those of its items one after the other, but for the labels on them. -/
theorem encode_pieces (hn : ∀ f ∈ p.fields, f.isInclusion = false) (h : p.encode table strict = .ok cells) :
    ∃ pieces, List.Forall₂ (fun i cells => Encoding.item table strict i = .ok cells) p.items pieces ∧
      cells.map Cell.unlabelled = pieces.flatten := by
  rw [encode_eq hn] at h
  obtain ⟨e, hrun, hfinish⟩ := except_bind_eq_ok.mp h
  obtain ⟨pieces, hpieces, hcells⟩ := Emission.foldlM_pieces hrun
  cases Emission.finish_eq_ok.mp hfinish
  exact ⟨pieces, hpieces, hcells⟩

/-- The cell at an address is one of the item that has this address, but for its label, and stands where the
item does. -/
theorem getElem?_encode (hp : ∀ f ∈ p.fields, f.isInclusion = false) (hs : ∀ i ∈ p.items, i.Sound table)
    (h : p.encode table strict = .ok cells) {before after : List Item} {i : Item}
    (hi : p.items = before ++ i :: after) :
    ∃ piece, Encoding.item table strict i = .ok piece ∧ piece.length = i.size ∧ ∀ k < i.size,
      ∃ c, cells[Item.totalSize before + k]? = some c ∧ piece[k]? = some c.unlabelled ∧ c.position = i.position := by
  obtain ⟨pieces, hpieces, hcells⟩ := encode_pieces hp h
  obtain ⟨piece, hpiece, hlength, hat⟩ := Encoding.getElem?_flatten hs hpieces hi
  refine ⟨piece, hpiece, hlength, fun k hk => ?_⟩
  have hk' : k < piece.length := hlength ▸ hk
  have hc := (hat k hk).trans (List.getElem?_eq_getElem hk')
  rw [← hcells, List.getElem?_map] at hc
  obtain ⟨c, hc, hsame⟩ := Option.map_eq_some_iff.mp hc
  have hposition := (Encoding.stands_item hpiece _ (List.getElem_mem hk')).2
  rw [← hsame] at hposition
  exact ⟨c, hc, hsame ▸ List.getElem?_eq_getElem hk', hposition⟩

end Program
end AccAsm
