import AccAsm.Instruction.Builtin
import AccAsm.Proofs.Encoding.Places
import AccAsm.Proofs.Encoding.Validity

/-! # Labels of cells

A declared label waits for the next cell, however many items without any cells come first, and is then put on
it. So the labels of the cells and the one that waits are those of the declarations so far, each at the
number of cells before it (`Emission.places`). Every item preserves this (`places_item`), and what remains
after a whole program is that its cells carry its labels (`Program.labelled_encode`), each one once, in order
and in its place. -/

namespace AccAsm
open Text (lit)

/-- The label that an item declares. -/
def Item.declared? : Item → Option Text
  | label name => some name.text
  | _ => none

/-- The labels that a program declares, in order. -/
def Program.declared (p : Program) : List Text := p.items.filterMap Item.declared?

/-- The number of cells that an item is encoded to. -/
def Item.cellCount (table : InstructionTable) (strict : Bool) (i : Item) : Nat :=
  ((Encoding.item table strict i).toOption.getD []).length

/-- The declared labels, each with the number of cells of all items before its declaration. There are `start`
cells before the first item. -/
def Item.places (table : InstructionTable) (strict : Bool) (start : Nat) : List Item → List (Text × Nat)
  | [] => []
  | i :: rest => i.declared?.toList.map (·, start) ++ places table strict (start + i.cellCount table strict) rest

/-- The labels of cells, each with the index of its cell. The first cell has the index `start`. -/
def Cell.labelled (start : Nat) (cells : List Cell) : List (Text × Nat) :=
  ((cells.map Cell.label).zipIdx start).filter (·.1 ≠ [])

namespace Cell
variable {start : Nat} {cells : List Cell}

theorem labelled_append (cells cells' : List Cell) :
    labelled start (cells ++ cells') = labelled start cells ++ labelled (start + cells.length) cells' := by
  rw [labelled, List.map_append, List.zipIdx_append, List.filter_append, List.length_map]
  rfl

theorem labelled_plain (h : ∀ c ∈ cells, c.label = []) : labelled start cells = [] := by
  rw [labelled, List.filter_eq_nil_iff]
  intro place hplace
  obtain ⟨c, hc, hlabel⟩ := List.mem_map.mp (List.fst_mem_of_mem_zipIdx hplace)
  simpa [← hlabel] using h c hc

theorem map_fst_labelled : (labelled start cells).map Prod.fst = (cells.map Cell.label).filter (· ≠ []) := by
  rw [← List.zipIdx_map_fst start (cells.map Cell.label), List.filter_map]
  rfl

end Cell

theorem Item.map_fst_places (table : InstructionTable) (strict : Bool) (start : Nat) (items : List Item) :
    (places table strict start items).map Prod.fst = items.filterMap declared? := by
  induction items generalizing start with
  | nil => rfl
  | cons i items ih =>
    rw [places, List.map_append, ih]
    cases hd : i.declared? <;> simp [hd]

namespace Emission
variable {table : InstructionTable} {strict : Bool} {items : List Item} {e e' : Emission} {i : Item}
  {cells : List Cell}

/-- The labels of the cells so far, and the one that waits for the next cell. -/
def places (e : Emission) : List (Text × Nat) :=
  Cell.labelled 0 e.cells.toList ++
    (e.pending.toList.map fun name => (name.text, e.cells.toList.length)).filter (·.1 ≠ [])

theorem labelled_mark (hp : ∀ c ∈ cells, c.label = []) (pending : Option Lexeme) (start : Nat) :
    Cell.labelled start (mark pending cells) =
      if cells = [] then [] else (pending.toList.map fun name => (name.text, start)).filter (·.1 ≠ []) := by
  cases cells with
  | nil => cases pending <;> rfl
  | cons c rest =>
    rw [if_neg (List.cons_ne_nil c rest)]
    cases pending with
    | none => exact Cell.labelled_plain hp
    | some name =>
      have hrest := (List.forall_mem_cons.mp hp).2
      have hsplit : Cell.labelled start ([{ c with label := name.text }] ++ rest) = _ := Cell.labelled_append _ _
      rw [Cell.labelled_plain hrest, List.append_nil] at hsplit
      exact hsplit

/-- Cells without labels take over the one that waits. -/
theorem places_emit (hp : ∀ c ∈ cells, c.label = []) (e : Emission) : (e.emit cells).places = e.places := by
  rw [places, toList_emit, pending_emit, Cell.labelled_append, labelled_mark hp, Nat.zero_add]
  cases cells with
  | nil => simp [places, mark]
  | cons c rest => simp [places]

theorem length_emit (e : Emission) (cells : List Cell) :
    (e.emit cells).cells.toList.length = e.cells.toList.length + cells.length := by
  have hmark := congrArg List.length (map_segments_mark e.pending cells)
  rw [List.length_map, List.length_map] at hmark
  rw [toList_emit, List.length_append, hmark]

/-- Every item adds the label that it declares, in the place of the next cell. -/
theorem places_item (h : e.item table strict i = .ok e') :
    e'.places = e.places ++ (i.declared?.toList.map (·, e.cells.toList.length)).filter (·.1 ≠ []) ∧
      e'.cells.toList.length = e.cells.toList.length + i.cellCount table strict := by
  cases hl : i.isLabel with
  | true =>
    cases i with
    | label name =>
      have h : e.declare name = .ok e' := h
      unfold declare at h
      split at h
      · cases h
      next hpend =>
        cases h
        exact ⟨by simp [places, hpend, Item.declared?], rfl⟩
    | data position d | instruction position mnemonic o | pseudo position q => cases hl
  | false =>
    rw [item_eq hl] at h
    obtain ⟨cells, hcells, he⟩ := except_bind_eq_ok.mp h
    cases he
    have htraced := (Encoding.item_traced (S := fun _ => True) (fun _ _ _ => trivial) table strict).ok cells hcells
    have hnone : i.declared? = none := by
      cases i with
      | label name => cases hl
      | data position d | instruction position mnemonic o | pseudo position q => rfl
    constructor
    · rw [places_emit (fun c hc => (htraced c hc).1), hnone]
      simp
    · rw [length_emit, Item.cellCount, hcells]
      rfl

theorem places_foldlM (h : items.foldlM (item table strict) e = .ok e') :
    e'.places = e.places ++ (Item.places table strict e.cells.toList.length items).filter (·.1 ≠ []) := by
  induction items generalizing e with
  | nil =>
    cases h
    simp [Item.places]
  | cons i items ih =>
    rw [List.foldlM_cons] at h
    obtain ⟨e₁, h₁, h⟩ := except_bind_eq_ok.mp h
    obtain ⟨hplaces, hlength⟩ := places_item h₁
    rw [ih h, hplaces, hlength, Item.places, List.filter_append, List.append_assoc]

end Emission

namespace Program
variable {table : InstructionTable} {strict : Bool} {p : Program} {cells : List Cell}

/-- The labels of the cells are the ones declared, in their places. Empty names are no labels. -/
theorem labelled_encode (hi : ∀ f ∈ p.fields, f.isInclusion = false) (h : p.encode table strict = .ok cells) :
    Cell.labelled 0 cells = (Item.places table strict 0 p.items).filter (·.1 ≠ []) := by
  rw [encode_eq hi] at h
  obtain ⟨e, hrun, hfinish⟩ := except_bind_eq_ok.mp h
  have hplaces := Emission.places_foldlM hrun
  unfold Emission.finish at hfinish
  split at hfinish
  · cases hfinish
  next hpend =>
    cases hfinish
    simpa [Emission.places, hpend, Cell.labelled] using hplaces

/-- Exactly one cell carries a label for every declaration: in their order, with its name, and at the number of
cells of the items before it. -/
theorem encode_places (hi : ∀ f ∈ p.fields, f.isInclusion = false) (hn : [] ∉ p.declared)
    (h : p.encode table strict = .ok cells) : Cell.labelled 0 cells = Item.places table strict 0 p.items := by
  rw [labelled_encode hi h, List.filter_eq_self]
  intro place hplace
  have hdeclared : place.1 ∈ p.declared := by
    rw [declared, ← Item.map_fst_places table strict 0]
    exact List.mem_map_of_mem hplace
  simp only [decide_eq_true_eq]
  intro hempty
  exact hn (hempty ▸ hdeclared)

/-- Labels wait across items without cells and across fields, and a name is declared twice. -/
theorem encode_places_waiting :
    let p : Program := ⟨{}, [
      .data {} [.label ⟨{}, lit "_a"⟩, .data {} (.space ⟨{}, lit "0"⟩), .data {} (.ascii ⟨{}, lit "\"\""⟩),
        .data {} (.bytes [⟨{}, lit "1"⟩, ⟨{}, lit "2"⟩]), .label ⟨{}, lit "_b"⟩],
      .code {} [.pseudo {} (.jump (.label ⟨{}, lit "_a"⟩)), .label ⟨{}, lit "_a"⟩],
      .data {} [.data {} (.space ⟨{}, lit "3"⟩)]]⟩
    (∀ f ∈ p.fields, f.isInclusion = false) ∧ [] ∉ p.declared ∧ ∃ cells, p.encode .builtin true = .ok cells ∧
      Cell.labelled 0 cells = [(lit "_a", 0), (lit "_b", 2), (lit "_a", 10)] := by
  intro p
  have hi : ∀ f ∈ p.fields, f.isInclusion = false := by decide
  have hn : [] ∉ p.declared := by decide +kernel
  have hencodes : (p.encode .builtin true).toOption.isSome := by decide +kernel
  obtain ⟨cells, hcells⟩ := Option.isSome_iff_exists.mp hencodes
  have h := except_toOption_eq_some.mp hcells
  have hplaces : Item.places .builtin true 0 p.items = [(lit "_a", 0), (lit "_b", 2), (lit "_a", 10)] := by
    decide +kernel
  exact ⟨hi, hn, cells, h, (encode_places hi hn h).trans hplaces⟩

end Program
end AccAsm
