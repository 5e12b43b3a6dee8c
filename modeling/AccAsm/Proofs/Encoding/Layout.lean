import AccAsm.Encoding
import AccAsm.Proofs.Encoding.Item
import AccAsm.Proofs.Program.Source

/-! # Layout of programs

`Lays table items e`: what has been put out after the items holds their bytes in order, and the label
of every declaration stands on the cell that follows it or still waits for one. Every item preserves
this (`item_meets`), so that it holds of the cells of a whole program (`encode_meets`). -/

namespace AccAsm

/-- A label has no cell of its own, or an item of the program is refused. -/
def Program.Refuses (table : InstructionTable) (p : Program) (e : EncodeError) : Prop :=
  (∃ position label next, e = .danglingLabel position label next) ∨ ∃ i ∈ p.items, i.Refuses table e

theorem Item.address?_nil {table : InstructionTable} {items : List Item}
    (h : ∀ i ∈ items, i.Sound table) : address? items [] = none := by
  refine if_neg fun hany => ?_
  obtain ⟨i, hi, hdecl⟩ := List.any_eq_true.mp hany
  cases i with
  | label name =>
    obtain ⟨rest, hname, -⟩ := (h _ hi).2 (name.token .label) (.head _) rfl rfl
    have hempty : name.text = [] := of_decide_eq_true hdecl
    exact List.cons_ne_nil _ _ (hname.symm.trans hempty)
  | data | instruction | pseudo => cases hdecl

theorem Item.totalSize_concat (items : List Item) (i : Item) :
    totalSize (items ++ [i]) = totalSize items + i.size := by
  rw [totalSize, List.map_append, List.sum_append]
  rfl

theorem Cell.Whole.of_segments {c c' : Cell} (h : c.Whole) (hs : c.segments = c'.segments) : c'.Whole :=
  ⟨hs ▸ h.wellFormed, by rw [Cell.width, ← hs]; exact h.width⟩

namespace Emission
open Failure (Meets meets_ok meets_error)
variable {table : InstructionTable} {items : List Item} {e : Emission} {i : Item} {label : Text}

/-! ### Marks -/

/-- The cells, of which the first has the waiting label. -/
def mark : Option Lexeme → List Cell → List Cell
  | some name, c :: rest => { c with label := name.text } :: rest
  | _, cells => cells

theorem toList_emit (e : Emission) (cells : List Cell) :
    (e.emit cells).cells.toList = e.cells.toList ++ mark e.pending cells := by
  unfold emit mark
  split <;> simp_all

theorem pending_emit (e : Emission) (cells : List Cell) :
    (e.emit cells).pending = if cells = [] then e.pending else none := by
  unfold emit
  split <;> simp_all

theorem map_segments_mark (pending : Option Lexeme) (cells : List Cell) :
    (mark pending cells).map Cell.segments = cells.map Cell.segments := by
  unfold mark
  split <;> rfl

theorem exists_mem_of_mem_mark {pending : Option Lexeme} {cells : List Cell} {c' : Cell}
    (h : c' ∈ mark pending cells) : ∃ c ∈ cells, c.segments = c'.segments :=
  List.mem_map.mp (map_segments_mark pending cells ▸ List.mem_map.mpr ⟨c', h, rfl⟩)

theorem exists_mem_mark {cells : List Cell} {c : Cell} (h : c ∈ cells) (pending : Option Lexeme) :
    ∃ c' ∈ mark pending cells, c'.segments = c.segments :=
  List.mem_map.mp ((map_segments_mark pending cells).symm ▸ List.mem_map.mpr ⟨c, h, rfl⟩)

theorem map_bits_mark (address : Text → Nat) (pending : Option Lexeme) (cells : List Cell) :
    (mark pending cells).map (Cell.bits address) = cells.map (Cell.bits address) := by
  have h := congrArg (List.map (List.flatMap (Segment.bits address))) (map_segments_mark pending cells)
  rwa [List.map_map, List.map_map] at h

theorem findIdx?_mark {cells : List Cell} (hp : ∀ c ∈ cells, c.label = []) (hl : label ≠ [])
    (pending : Option Lexeme) :
    (mark pending cells).findIdx? (·.label = label) =
      if cells ≠ [] ∧ pending.map Lexeme.text = some label then some 0 else none := by
  have hplain {l : List Cell} (h : ∀ c ∈ l, c.label = []) : l.findIdx? (·.label = label) = none := by
    rw [List.findIdx?_eq_none_iff]
    intro c hc
    simpa [h c hc] using hl.symm
  unfold mark
  split
  next name c rest =>
    rw [List.findIdx?_cons, hplain (List.forall_mem_cons.mp hp).2]
    by_cases h : name.text = label <;> simp [h]
  next h =>
    rw [hplain hp, if_neg]
    rintro ⟨hne, hpend⟩
    obtain ⟨name, rfl, -⟩ := Option.map_eq_some_iff.mp hpend
    obtain ⟨c, rest, rfl⟩ := List.exists_cons_of_ne_nil hne
    exact h name c rest rfl rfl

/-! ### Items -/

/-- What has been put out holds the items, each declared label on the cell that follows. -/
structure Lays (table : InstructionTable) (items : List Item) (e : Emission) : Prop where
  whole : ∀ c ∈ e.cells.toList, c.Whole
  size : e.cells.toList.length = Item.totalSize items
  /-- No reference gets lost, so that linking has to find it an address. -/
  mentions : ∀ i ∈ items, ∀ label ∈ i.references, ∃ c ∈ e.cells.toList, c.Mentions label
  /-- With addresses for all references, the cells hold the bytes of the items. -/
  bytes : ∀ find? : Text → Option UInt16,
    (∀ i ∈ items, ∀ label ∈ i.references, (find? label).isSome) →
    ∃ pieces, items.mapM (Item.bytes? table fun label => (find? label).map UInt16.toNat) = some pieces ∧
      e.cells.toList.map (Cell.bits (addressOf find?)) =
        pieces.flatten.map fun b => Bits.list 8 b.toNat
  /-- The first cell with a label, or the next one if the label waits, is at its address. -/
  labels : ∀ label, label ≠ [] →
    (e.cells.toList.findIdx? (·.label = label)).or
      (if e.pending.map Lexeme.text = some label then some e.cells.toList.length else none) =
    Item.address? items label

theorem lays_nil : Lays table [] {} where
  whole := by simp
  size := rfl
  mentions := by simp
  bytes _ _ := ⟨[], rfl, rfl⟩
  labels _ _ := rfl

theorem Lays.declare (h : Lays table items e) (hp : e.pending = none) (name : Lexeme) :
    Lays table (items ++ [.label name]) { e with pending := some name } where
  whole := h.whole
  size := by rw [Item.totalSize_concat]; exact h.size
  mentions := by
    simp only [List.forall_mem_append, List.forall_mem_singleton]
    exact ⟨h.mentions, by simp [Item.references]⟩
  bytes find? hf := by
    obtain ⟨pieces, hpieces, hbits⟩ := h.bytes find? (List.forall_mem_append.mp hf).1
    refine ⟨pieces ++ [[]], ?_, by simpa using hbits⟩
    rw [List.mapM_append, hpieces]
    rfl
  labels label hl := by
    have hold := h.labels label hl
    rw [hp, Option.map_none, if_neg (by simp), Option.or_none] at hold
    rw [Item.address?_concat, ← hold, ← h.size]
    simp [Item.declares]

theorem Lays.emit (h : Lays table items e) {cells : List Cell} (hi : Encodes table i cells)
    (hd : ∀ label, i.declares label = false) : Lays table (items ++ [i]) (e.emit cells) where
  whole := by
    rw [toList_emit, List.forall_mem_append]
    refine ⟨h.whole, fun c' hc' => ?_⟩
    obtain ⟨c, hc, hseg⟩ := exists_mem_of_mem_mark hc'
    exact (hi.whole c hc).of_segments hseg
  size := by
    have hlen : (mark e.pending cells).length = cells.length := by
      simpa using congrArg List.length (map_segments_mark e.pending cells)
    rw [toList_emit, List.length_append, hlen, h.size, hi.length, Item.totalSize_concat]
  mentions := by
    simp only [toList_emit, List.forall_mem_append, List.forall_mem_singleton]
    constructor
    · intro j hj label hl
      obtain ⟨c, hc, hm⟩ := h.mentions j hj label hl
      exact ⟨c, List.mem_append_left _ hc, hm⟩
    · intro label hl
      obtain ⟨c, hc, s, hs, hm⟩ := hi.mentions label hl
      obtain ⟨c', hc', hseg⟩ := exists_mem_mark hc e.pending
      exact ⟨c', List.mem_append_right _ hc', s, hseg ▸ hs, hm⟩
  bytes find? hf := by
    simp only [List.forall_mem_append, List.forall_mem_singleton] at hf
    obtain ⟨pieces, hpieces, hbits⟩ := h.bytes find? hf.1
    obtain ⟨bs, hbs, hcells⟩ := hi.bytes find? hf.2
    refine ⟨pieces ++ [bs], ?_, ?_⟩
    · rw [List.mapM_append, hpieces, List.mapM_cons, hbs]
      rfl
    · rw [toList_emit, List.map_append, map_bits_mark, hbits, hcells, List.flatten_append,
        List.map_append, List.flatten_singleton]
  labels label hl := by
    rw [Item.address?_concat, hd, ← h.labels label hl, toList_emit, List.findIdx?_append,
      findIdx?_mark hi.plain hl, pending_emit, Option.or_assoc, Option.or_assoc]
    congr 1
    -- without cells the label goes on waiting, otherwise it has gone to the first of them
    by_cases hc : cells = []
    · subst hc
      cases e.pending <;> simp [mark]
    · by_cases hpend : e.pending.map Lexeme.text = some label <;> simp [hc, hpend]

theorem item_meets (h : Lays table items e) (hi : i.Sound table) (strict : Bool) :
    Meets (fun err => (∃ position label next, err = .danglingLabel position label next) ∨
        i.Refuses table err)
      (Lays table (items ++ [i])) (e.item table strict i) := by
  cases i with
  | label name =>
    show Meets _ _ (e.declare name)
    unfold declare
    split
    next p hp => exact meets_error (.inl ⟨_, _, _, rfl⟩)
    next hp => exact meets_ok (h.declare hp name)
  | data position d | instruction position mnemonic operands | pseudo position p =>
    refine ((Encoding.item_meets hi strict).mono (fun _ => .inr) fun _ h => h).bind fun cells hc => ?_
    exact meets_ok (h.emit hc fun _ => rfl)

end Emission

/-! ### Programs -/

namespace Program
open Failure (Meets meets_ok meets_error)
variable {table : InstructionTable} {p : Program}

/-- A sound program without inclusions is laid out, or refused. -/
theorem encode_meets (hp : ∀ f ∈ p.fields, f.Sound table ∧ f.isInclusion = false) (strict : Bool) :
    Meets (p.Refuses table) (fun cells => Emission.Lays table p.items ⟨cells.toArray, none⟩)
      (p.encode table strict) := by
  have hfield (fields : List Field) (f : Field) (e : Emission) (hf : f ∈ p.fields)
      (he : Emission.Lays table (fields.flatMap Field.items) e) :
      Meets (p.Refuses table) (Emission.Lays table ((fields ++ [f]).flatMap Field.items))
        (e.field table strict f) := by
    obtain ⟨hsound, hincl⟩ := hp f hf
    have hitems : Meets (p.Refuses table)
        (Emission.Lays table (fields.flatMap Field.items ++ f.items))
        (f.items.foldlM (Emission.item table strict) e) := by
      refine Meets.foldlM _ he fun items i e hi he => ?_
      refine (Emission.item_meets he (hsound.items i hi) strict).mono ?_ fun _ h => h
      exact fun err herr => herr.imp_right fun h => ⟨i, List.mem_flatMap.mpr ⟨f, hf, hi⟩, h⟩
    rw [List.flatMap_append, List.flatMap_singleton]
    cases f with
    | data position items | code position items => exact hitems
    | inclusion position path => cases hincl
  refine (Meets.foldlM (I := fun fields => Emission.Lays table (fields.flatMap Field.items)) []
    Emission.lays_nil hfield).bind fun e he => ?_
  unfold Emission.finish
  split
  next => exact meets_error (.inl ⟨_, _, _, rfl⟩)
  next hpend =>
    refine meets_ok ?_
    rw [← hpend]
    exact he

end Program
end AccAsm
