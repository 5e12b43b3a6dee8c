import AccAsm.Proofs.Linking

/-! # Packing keeps the bits

A packer is told what to put down by a sequence of calls (`Packer.Call`), each of which stands for a string
of bits (`Entry.bits`). If these fill whole cells, the cells hold the same string in pieces of eight, and
otherwise packing ends in a fault (`Packer.cells_exact`). The fields that a packer has taken in have the
bits of the calls (`Packer.Holds`), which every call preserves. What a cell without placeholders shows are
the binary digits of its byte (`Cell.Whole.exists_byte`, `Cell.renderBits_eq`). -/

namespace AccAsm
open Text (byte lit)

/-! ### Digits -/

namespace Bits

/-- The byte that a bit is written as. -/
def digit (b : Bool) : UInt8 := if b then byte '1' else byte '0'

/-- The bits `hi` to `lo` of `value`, both included. -/
def between (hi lo value : Nat) : List Bool := (List.range' lo (hi + 1 - lo)).reverse.map value.testBit

theorem list_eq_map (w v : Nat) : list w v = (List.range w).reverse.map v.testBit := by
  induction w with
  | zero => rfl
  | succ w ih => rw [list, ih, List.range_succ, List.reverse_append, List.map_append]; rfl

theorem between_eq_list (hi lo v : Nat) : between hi lo v = list (hi + 1 - lo) (v / 2 ^ lo) := by
  rw [between, list_eq_map, List.range'_eq_map_range, ← List.map_reverse, List.map_map]
  refine List.map_congr_left fun i _ => ?_
  rw [Nat.testBit_div_two_pow, Function.comp, Nat.add_comm]

theorem list_zero (w : Nat) : list w 0 = List.replicate w false := by
  induction w with
  | zero => rfl
  | succ w ih => rw [list, ih, Nat.zero_testBit, List.replicate_succ]

end Bits

namespace Numeral

theorem digitByte_mod_two (n : Nat) : digitByte (n % 2) = Bits.digit (n.testBit 0) := by
  rw [Nat.testBit_zero]
  rcases Nat.mod_two_eq_zero_or_one n with h | h <;> rw [h] <;> rfl

theorem zeroPadded_concat {w : Nat} {t : Text} (d : UInt8) :
    zeroPadded (w + 1) (t ++ [d]) = zeroPadded w t ++ [d] := by
  rw [zeroPadded, zeroPadded, List.length_append, List.length_singleton, Nat.add_sub_add_right,
    List.append_assoc]

/-- In base two a number with room for it is written as its bits. -/
theorem writePadded_two {w n : Nat} (hw : 0 < w) (hn : n < 2 ^ w) :
    writePadded 2 w n = (Bits.list w n).map Bits.digit := by
  induction w generalizing n with
  | zero => exact absurd hw (Nat.lt_irrefl 0)
  | succ w ih =>
    have hlast : Bits.list 1 n = [n.testBit 0] := rfl
    rw [Bits.list_add w 1, List.map_append, hlast, List.map_singleton, ← digitByte_mod_two, writePadded, write,
      digits]
    by_cases h₂ : n < 2
    · have hdiv : n / 2 ^ 1 = 0 := by omega
      rw [if_pos (.inl h₂), hdiv, Bits.list_zero, Nat.mod_eq_of_lt h₂, List.map_replicate]
      rfl
    · have hw : 0 < w := by
        rcases Nat.eq_zero_or_pos w with rfl | hw
        · exact absurd hn h₂
        · exact hw
      have hhalf : n / 2 < 2 ^ w := by
        rw [Nat.pow_succ] at hn
        omega
      rw [if_neg (by omega), List.map_append, List.map_singleton, zeroPadded_concat]
      exact congrArg (· ++ _) (ih hw hhalf)

end Numeral

/-! ### Cells without placeholders -/

namespace Segment
variable {s : Segment}

theorem exists_literal (h : s.ref?.isNone) : ∃ v w, s = literal v w := by
  cases s with
  | literal v w => exact ⟨v, w, rfl⟩
  | placeholder r w => cases h

theorem render_eq (h : s.ref?.isNone) (hs : s.WellFormed) (hw : s.width ≠ 0) (address : Text → Nat) :
    s.render = (s.bits address).map Bits.digit := by
  obtain ⟨v, w, rfl⟩ := exists_literal h
  have hlt : v.toNat < 2 ^ w.toNat := hs
  have hpos : 0 < w.toNat := Nat.pos_of_ne_zero fun h => hw (UInt8.toNat_inj.mp h)
  show Numeral.writePadded 2 w.toNat (Bits.low v w).toNat = _
  rw [Bits.toNat_low, Nat.mod_eq_of_lt hlt, Numeral.writePadded_two hpos hlt]
  rfl

end Segment

namespace Cell
variable {c : Cell}

theorem isResolved_iff : c.isResolved ↔ ∀ s ∈ c.segments, s.ref?.isNone := by
  rw [isResolved, List.all_eq_true]

/-- The bits of a cell without placeholders do not depend on addresses. -/
theorem bits_eq_of_isResolved (h : c.isResolved) (a a' : Text → Nat) : c.bits a = c.bits a' := by
  rw [bits, bits, List.flatMap_def, List.flatMap_def]
  refine congrArg _ (List.map_congr_left fun s hs => ?_)
  obtain ⟨v, w, rfl⟩ := Segment.exists_literal (isResolved_iff.mp h s hs)
  rfl

theorem renderBits_eq (hc : c.Whole) (hr : c.isResolved) (hw : ∀ s ∈ c.segments, s.width ≠ 0)
    (address : Text → Nat) : c.renderBits = (c.bits address).map Bits.digit := by
  rw [renderBits, bits, List.map_flatMap, List.flatMap_def, List.flatMap_def]
  refine congrArg _ (List.map_congr_left fun s hs => ?_)
  exact Segment.render_eq (isResolved_iff.mp hr s hs) (hc.wellFormed s hs) (hw s hs) address

/-- A cell without placeholders has the byte of its bits. -/
theorem Whole.exists_byte (hc : c.Whole) (hr : c.isResolved) :
    ∃ b, c.byte? = some b ∧ ∀ address, c.bits address = Bits.list 8 b.toNat := by
  have hfill : List.Forall₂ (fun s s' => LabelTable.empty.fill s = .ok s') c.segments c.segments := by
    refine List.forall₂_same.mpr fun s hs => ?_
    obtain ⟨v, w, rfl⟩ := Segment.exists_literal (isResolved_iff.mp hr s hs)
    rfl
  have hwidth : Segment.totalWidth c.segments = 8 := hc.width
  obtain ⟨r, hfold, hlt, hbits⟩ := LabelTable.append_filled hc.wellFormed hfill 0 0 (by decide) (by omega)
  rw [hwidth, Nat.zero_add] at hlt hbits
  have hbyte : r.toUInt8.toNat = r.toNat := by
    rw [UInt16.toNat_toUInt8]
    exact Nat.mod_eq_of_lt hlt
  refine ⟨r.toUInt8, by rw [byte?, hfold]; rfl, fun address => ?_⟩
  rw [hbyte, hbits, bits_eq_of_isResolved hr address LabelTable.empty.address]
  rfl

theorem map_byte? {cells : List Cell} {bytes : List UInt8} {address : Text → Nat}
    (hw : ∀ c ∈ cells, c.Whole) (hr : ∀ c ∈ cells, c.isResolved)
    (h : cells.map (bits address) = bytes.map fun b => Bits.list 8 b.toNat) :
    cells.map byte? = bytes.map some := by
  induction cells generalizing bytes with
  | nil =>
    rw [List.map_eq_nil_iff.mp h.symm]
    rfl
  | cons c cells ih =>
    cases bytes with
    | nil => cases h
    | cons b bytes =>
      obtain ⟨hw, hws⟩ := List.forall_mem_cons.mp hw
      obtain ⟨hr, hrs⟩ := List.forall_mem_cons.mp hr
      obtain ⟨hfirst, hrest⟩ := List.cons.inj h
      obtain ⟨b', hb', hbits⟩ := hw.exists_byte hr
      have hsame : b' = b :=
        UInt8.toNat_inj.mp (Bits.list_inj b'.toNat_lt b.toNat_lt ((hbits address).symm.trans hfirst))
      rw [List.map_cons, List.map_cons, hb', hsame, ih hws hrs hrest]

end Cell

/-! ### Calls -/

namespace Packer

/-- What a packer is told to put down. -/
inductive Entry where
  /-- The low bits of a value, with zeros in front where the value has no more. -/
  | value (v : UInt16) (width : UInt8)
  | address (r : Ref)

namespace Entry

def segment : Entry → Segment
  | value v w => .ofValue v w
  | address r => .ofRef r

/-- A reference names bits that an address has. -/
def Proper : Entry → Prop
  | value .. => True
  | address r => r.lo ≤ r.hi ∧ r.hi ≤ 15

def width : Entry → Nat
  | value _ w => w.toNat
  | address r => r.hi.toNat - r.lo.toNat + 1

/-- The bits that the entry stands for when every label has an address. -/
def bits (address : Text → UInt16) : Entry → List Bool
  | value v w => Bits.list w.toNat v.toNat
  | .address r => Bits.between r.hi.toNat r.lo.toNat (address r.label).toNat

end Entry

/-- The ways to give a packer an entry: as a value, as a reference, or as a segment made before. -/
inductive Call where
  | literal (v : UInt16) (width : UInt8)
  | ref (r : Ref)
  | segment (e : Entry)

namespace Call

def entry : Call → Entry
  | literal v w => .value v w
  | ref r => .address r
  | segment e => e

def apply (p : Packer) : Call → Packer
  | literal v w => p.literal v w
  | ref r => p.ref r
  | segment e => p.segment e.segment

/-- The number of bits of several calls. -/
def totalWidth : List Call → Nat
  | [] => 0
  | c :: rest => c.entry.width + totalWidth rest

end Call

/-- The packer that has taken in the calls. -/
def ofCalls (calls : List Call) : Packer := calls.foldl Call.apply {}

theorem Call.totalWidth_concat (calls : List Call) (c : Call) :
    totalWidth (calls ++ [c]) = totalWidth calls + c.entry.width := by
  induction calls with
  | nil => simp [totalWidth]
  | cons d calls ih => rw [List.cons_append, totalWidth, totalWidth, ih, Nat.add_assoc]

namespace Entry
variable {e : Entry}

theorem toNat_width_segment (h : e.Proper) : e.segment.width.toNat = e.width := by
  cases e with
  | value v w => rfl
  | address r =>
    obtain ⟨hle, hhi⟩ := h
    have hhi : r.hi.toNat ≤ 15 := UInt8.le_iff_toNat_le.mp hhi
    show (r.hi - r.lo + 1).toNat = r.hi.toNat - r.lo.toNat + 1
    rw [UInt8.toNat_add, UInt8.toNat_sub_of_le _ _ hle]
    exact Nat.mod_eq_of_lt (show r.hi.toNat - r.lo.toNat + 1 < 256 by omega)

theorem wellFormed_segment (h : e.Proper) : e.segment.WellFormed := by
  cases e with
  | value v w => exact Segment.wellFormed_ofValue v w
  | address r =>
    have hwidth : r.width.toNat = r.hi.toNat - r.lo.toNat + 1 := toNat_width_segment h
    have hle := UInt8.le_iff_toNat_le.mp h.1
    have hhi : r.hi.toNat ≤ 15 := UInt8.le_iff_toNat_le.mp h.2
    exact ⟨by omega, by omega, hhi⟩

theorem bits_segment (h : e.Proper) (address : Text → UInt16) :
    e.segment.bits (fun label => (address label).toNat) = e.bits address := by
  cases e with
  | value v w => exact Segment.bits_ofValue v w
  | address r =>
    have hwidth : r.width.toNat = r.hi.toNat - r.lo.toNat + 1 := toNat_width_segment h
    have hle := UInt8.le_iff_toNat_le.mp h.1
    show Bits.list r.width.toNat _ = Bits.between r.hi.toNat r.lo.toNat _
    rw [Bits.between_eq_list, hwidth, Nat.sub_add_comm hle]

end Entry

/-- What the packer has taken in are the calls: it announces their bits and holds them. -/
structure Holds (calls : List Call) (p : Packer) : Prop where
  width : p.width = Call.totalWidth calls
  total : Segment.totalWidth p.segments = p.width
  wellFormed : ∀ s ∈ p.segments, s.WellFormed
  bits : ∀ address : Text → UInt16, p.segments.flatMap (Segment.bits fun label => (address label).toNat) =
    calls.flatMap fun c => c.entry.bits address

namespace Holds
variable {calls : List Call} {p : Packer} {c : Call}

theorem nil : Holds [] {} := ⟨rfl, rfl, by simp, fun _ => rfl⟩

theorem segment (h : Holds calls p) (hc : c.entry.Proper) :
    Holds (calls ++ [c]) (p.segment c.entry.segment) where
  width := by
    rw [Call.totalWidth_concat, ← h.width, ← Entry.toNat_width_segment hc]
    rfl
  total := by
    show Segment.totalWidth (p.segments ++ [c.entry.segment]) = p.width + c.entry.segment.width.toNat
    rw [Segment.totalWidth_append, h.total]
    rfl
  wellFormed := by
    refine List.forall_mem_append.mpr ⟨h.wellFormed, fun s hs => ?_⟩
    rw [List.mem_singleton.mp hs]
    exact Entry.wellFormed_segment hc
  bits address := by
    show (p.segments ++ [c.entry.segment]).flatMap _ = _
    rw [List.flatMap_append, h.bits, List.flatMap_append, List.flatMap_singleton, List.flatMap_singleton,
      Entry.bits_segment hc]

/-- A value without any width is not even put down. -/
theorem empty (h : Holds calls p) (hw : c.entry.width = 0) (hb : ∀ address, c.entry.bits address = []) :
    Holds (calls ++ [c]) p where
  width := by rw [Call.totalWidth_concat, hw, h.width, Nat.add_zero]
  total := h.total
  wellFormed := h.wellFormed
  bits address := by rw [h.bits, List.flatMap_append, List.flatMap_singleton, hb, List.append_nil]

/-- Every call adds its bits. -/
theorem apply (h : Holds calls p) (hc : c.entry.Proper) : Holds (calls ++ [c]) (c.apply p) := by
  cases c with
  | literal v w =>
    show Holds _ (p.literal v w)
    unfold Packer.literal
    split
    next hw => exact h.empty (by rw [hw]; rfl) fun _ => by rw [hw]; rfl
    next => exact h.segment hc
  | ref r =>
    have hwidth : (r.hi - r.lo).toNat + 1 = r.width.toNat := by
      rw [UInt8.toNat_sub_of_le _ _ hc.1]
      exact (Entry.toNat_width_segment hc).symm
    have hsame : p.ref r = p.segment (.ofRef r) := by
      rw [Packer.ref, Nat.add_assoc, hwidth]
      rfl
    show Holds _ (p.ref r)
    rw [hsame]
    exact h.segment hc
  | segment e => exact h.segment hc

theorem foldl {done : List Call} (h : Holds done p) (hc : ∀ c ∈ calls, c.entry.Proper) :
    Holds (done ++ calls) (calls.foldl Call.apply p) := by
  induction calls generalizing done p with
  | nil => rwa [List.append_nil]
  | cons c calls ih =>
    obtain ⟨hfirst, hrest⟩ := List.forall_mem_cons.mp hc
    have := ih (h.apply hfirst) hrest
    rwa [List.append_assoc, List.singleton_append] at this

/-- The packer that took in the calls is the one of its own segments. -/
theorem eq_ofList (h : Holds calls p) : p = ofList p.segments := by
  rw [ofList, h.total]

end Holds

theorem holds_ofCalls {calls : List Call} (hc : ∀ c ∈ calls, c.entry.Proper) : Holds calls (ofCalls calls) :=
  Holds.nil.foldl hc

/-- No segment of a cell is empty. -/
theorem width_ne_zero_of_cells {fields : List Segment} {position : Position} {cells : List Cell}
    (h : (ofList fields).cells position = .ok cells) : ∀ c ∈ cells, ∀ s ∈ c.segments, s.width ≠ 0 := by
  have hsplit (s : Segment) (n : UInt8) (h₀ : 0 < n.toNat) (hn : n.toNat < s.width.toNat) :
      (s.split n).1.width ≠ 0 ∧ (s.split n).2.width ≠ 0 := by
    have hfirst : (s.split n).1.width = n := by cases s <;> rfl
    rw [hfirst, Segment.width_split_snd, ← UInt8.toNat_inj.ne, ← UInt8.toNat_inj.ne,
      Segment.toNat_width_sub (Nat.le_of_lt hn)]
    exact ⟨Nat.ne_of_gt h₀, Nat.sub_ne_zero_of_lt hn⟩
  intro c hc
  exact (forall_mem_cells (fun s n _ => hsplit s n) (fun s _ hs => hs) h c hc).2.2

/-- Calls that fill whole cells are packed into cells with their bits, and all others end in a fault. -/
theorem cells_exact {calls : List Call} (hc : ∀ c ∈ calls, c.entry.Proper) (position : Position) :
    (Call.totalWidth calls % cellBits ≠ 0 →
      (ofCalls calls).cells position = .error (.partialCell (Call.totalWidth calls))) ∧
    (Call.totalWidth calls % cellBits = 0 → ∃ cells, (ofCalls calls).cells position = .ok cells ∧
      cells.length = Call.totalWidth calls / cellBits ∧
      (∀ c ∈ cells, c.width = cellBits ∧ c.position = position ∧ ∀ s ∈ c.segments, s.WellFormed) ∧
      (∀ address : Text → UInt16, cells.flatMap (Cell.bits fun label => (address label).toNat) =
        calls.flatMap fun c => c.entry.bits address) ∧
      ∀ c ∈ cells, c.isResolved →
        ∃ b, c.byte? = some b ∧ c.renderBits = (Bits.list 8 b.toNat).map Bits.digit) := by
  have h := holds_ofCalls hc
  constructor
  · intro hw
    rw [Packer.cells, if_neg (by rwa [h.width]), h.width]
  · intro hw
    have htotal := h.total.trans h.width
    obtain ⟨cells, hcells, hpacked⟩ := packed_cells h.wellFormed (by rwa [htotal]) position
    have hpositive := width_ne_zero_of_cells hcells
    rw [← h.eq_ofList] at hcells
    refine ⟨cells, hcells, ?_, fun c hc => ?_, fun address => ?_, fun c hc hr => ?_⟩
    · rw [← htotal, ← hpacked.length_mul, Nat.mul_div_cancel _ (by decide)]
    · exact ⟨(hpacked.whole c hc).width, (hpacked.plain c hc).2, (hpacked.whole c hc).wellFormed⟩
    · rw [hpacked.bits, h.bits]
    · obtain ⟨b, hb, hbits⟩ := (hpacked.whole c hc).exists_byte hr
      refine ⟨b, hb, ?_⟩
      rw [Cell.renderBits_eq (hpacked.whole c hc) hr (hpositive c hc) fun _ => 0, hbits]

/-- A value, the bits 12 to 3 of an address and a value with leading zeros, which cross the ends of cells. One
bit more is too many. -/
theorem cells_exact_crossing :
    let calls : List Call :=
      [.literal 0x2A5 10, .ref ⟨lit "_a", 12, 3, {}⟩, .segment (.value 7 0), .segment (.value 1 20)]
    (∀ c ∈ calls, c.entry.Proper) ∧
      (∃ cells, (ofCalls calls).cells {} = .ok cells ∧ cells.length = 5 ∧
        cells.flatMap (Cell.bits fun _ => 0xABCD) =
          Bits.list 10 0x2A5 ++ Bits.between 12 3 0xABCD ++ Bits.list 20 1) ∧
      (ofCalls (calls ++ [.literal 1 1])).cells {} = .error (.partialCell 41) := by
  intro calls
  have hc : ∀ c ∈ calls, c.entry.Proper := by
    simp only [calls, List.forall_mem_cons, Call.entry, Entry.Proper, true_and]
    exact ⟨by decide, by simp⟩
  have hmore : ∀ c ∈ calls ++ [.literal 1 1], c.entry.Proper :=
    List.forall_mem_append.mpr ⟨hc, fun c hc => List.mem_singleton.mp hc ▸ trivial⟩
  have htotal : Call.totalWidth calls = 40 := by decide
  have htotal' : Call.totalWidth (calls ++ [.literal 1 1]) = 41 := by decide
  obtain ⟨-, hfull⟩ := cells_exact hc {}
  obtain ⟨hpartial, -⟩ := cells_exact hmore {}
  rw [htotal] at hfull
  rw [htotal'] at hpartial
  obtain ⟨cells, hcells, hlen, -, hbits, -⟩ := hfull rfl
  exact ⟨hc, ⟨cells, hcells, hlen, hbits fun _ => 0xABCD⟩, hpartial (by decide)⟩

end Packer
end AccAsm
