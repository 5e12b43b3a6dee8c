import AccAsm.Cell.Packer
import Mathlib.Data.List.Basic
import Mathlib.Data.Nat.Bitwise

/-! # Segments and cells as strings of bits

`Bits.list width value` is the bit string of a number, most significant bit first. With an address for
every label, a segment and a cell are bit strings too. Splitting a segment splits its string, and
packing fields into cells keeps the string that they form (`Packer.packed_cells`): the cells are its
pieces of eight bits. -/

namespace AccAsm

namespace Bits

/-- The low `width` bits of `value`, most significant one first. -/
def list : Nat → Nat → List Bool
  | 0, _ => []
  | width + 1, value => value.testBit width :: list width value

@[simp] theorem length_list (w v : Nat) : (list w v).length = w := by
  induction w with
  | zero => rfl
  | succ w ih => rw [list, List.length_cons, ih]

/-- Only the low bits count. -/
theorem list_eq_list_iff {w a b : Nat} :
    list w a = list w b ↔ ∀ i < w, a.testBit i = b.testBit i := by
  induction w with
  | zero => simp [list]
  | succ w ih =>
    rw [list, list, List.cons.injEq, ih]
    constructor
    · rintro ⟨hw, hi⟩ i hlt
      rcases Nat.lt_succ_iff_lt_or_eq.mp hlt with hlt | rfl
      · exact hi i hlt
      · exact hw
    · intro h
      exact ⟨h w (Nat.lt_succ_self w), fun i hi => h i (Nat.lt_succ_of_lt hi)⟩

theorem list_mod {w n : Nat} (h : w ≤ n) (v : Nat) : list w (v % 2 ^ n) = list w v := by
  refine list_eq_list_iff.mpr fun i hi => ?_
  rw [Nat.testBit_mod_two_pow, decide_eq_true (Nat.lt_of_lt_of_le hi h), Bool.true_and]

theorem list_inj {w a b : Nat} (ha : a < 2 ^ w) (hb : b < 2 ^ w) (h : list w a = list w b) : a = b := by
  refine Nat.eq_of_testBit_eq fun i => ?_
  by_cases hi : i < w
  · exact list_eq_list_iff.mp h i hi
  · have hpow : 2 ^ w ≤ 2 ^ i := Nat.pow_le_pow_right (by decide) (Nat.le_of_not_lt hi)
    rw [Nat.testBit_lt_two_pow (Nat.lt_of_lt_of_le ha hpow),
      Nat.testBit_lt_two_pow (Nat.lt_of_lt_of_le hb hpow)]

theorem list_add (m n v : Nat) : list (m + n) v = list m (v / 2 ^ n) ++ list n v := by
  induction m with
  | zero => rw [Nat.zero_add, list, List.nil_append]
  | succ m ih =>
    rw [Nat.succ_add_eq_add_succ, Nat.add_succ, list, list, List.cons_append, ih,
      Nat.testBit_div_two_pow]

/-- The bits of two numbers side by side. -/
theorem list_mul_add {n b : Nat} (m a : Nat) (hb : b < 2 ^ n) :
    list (m + n) (a * 2 ^ n + b) = list m a ++ list n b := by
  have hdiv : (a * 2 ^ n + b) / 2 ^ n = a := by
    rw [Nat.add_comm, Nat.add_mul_div_right _ _ (Nat.two_pow_pos n), Nat.div_eq_of_lt hb, Nat.zero_add]
  have hmod : (a * 2 ^ n + b) % 2 ^ n = b := by
    rw [Nat.add_comm, Nat.add_mul_mod_self_right, Nat.mod_eq_of_lt hb]
  rw [list_add, hdiv, ← list_mod (Nat.le_refl n) (a * 2 ^ n + b), hmod]

theorem list_toUInt8 (n : Nat) : list 8 n.toUInt8.toNat = list 8 n := by
  rw [Nat.toUInt8_eq, UInt8.toNat_ofNat', list_mod (Nat.le_refl 8)]

/-! ### Numbers of 16 bits -/

theorem toNat_low (v : UInt16) (w : UInt8) : (low v w).toNat = v.toNat % 2 ^ w.toNat := by
  have hle := Nat.mod_le v.toNat (2 ^ w.toNat)
  have hv := v.toNat_lt
  show (UInt16.ofNat (v.toNat % 2 ^ w.toNat)).toNat = _
  rw [UInt16.toNat_ofNat', Nat.mod_eq_of_lt (by omega)]

theorem toNat_shiftDown (v : UInt16) (w : UInt8) : (shiftDown v w).toNat = v.toNat / 2 ^ w.toNat := by
  have hle := Nat.div_le_self v.toNat (2 ^ w.toNat)
  have hv := v.toNat_lt
  show (UInt16.ofNat (v.toNat / 2 ^ w.toNat)).toNat = _
  rw [UInt16.toNat_ofNat', Nat.mod_eq_of_lt (by omega)]

theorem toNat_shiftUp_or {acc v : UInt16} {w : UInt8} {used : Nat} (ha : acc.toNat < 2 ^ used)
    (hv : v.toNat < 2 ^ w.toNat) (hw : used + w.toNat ≤ 16) :
    (shiftUp acc w ||| v).toNat = acc.toNat * 2 ^ w.toNat + v.toNat := by
  have hlt : acc.toNat * 2 ^ w.toNat < 2 ^ 16 := by
    calc acc.toNat * 2 ^ w.toNat < 2 ^ used * 2 ^ w.toNat :=
          Nat.mul_lt_mul_of_pos_right ha (Nat.two_pow_pos _)
      _ = 2 ^ (used + w.toNat) := (Nat.pow_add 2 used w.toNat).symm
      _ ≤ 2 ^ 16 := Nat.pow_le_pow_right (by decide) hw
  have hshift : (shiftUp acc w).toNat = acc.toNat * 2 ^ w.toNat := by
    show (UInt16.ofNat (acc.toNat * 2 ^ w.toNat)).toNat = _
    rw [UInt16.toNat_ofNat', Nat.mod_eq_of_lt hlt]
  rw [UInt16.toNat_or, hshift, Nat.mul_comm, ← Nat.two_pow_add_eq_or_of_lt hv]

end Bits

/-- The address of a label, zero for labels that have none. -/
def addressOf (find? : Text → Option UInt16) (label : Text) : Nat :=
  ((find? label).map UInt16.toNat).getD 0

namespace Segment

/-- The bits of a segment when every label has an address. -/
def bits (address : Text → Nat) : Segment → List Bool
  | literal value w => Bits.list w.toNat value.toNat
  | placeholder r w => Bits.list w.toNat (address r.label / 2 ^ r.lo.toNat)

/-- A value within its width, or as many bits as a reference names, all of them bits of an address. -/
def WellFormed : Segment → Prop
  | literal value w => value.toNat < 2 ^ w.toNat
  | placeholder r w => r.lo.toNat + w.toNat = r.hi.toNat + 1 ∧ 0 < w.toNat ∧ r.hi.toNat ≤ 15

/-- The segment stands for a part of the address of the label. -/
def Mentions (s : Segment) (label : Text) : Prop := ∃ r, s.ref? = some r ∧ r.label = label

variable {s : Segment} {address : Text → Nat} {n : UInt8}

@[simp] theorem length_bits : (s.bits address).length = s.width.toNat := by
  cases s <;> simp [bits, width]

theorem wellFormed_ofValue (value : UInt16) (w : UInt8) : (ofValue value w).WellFormed := by
  show (Bits.low value w).toNat < 2 ^ w.toNat
  rw [Bits.toNat_low]
  exact Nat.mod_lt _ (Nat.two_pow_pos _)

theorem bits_ofValue (value : UInt16) (w : UInt8) :
    (ofValue value w).bits address = Bits.list w.toNat value.toNat := by
  rw [ofValue, bits, Bits.toNat_low, Bits.list_mod (Nat.le_refl _)]

theorem not_mentions_of_width (h : s.WellFormed) (hw : s.width.toNat = 0) (label : Text) :
    ¬ s.Mentions label := by
  rintro ⟨r, hr, -⟩
  cases s with
  | literal value w => cases hr
  | placeholder r w =>
    have := h.2.1
    rw [width] at hw
    omega

theorem toNat_width_sub (h : n.toNat ≤ s.width.toNat) :
    (s.width - n).toNat = s.width.toNat - n.toNat :=
  UInt8.toNat_sub_of_le _ _ (UInt8.le_iff_toNat_le.mpr h)

theorem WellFormed.split (h : s.WellFormed) (h₀ : 0 < n.toNat) (hn : n.toNat < s.width.toNat) :
    (s.split n).1.WellFormed ∧ (s.split n).2.WellFormed := by
  cases s with
  | literal value w => exact ⟨wellFormed_ofValue _ _, wellFormed_ofValue _ _⟩
  | placeholder r w =>
    obtain ⟨hw, hpos, hhi⟩ := h
    have hn : n.toNat < w.toNat := hn
    have hsub : (r.hi - n).toNat = r.hi.toNat - n.toNat :=
      UInt8.toNat_sub_of_le _ _ (UInt8.le_iff_toNat_le.mpr (by omega))
    have hlo : (r.hi - n + 1).toNat = r.hi.toNat - n.toNat + 1 := by
      rw [UInt8.toNat_add, hsub]
      exact Nat.mod_eq_of_lt (show r.hi.toNat - n.toNat + 1 < 256 by omega)
    have hrest : (w - n).toNat = w.toNat - n.toNat :=
      UInt8.toNat_sub_of_le _ _ (UInt8.le_iff_toNat_le.mpr (by omega))
    refine ⟨⟨?_, h₀, hhi⟩, ?_, ?_, ?_⟩
    · show (r.hi - n + 1).toNat + n.toNat = r.hi.toNat + 1
      omega
    · show r.lo.toNat + (w - n).toNat = (r.hi - n).toNat + 1
      omega
    · omega
    · show (r.hi - n).toNat ≤ 15
      omega

theorem bits_split (h : s.WellFormed) (hn : n.toNat < s.width.toNat) (address : Text → Nat) :
    (s.split n).1.bits address ++ (s.split n).2.bits address = s.bits address := by
  have hrest := toNat_width_sub (Nat.le_of_lt hn)
  have hsum : n.toNat + (s.width - n).toNat = s.width.toNat := by omega
  cases s with
  | literal value w =>
    show (ofValue _ _).bits address ++ (ofValue _ _).bits address = Bits.list w.toNat value.toNat
    have hsum : n.toNat + (w - n).toNat = w.toNat := hsum
    rw [bits_ofValue, bits_ofValue, Bits.toNat_shiftDown, ← Bits.list_add, hsum]
  | placeholder r w =>
    obtain ⟨hw, hpos, hhi⟩ := h
    have hn : n.toNat < w.toNat := hn
    have hrest : (w - n).toNat = w.toNat - n.toNat := hrest
    have hsum : n.toNat + (w - n).toNat = w.toNat := hsum
    have hlo : (r.hi - n + 1).toNat = r.lo.toNat + (w - n).toNat := by
      rw [UInt8.toNat_add, UInt8.toNat_sub_of_le _ _ (UInt8.le_iff_toNat_le.mpr (by omega)), hrest]
      show (r.hi.toNat - n.toNat + 1) % 256 = _
      omega
    show Bits.list n.toNat (address r.label / 2 ^ (r.hi - n + 1).toNat) ++
      Bits.list (w - n).toNat (address r.label / 2 ^ r.lo.toNat) = _
    rw [hlo, Nat.pow_add, ← Nat.div_div_eq_div_mul, ← Bits.list_add, hsum]
    rfl

theorem mentions_split {label : Text} : (s.split n).1.Mentions label ↔ s.Mentions label := by
  cases s with
  | literal value w => simp [Mentions, split, ofValue, ref?]
  | placeholder r w => simp [Mentions, split, ref?]

theorem totalWidth_append (a b : List Segment) : totalWidth (a ++ b) = totalWidth a + totalWidth b := by
  induction a with
  | nil => simp [totalWidth]
  | cons s a ih => simp only [List.cons_append, totalWidth, ih, Nat.add_assoc]

theorem totalWidth_reverse (l : List Segment) : totalWidth l.reverse = totalWidth l := by
  induction l with
  | nil => rfl
  | cons s l ih => rw [List.reverse_cons, totalWidth_append, ih]; simp [totalWidth, Nat.add_comm]

theorem length_flatMap_bits (address : Text → Nat) (l : List Segment) :
    (l.flatMap (bits address)).length = totalWidth l := by
  induction l with
  | nil => rfl
  | cons s l ih => rw [List.flatMap_cons, List.length_append, ih, length_bits, totalWidth]

theorem bits_eq_nil {l : List Segment} (hf : ∀ s ∈ l, s.WellFormed) (hw : totalWidth l = 0) :
    (∀ address, l.flatMap (bits address) = []) ∧ ∀ s ∈ l, ∀ label, ¬ s.Mentions label := by
  refine ⟨fun address => List.eq_nil_of_length_eq_zero ?_, fun s hs label => ?_⟩
  · rw [length_flatMap_bits, hw]
  · refine not_mentions_of_width (hf s hs) ?_ label
    obtain ⟨a, b, rfl⟩ := List.append_of_mem hs
    rw [totalWidth_append, totalWidth] at hw
    omega

end Segment

namespace Cell

/-- The bits of a cell when every label has an address. -/
def bits (address : Text → Nat) (c : Cell) : List Bool := c.segments.flatMap (Segment.bits address)

/-- A cell of eight bits. -/
structure Whole (c : Cell) : Prop where
  wellFormed : ∀ s ∈ c.segments, s.WellFormed
  width : c.width = cellBits

def Mentions (c : Cell) (label : Text) : Prop := ∃ s ∈ c.segments, s.Mentions label

theorem Whole.length_bits {c : Cell} (h : c.Whole) (address : Text → Nat) :
    (c.bits address).length = cellBits :=
  (Segment.length_flatMap_bits _ _).trans h.width

end Cell

/-! ### Packing -/

/-- The cells hold the bits of the fields, eight in each cell. -/
structure Packed (position : Position) (fields : List Segment) (cells : List Cell) : Prop where
  whole : ∀ c ∈ cells, c.Whole
  plain : ∀ c ∈ cells, c.label = [] ∧ c.position = position
  bits : ∀ address, cells.flatMap (Cell.bits address) = fields.flatMap (Segment.bits address)
  mentions : ∀ s ∈ fields, ∀ label, s.Mentions label → ∃ c ∈ cells, c.Mentions label

namespace Packed
variable {position : Position} {fields : List Segment} {cells : List Cell}

/-- Only the bits and the labels of the fields count. -/
theorem of_fields {fields' : List Segment} (h : Packed position fields cells)
    (hb : ∀ address, fields'.flatMap (Segment.bits address) = fields.flatMap (Segment.bits address))
    (hm : ∀ s ∈ fields', ∀ label, s.Mentions label → ∃ s' ∈ fields, s'.Mentions label) :
    Packed position fields' cells where
  whole := h.whole
  plain := h.plain
  bits address := (h.bits address).trans (hb address).symm
  mentions s hs label hl := by
    obtain ⟨s', hs', hl'⟩ := hm s hs label hl
    exact h.mentions s' hs' label hl'

/-- A field without any width goes unnoticed. -/
theorem insert_empty {before after : List Segment} {s : Segment} (hs : s.WellFormed)
    (hw : s.width.toNat = 0) (h : Packed position (before ++ after) cells) :
    Packed position (before ++ s :: after) cells := by
  have hbits (address : Text → Nat) : s.bits address = [] :=
    List.eq_nil_of_length_eq_zero (Segment.length_bits.trans hw)
  refine h.of_fields (fun address => ?_) fun t ht label hl => ?_
  · simp only [List.flatMap_append, List.flatMap_cons, hbits, List.nil_append]
  · have hts : t ≠ s := fun hts => Segment.not_mentions_of_width hs hw label (hts ▸ hl)
    have ht : t ∈ before ++ after := by simpa [hts] using ht
    exact ⟨t, ht, hl⟩

/-- The parts of a split field are as good as the field. -/
theorem join_split {before after : List Segment} {s : Segment} {n : UInt8} (hs : s.WellFormed)
    (hn : n.toNat < s.width.toNat)
    (h : Packed position (before ++ (s.split n).1 :: (s.split n).2 :: after) cells) :
    Packed position (before ++ s :: after) cells := by
  refine h.of_fields (fun address => ?_) fun t ht label hl => ?_
  · rw [List.flatMap_append, List.flatMap_append, List.flatMap_cons, List.flatMap_cons,
      List.flatMap_cons, ← Segment.bits_split hs hn address, List.append_assoc]
  · by_cases hts : t = s
    · exact ⟨(s.split n).1, by simp, Segment.mentions_split.mpr (hts ▸ hl)⟩
    · rcases List.mem_append.mp ht with ht | ht
      · exact ⟨t, List.mem_append_left _ ht, hl⟩
      · have ht : t ∈ after := (List.mem_cons.mp ht).resolve_left hts
        exact ⟨t, List.mem_append_right _ (.tail _ (.tail _ ht)), hl⟩

theorem length_mul (h : Packed position fields cells) :
    cells.length * cellBits = Segment.totalWidth fields := by
  have hlen := congrArg List.length (h.bits fun _ => 0)
  rwa [Segment.length_flatMap_bits, List.length_flatMap,
    List.map_eq_replicate_iff.mpr fun c hc => (h.whole c hc).length_bits _, List.sum_replicate_nat] at hlen

/-- Fields that form the given bytes put one into each cell. -/
theorem map_bits (h : Packed position fields cells) {address : Text → Nat} {bytes : List UInt8}
    (hb : fields.flatMap (Segment.bits address) = bytes.flatMap fun b => Bits.list 8 b.toNat) :
    cells.map (Cell.bits address) = bytes.map fun b => Bits.list 8 b.toNat := by
  have hflat := (h.bits address).trans hb
  rw [List.flatMap_def, List.flatMap_def] at hflat
  refine List.eq_iff_flatten_eq.mpr ⟨hflat, ?_⟩
  have hcells : (cells.map (Cell.bits address)).map List.length = List.replicate cells.length 8 := by
    rw [List.map_map, List.map_eq_replicate_iff]
    exact fun c hc => (h.whole c hc).length_bits address
  have hbytes : (bytes.map fun b : UInt8 => Bits.list 8 b.toNat).map List.length =
      List.replicate bytes.length 8 := by
    rw [List.map_map, List.map_eq_replicate_iff]
    exact fun b _ => Bits.length_list 8 b.toNat
  have hlen := congrArg List.length hflat
  rw [List.length_flatten, List.length_flatten, hcells, hbytes, List.sum_replicate_nat,
    List.sum_replicate_nat] at hlen
  rw [hcells, hbytes, Nat.eq_of_mul_eq_mul_right (by decide) hlen]

end Packed

namespace Packer
variable {position : Position} {done : List Cell} {front segments : List Segment}
  {used : Fin cellBits}

/-- Whatever holds of the fields and of both parts of a split field holds of all segments of the cells. -/
theorem forall_mem_cut {Q : Segment → Prop}
    (hsplit : ∀ s n, Q s → 0 < n.toNat → n.toNat < s.width.toNat → Q (s.split n).1 ∧ Q (s.split n).2)
    (hd : ∀ c ∈ done, c.label = [] ∧ c.position = position ∧ ∀ s ∈ c.segments, Q s)
    (hf : ∀ s ∈ front, Q s) (hs : ∀ s ∈ segments, s.width ≠ 0 → Q s) :
    ∀ c ∈ cut position done front used segments,
      c.label = [] ∧ c.position = position ∧ ∀ s ∈ c.segments, Q s := by
  have hclosed {front : List Segment} {s : Segment} (h : Q s) (hf : ∀ s ∈ front, Q s) :
      ∀ t ∈ (s :: front).reverse, Q t :=
    fun t ht => List.forall_mem_cons.mpr ⟨h, hf⟩ t (List.mem_reverse.mp ht)
  fun_induction cut position done front used segments with
  | case1 => exact fun c hc => hd c (List.mem_reverse.mp hc)
  | case2 _ _ _ s rest _ ih => exact ih hd hf (List.forall_mem_cons.mp hs).2
  | case3 _ _ _ s rest h₀ _ ih =>
    obtain ⟨hfirst, hrest⟩ := List.forall_mem_cons.mp hs
    exact ih hd (List.forall_mem_cons.mpr ⟨hfirst h₀, hf⟩) hrest
  | case4 _ _ _ s rest h₀ _ _ ih =>
    obtain ⟨hfirst, hrest⟩ := List.forall_mem_cons.mp hs
    exact ih (List.forall_mem_cons.mpr ⟨⟨rfl, rfl, hclosed (hfirst h₀) hf⟩, hd⟩) (by simp) hrest
  | case5 _ _ used s rest h₀ hlt hne free _ parts ih =>
    obtain ⟨hfirst, hrest⟩ := List.forall_mem_cons.mp hs
    have hfree : free.toUInt8.toNat = cellBits - used := by
      simp only [free, cellBits, Nat.toUInt8_eq, UInt8.toNat_ofNat']
      omega
    have hused := used.isLt
    simp only [cellBits] at hused hfree hlt hne
    obtain ⟨hfront, hback⟩ := hsplit s free.toUInt8 (hfirst h₀) (by omega) (by omega)
    exact ih (List.forall_mem_cons.mpr ⟨⟨rfl, rfl, hclosed hfront hf⟩, hd⟩) (by simp)
      (List.forall_mem_cons.mpr ⟨fun _ => hback, hrest⟩)

theorem forall_mem_cells {Q : Segment → Prop} {p : Packer} {cells : List Cell}
    (hsplit : ∀ s n, Q s → 0 < n.toNat → n.toNat < s.width.toNat → Q (s.split n).1 ∧ Q (s.split n).2)
    (hs : ∀ s ∈ p.segments, s.width ≠ 0 → Q s) (h : p.cells position = .ok cells) :
    ∀ c ∈ cells, c.label = [] ∧ c.position = position ∧ ∀ s ∈ c.segments, Q s := by
  unfold Packer.cells at h
  split at h
  next =>
    cases h
    exact forall_mem_cut hsplit (by simp) (by simp) hs
  next => cases h

/-- A field that fills the open cell closes it. -/
theorem whole_closed (position : Position) {s : Segment} (hs : s.WellFormed) (hf : ∀ s ∈ front, s.WellFormed)
    (hw : s.width.toNat + Segment.totalWidth front = cellBits) :
    Cell.Whole { segments := (s :: front).reverse, position } :=
  ⟨fun t ht => List.forall_mem_cons.mpr ⟨hs, hf⟩ t (List.mem_reverse.mp ht),
    (Segment.totalWidth_reverse _).trans hw⟩

/-- Cutting the rest of the fields completes the cells that are done and the open one. -/
theorem packed_cut (hd : ∀ c ∈ done, c.Whole ∧ c.label = [] ∧ c.position = position)
    (hf : ∀ s ∈ front, s.WellFormed) (hu : Segment.totalWidth front = used)
    (hs : ∀ s ∈ segments, s.WellFormed)
    (hw : (used + Segment.totalWidth segments) % cellBits = 0) :
    Packed position (done.reverse.flatMap Cell.segments ++ (front.reverse ++ segments))
      (cut position done front used segments) := by
  fun_induction cut position done front used segments with
  | case1 done front used =>
    -- nothing is left open
    have hzero : Segment.totalWidth front = 0 := by
      have := used.isLt
      simp only [cellBits, Segment.totalWidth, Nat.add_zero] at hw this
      omega
    have hf : ∀ s ∈ front.reverse, s.WellFormed := fun s hs => hf s (List.mem_reverse.mp hs)
    obtain ⟨hbits, hment⟩ := Segment.bits_eq_nil hf (by rw [Segment.totalWidth_reverse, hzero])
    refine ⟨fun c hc => (hd c (List.mem_reverse.mp hc)).1, fun c hc => (hd c (List.mem_reverse.mp hc)).2,
      fun address => ?_, fun s hs label hl => ?_⟩
    · rw [List.append_nil, List.flatMap_append, hbits, List.append_nil, List.flatMap_assoc]
      rfl
    · rw [List.append_nil] at hs
      rcases List.mem_append.mp hs with hs | hs
      · obtain ⟨c, hc, hs⟩ := List.mem_flatMap.mp hs
        exact ⟨c, hc, s, hs, hl⟩
      · exact absurd hl (hment s hs label)
  | case2 done front used s rest h₀ ih =>
    obtain ⟨hsw, hs⟩ := List.forall_mem_cons.mp hs
    have hzero : s.width.toNat = 0 := by rw [h₀]; rfl
    rw [Segment.totalWidth, hzero, Nat.zero_add] at hw
    have hpacked := ih hd hf hu hs hw
    rw [← List.append_assoc] at hpacked ⊢
    exact hpacked.insert_empty hsw hzero
  | case3 done front used s rest h₀ hlt ih =>
    obtain ⟨hsw, hs⟩ := List.forall_mem_cons.mp hs
    rw [Segment.totalWidth, ← Nat.add_assoc] at hw
    have := ih hd (List.forall_mem_cons.mpr ⟨hsw, hf⟩)
      (by rw [Segment.totalWidth, hu, Nat.add_comm]) hs hw
    rwa [List.reverse_cons, List.append_assoc, List.singleton_append] at this
  | case4 done front used s rest h₀ hlt heq ih =>
    obtain ⟨hsw, hs⟩ := List.forall_mem_cons.mp hs
    have hcell := whole_closed position hsw hf (by rw [hu, Nat.add_comm, heq])
    rw [Segment.totalWidth, ← Nat.add_assoc, heq, Nat.add_mod_left] at hw
    have := ih (List.forall_mem_cons.mpr ⟨⟨hcell, rfl, rfl⟩, hd⟩) (by simp) rfl hs
      (by simpa using hw)
    simpa [List.flatMap_append] using this
  | case5 done front used s rest h₀ hlt hne free hload parts ih =>
    obtain ⟨hsw, hs⟩ := List.forall_mem_cons.mp hs
    have hused := used.isLt
    have hfree : free.toUInt8.toNat = cellBits - used := by
      simp only [free, cellBits, Nat.toUInt8_eq, UInt8.toNat_ofNat']
      omega
    simp only [cellBits] at hused hfree hlt hne hw
    obtain ⟨hw₁, hw₂⟩ := hsw.split (n := free.toUInt8) (by omega) (by omega)
    have hwidth₁ : parts.1.width = free.toUInt8 := by
      cases s <;> rfl
    have hwidth₂ : parts.2.width.toNat = s.width.toNat - free.toUInt8.toNat := by
      rw [Segment.width_split_snd, Segment.toNat_width_sub (by omega)]
    have hcell := whole_closed position hw₁ hf
      (by rw [hwidth₁, hfree, hu]; show 8 - used.val + used.val = 8; omega)
    rw [Segment.totalWidth] at hw
    have hpacked := ih (List.forall_mem_cons.mpr ⟨⟨hcell, rfl, rfl⟩, hd⟩) (by simp) rfl
      (List.forall_mem_cons.mpr ⟨hw₂, hs⟩)
      (by
        rw [Segment.totalWidth, hwidth₂]
        show (0 + (s.width.toNat - free.toUInt8.toNat + Segment.totalWidth rest)) % 8 = 0
        omega)
    rw [← List.append_assoc]
    refine Packed.join_split hsw (n := free.toUInt8) (by omega) ?_
    simpa [List.flatMap_append] using hpacked

theorem packed_cells {fields : List Segment} (hs : ∀ s ∈ fields, s.WellFormed)
    (hw : Segment.totalWidth fields % cellBits = 0) (position : Position) :
    ∃ cells, (ofList fields).cells position = .ok cells ∧ Packed position fields cells := by
  refine ⟨_, if_pos hw, ?_⟩
  exact @packed_cut position [] [] fields 0 (by simp) (by simp) rfl hs (by simpa using hw)

end Packer
end AccAsm
