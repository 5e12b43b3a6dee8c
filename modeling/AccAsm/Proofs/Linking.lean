import AccAsm.Linking
import AccAsm.Proofs.Cell.BitString
import AccAsm.Proofs.Failure

/-! # What linking does

The label table gives a label the index of the first cell that carries it (`find?_ofCells`). Filling
the placeholders of whole cells with these addresses yields one byte for each cell, and the byte has
the bits of the cell (`Image.link_eq_ok`). Linking whole cells never ends in a fault
(`Image.only_link`). -/

namespace AccAsm

/-- The bits that the reference stands for are bits of an address. -/
def Ref.InWord (r : Ref) : Prop := r.lo ≤ r.hi ∧ r.hi ≤ 15

theorem Ref.InWord.toNat_width {r : Ref} (h : r.InWord) :
    (r.hi - r.lo + 1).toNat = r.hi.toNat - r.lo.toNat + 1 := by
  obtain ⟨hle, hhi⟩ := h
  have hhi : r.hi.toNat ≤ 15 := UInt8.le_iff_toNat_le.mp hhi
  rw [UInt8.toNat_add, UInt8.toNat_sub_of_le _ _ hle]
  show (r.hi.toNat - r.lo.toNat + 1) % 256 = _
  omega

theorem Segment.WellFormed.inWord {s : Segment} (h : s.WellFormed) : ∀ r ∈ s.ref?, r.InWord := by
  intro r hr
  cases s with
  | literal v w => cases hr
  | placeholder r' w =>
    cases hr
    obtain ⟨hsum, hpos, hhi⟩ := h
    exact ⟨UInt8.le_iff_toNat_le.mpr (by omega), UInt8.le_iff_toNat_le.mpr hhi⟩

namespace LabelTable
variable {t t' : LabelTable} {strict : Bool}

/-! ### Addresses -/

/-- The address of a label, zero if it has none. -/
def address (t : LabelTable) : Text → Nat := addressOf t.find?

theorem find?_declare {c : Cell} {k : Nat} (h : t.declare strict c k = .ok t') (label : Text) :
    t'.find? label = (t.find? label).or
      (if label ≠ [] ∧ c.label = label then some k.toUInt16 else none) := by
  unfold declare at h
  split at h
  next he =>
    cases h
    rw [if_neg, Option.or_none]
    rintro ⟨hne, rfl⟩
    exact hne (List.isEmpty_iff.mp he)
  next he =>
    split at h
    · cases h
    · cases h
      rw [find?_add]
      by_cases hl : label = c.label
      · rw [if_pos hl, if_pos ⟨fun hn => he (by rw [← hl, hn]; rfl), hl.symm⟩]
      · rw [if_neg hl, if_neg fun h => hl h.2.symm]

/-- Declaring cell after cell adds the first address of each new label. -/
theorem find?_foldlM {cells : List Cell} {k : Nat}
    (h : (cells.zipIdx k).foldlM (fun t (c, address) => t.declare strict c address) t = .ok t')
    {label : Text} (hl : label ≠ []) :
    t'.find? label = (t.find? label).or
      ((cells.findIdx? (·.label = label)).map fun i => (k + i).toUInt16) := by
  induction cells generalizing t k with
  | nil =>
    cases h
    rw [List.findIdx?_nil, Option.map_none, Option.or_none]
  | cons c cells ih =>
    rw [List.zipIdx_cons, List.foldlM_cons] at h
    cases hd : t.declare strict c k with
    | error e => simp only [hd] at h; cases h
    | ok t₁ =>
      simp only [hd] at h
      have hrest := ih (t := t₁) h
      rw [hrest, find?_declare hd, Option.or_assoc, List.findIdx?_cons]
      by_cases hc : c.label = label
      · simp [hc, hl]
      · simp [hc, Nat.add_assoc, Nat.add_comm 1, Function.comp_def]

theorem find?_foldlM_nil {cells : List Cell} {k : Nat}
    (h : (cells.zipIdx k).foldlM (fun t (c, address) => t.declare strict c address) t = .ok t') :
    t'.find? [] = t.find? [] := by
  induction cells generalizing t k with
  | nil => cases h; rfl
  | cons c cells ih =>
    rw [List.zipIdx_cons, List.foldlM_cons] at h
    cases hd : t.declare strict c k with
    | error e => simp only [hd] at h; cases h
    | ok t₁ =>
      simp only [hd] at h
      rw [ih (t := t₁) h, find?_declare hd]
      simp

/-- A label has the index of the first cell that carries it. -/
theorem find?_ofCells {cells : List Cell} (h : ofCells strict cells = .ok t) :
    cells.length ≤ addressSpace ∧ t.find? [] = none ∧
      ∀ label ≠ [], (t.find? label).map UInt16.toNat = cells.findIdx? (·.label = label) := by
  unfold ofCells at h
  split at h
  next => cases h
  next hle =>
    refine ⟨Nat.le_of_not_lt hle, (find?_foldlM_nil h).trans rfl, fun label hl => ?_⟩
    rw [find?_foldlM h hl]
    show ((Option.none.or _).map _) = _
    rw [Option.none_or, Option.map_map]
    cases hi : cells.findIdx? (·.label = label) with
    | none => rfl
    | some i =>
      have hlt : i < cells.length := (List.findIdx?_eq_some_iff_findIdx_eq.mp hi).1
      have hmax : cells.length ≤ 65536 := Nat.le_of_not_lt hle
      simp only [Option.map_some, Function.comp, Nat.zero_add, Nat.toUInt16_eq, UInt16.toNat_ofNat']
      rw [Nat.mod_eq_of_lt (by omega)]

/-! ### Placeholders -/

/-- `v` is a segment `s` whose label, if any, has an address in `t`. -/
structure Fills (t : LabelTable) (s : Segment) (v : UInt16) : Prop where
  lt : v.toNat < 2 ^ s.width.toNat
  bits : Bits.list s.width.toNat v.toNat = s.bits t.address
  defined : ∀ label, s.Mentions label → (t.find? label).isSome

theorem fill_placeholder {r : Ref} {w : UInt8} {a : UInt16} (hr : r.InWord) (ha : t.find? r.label = some a) :
    t.fill (.placeholder r w) = .ok (.ofValue (Bits.low (Bits.shiftDown a r.lo) (r.hi - r.lo + 1)) w) := by
  have hslice : Bits.slice a r.hi r.lo = .ok (Bits.low (Bits.shiftDown a r.lo) (r.hi - r.lo + 1)) := if_pos hr
  simp only [fill, ha, hslice]
  rfl

/-- A segment is filled, or its label has no address. -/
theorem fill_outcome (t : LabelTable) {s : Segment} (hw : s.WellFormed) :
    (∃ v, t.fill s = .ok (.literal v s.width) ∧ t.Fills s v) ∨ ∃ e, t.fill s = .error (.error e) := by
  cases s with
  | literal v w =>
    refine .inl ⟨v, rfl, hw, rfl, ?_⟩
    rintro label ⟨r, hr, -⟩
    cases hr
  | placeholder r w =>
    have hr : r.InWord := hw.inWord r rfl
    obtain ⟨hsum, hpos, -⟩ := hw
    have hwidth : (r.hi - r.lo + 1).toNat = w.toNat := by
      rw [hr.toNat_width]
      omega
    cases hf : t.find? r.label with
    | none => exact .inr ⟨_, by simp only [fill, hf]; rfl⟩
    | some a =>
      refine .inl ⟨_, fill_placeholder hr hf, ?_, ?_, ?_⟩
      · rw [Bits.toNat_low]
        exact Nat.mod_lt _ (Nat.two_pow_pos _)
      · have ha : t.address r.label = a.toNat := by rw [address, addressOf, hf]; rfl
        show Bits.list w.toNat _ = Bits.list w.toNat (t.address r.label / 2 ^ r.lo.toNat)
        rw [ha, Bits.toNat_low, Bits.toNat_low, Bits.toNat_shiftDown, hwidth,
          Bits.list_mod (Nat.le_refl _), Bits.list_mod (Nat.le_refl _)]
      · rintro label ⟨r', hr, rfl⟩
        cases hr
        rw [hf]
        rfl

theorem fill_eq_ok {s s' : Segment} (hw : s.WellFormed) (h : t.fill s = .ok s') :
    ∃ v, s' = .literal v s.width ∧ t.Fills s v := by
  rcases t.fill_outcome hw with ⟨v, hv, hfills⟩ | ⟨e, he⟩
  · rw [hv] at h
    cases h
    exact ⟨v, rfl, hfills⟩
  · rw [he] at h
    cases h

theorem only_fill {s : Segment} (hw : s.WellFormed) : Failure.Only (fun _ => True) (t.fill s) := by
  rcases t.fill_outcome hw with ⟨v, hv, -⟩ | ⟨e, he⟩
  · rw [hv]
    exact Failure.only_ok _
  · rw [he]
    exact Failure.only_error (P := fun _ => True) trivial

/-- Filled segments have a value, which goes on after the bits of `acc`. -/
theorem append_filled {ss ss' : List Segment} (hw : ∀ s ∈ ss, s.WellFormed)
    (h : List.Forall₂ (fun s s' => t.fill s = .ok s') ss ss') (acc : UInt16) (used : Nat)
    (ha : acc.toNat < 2 ^ used) (hu : used + Segment.totalWidth ss ≤ 16) :
    ∃ r, ss'.foldlM Cell.append? acc = some r ∧ r.toNat < 2 ^ (used + Segment.totalWidth ss) ∧
      Bits.list (used + Segment.totalWidth ss) r.toNat =
        Bits.list used acc.toNat ++ ss.flatMap (Segment.bits t.address) := by
  induction h generalizing acc used with
  | nil =>
    refine ⟨acc, rfl, ha, ?_⟩
    rw [Segment.totalWidth, Nat.add_zero, List.flatMap_nil, List.append_nil]
  | @cons s s' ss ss' hs _ ih =>
    obtain ⟨hws, hw⟩ := List.forall_mem_cons.mp hw
    obtain ⟨v, rfl, hv⟩ := fill_eq_ok hws hs
    rw [Segment.totalWidth, ← Nat.add_assoc] at hu ⊢
    have hval := Bits.toNat_shiftUp_or ha hv.lt (by omega)
    have hlt : (Bits.shiftUp acc s.width ||| v).toNat < 2 ^ (used + s.width.toNat) := by
      have hle : (acc.toNat + 1) * 2 ^ s.width.toNat ≤ 2 ^ used * 2 ^ s.width.toNat :=
        Nat.mul_le_mul_right _ ha
      have := hv.lt
      rw [hval, Nat.pow_add]
      rw [Nat.add_mul, Nat.one_mul] at hle
      omega
    obtain ⟨r, hr, hrlt, hrbits⟩ := ih hw _ _ hlt hu
    refine ⟨r, hr, hrlt, ?_⟩
    rw [hrbits, hval, Bits.list_mul_add used acc.toNat hv.lt, hv.bits, List.flatMap_cons,
      List.append_assoc]

theorem width_filled {ss ss' : List Segment} (hw : ∀ s ∈ ss, s.WellFormed)
    (h : List.Forall₂ (fun s s' => t.fill s = .ok s') ss ss') :
    Segment.totalWidth ss' = Segment.totalWidth ss ∧
      ∀ s ∈ ss, ∀ label, s.Mentions label → (t.find? label).isSome := by
  induction h with
  | nil => simp
  | cons hs _ ih =>
    obtain ⟨hws, hw⟩ := List.forall_mem_cons.mp hw
    obtain ⟨v, rfl, hv⟩ := fill_eq_ok hws hs
    obtain ⟨hwidth, hdef⟩ := ih hw
    refine ⟨?_, List.forall_mem_cons.mpr ⟨hv.defined, hdef⟩⟩
    rw [Segment.totalWidth, Segment.totalWidth, hwidth]
    rfl

/-! ### Bytes -/

theorem exists_byte_of_resolveCell {c c' : Cell} (hw : c.Whole) (h : t.resolveCell c = .ok c') :
    (∃ b : UInt8, (∀ i, ImageByte.ofCell c' i = .ok ⟨b, c.label⟩) ∧
      c.bits t.address = Bits.list 8 b.toNat) ∧
    ∀ label, c.Mentions label → (t.find? label).isSome := by
  obtain ⟨ss, hs, hc⟩ := except_bind_eq_ok.mp h
  cases hc
  have hfill := except_mapM_eq_ok.mp hs
  have hwidth : Segment.totalWidth c.segments = 8 := hw.width
  obtain ⟨hwidth', hdef⟩ := width_filled hw.wellFormed hfill
  obtain ⟨r, hr, hlt, hbits⟩ := append_filled hw.wellFormed hfill 0 0 (by decide) (by omega)
  rw [hwidth, Nat.zero_add] at hlt hbits
  have hr8 : r.toUInt8.toNat = r.toNat := by
    rw [UInt16.toNat_toUInt8]
    exact Nat.mod_eq_of_lt hlt
  have hbyte : Cell.byte? { c with segments := ss } = some r.toUInt8 := by
    rw [Cell.byte?, hr]
    rfl
  have hcell : Cell.width { c with segments := ss } = cellBits := hwidth'.trans hw.width
  refine ⟨⟨r.toUInt8, fun i => ?_, ?_⟩, ?_⟩
  · simp only [ImageByte.ofCell, hbyte, hcell, if_true]
  · rw [hr8, hbits]
    rfl
  · rintro label ⟨s, hs, hl⟩
    exact hdef s hs label hl

theorem only_resolve {cells : List Cell} (hw : ∀ c ∈ cells, c.Whole) :
    Failure.Only (fun _ => True) (t.resolve cells) := by
  refine Failure.Only.mapM fun c hc => ?_
  exact (Failure.Only.mapM fun s hs => only_fill ((hw c hc).wellFormed s hs)).bind fun _ _ =>
    Failure.only_ok _

theorem exists_bytes_of_resolve {cells resolved : List Cell} (hw : ∀ c ∈ cells, c.Whole)
    (h : t.resolve cells = .ok resolved) :
    ∃ bytes, (resolved.zipIdx.mapM fun (c, index) => ImageByte.ofCell c index) = .ok bytes ∧
      cells.map (Cell.bits t.address) = bytes.map (fun b => Bits.list 8 b.value.toNat) ∧
      bytes.map ImageByte.label = cells.map Cell.label ∧
      ∀ c ∈ cells, ∀ label, c.Mentions label → (t.find? label).isSome := by
  have hres := except_mapM_eq_ok.mp h
  clear h
  generalize 0 = k
  induction hres generalizing k with
  | nil => exact ⟨[], rfl, rfl, rfl, by simp⟩
  | @cons c c' _ _ hc _ ih =>
    obtain ⟨hwc, hw⟩ := List.forall_mem_cons.mp hw
    obtain ⟨⟨b, hb, hbits⟩, hdef⟩ := exists_byte_of_resolveCell hwc hc
    obtain ⟨bytes, hbytes, hrest, hlabels, hdefs⟩ := ih hw (k + 1)
    refine ⟨⟨b, c.label⟩ :: bytes, ?_, ?_, ?_, List.forall_mem_cons.mpr ⟨hdef, hdefs⟩⟩
    · rw [List.zipIdx_cons, List.mapM_cons, hbytes]
      exact except_bind_eq_ok.mpr ⟨_, hb k, rfl⟩
    · rw [List.map_cons, List.map_cons, hbits, hrest]
    · rw [List.map_cons, List.map_cons, hlabels]

end LabelTable

namespace Image
variable {strict : Bool} {cells : List Cell} {img : Image}

/-- A linked image has the bits of the cells with the addresses of their first labels. -/
theorem link_eq_ok (hw : ∀ c ∈ cells, c.Whole) (h : link strict cells = .ok img) :
    LabelTable.ofCells strict cells = .ok img.labels ∧
      cells.map (Cell.bits img.labels.address) = img.raw.map (fun b => Bits.list 8 b.toNat) ∧
      img.bytes.map ImageByte.label = cells.map Cell.label ∧
      ∀ c ∈ cells, ∀ label, c.Mentions label → (img.labels.find? label).isSome := by
  obtain ⟨t, ht, h⟩ := except_bind_eq_ok.mp h
  obtain ⟨resolved, hr, h⟩ := except_bind_eq_ok.mp h
  obtain ⟨bytes, hb, hbits, hlabels, hdef⟩ := LabelTable.exists_bytes_of_resolve hw hr
  rw [hb] at h
  cases h
  refine ⟨except_mapError_eq_ok.mp ht, ?_, hlabels, hdef⟩
  rw [hbits, raw, List.map_map]
  rfl

theorem only_link (hw : ∀ c ∈ cells, c.Whole) : Failure.Only (fun _ => True) (link strict cells) := by
  unfold link
  cases ht : LabelTable.ofCells strict cells with
  | error e => exact Failure.only_error (P := fun _ => True) trivial
  | ok t =>
    refine (LabelTable.only_resolve hw).bind fun resolved hr => ?_
    obtain ⟨bytes, hb, -⟩ := LabelTable.exists_bytes_of_resolve hw hr
    rw [hb]
    exact Failure.only_ok _

end Image
end AccAsm
