import AccAsm.Proofs.Linking
import Mathlib.Data.List.Induction

/-! # Exactly which cells can be linked

Whole cells can be linked exactly if they fit into the address space, every placeholder names a label
that some cell carries and, if linking is strict, no label is carried twice (`Cell.Linkable`). Otherwise
linking ends with the error of the first flaw (`Cell.FirstFlaw`): the size comes first, then repeated
labels in the order of the cells, then placeholders in the order of cells and segments.

Both passes are followed step by step: `foldlM_of_distinct` and `foldlM_of_repeats` say what declaring
cell after cell comes to, and `Stops` says how far filling placeholder after placeholder gets. -/

namespace AccAsm
open Text (lit)

namespace Cell

/-- The references in the placeholders of a cell, in order. -/
def refs (c : Cell) : List Ref := c.segments.flatMap fun s => s.ref?.toList

/-- The index of the first cell that carries the label. The empty label is none. -/
def index? (cells : List Cell) (label : Text) : Option Nat :=
  if label = [] then none else cells.findIdx? (·.label = label)

/-- The cells do not carry one label. -/
def Differ (c d : Cell) : Prop := c.label ≠ [] → c.label ≠ d.label

/-- The label of the cell has been declared by one of the cells before it. -/
def Repeats (before : List Cell) (c : Cell) : Prop := c.label ≠ [] ∧ ∃ b ∈ before, b.label = c.label

structure Linkable (strict : Bool) (cells : List Cell) : Prop where
  room : cells.length ≤ addressSpace
  defined : ∀ c ∈ cells, ∀ r ∈ c.refs, r.label ≠ [] ∧ ∃ d ∈ cells, d.label = r.label
  distinct : strict → cells.Pairwise Differ

/-- The image has a byte for each cell, with the label of the cell and its bits, in which every
placeholder stands for bits of the index of the first cell that carries its label. -/
structure Links (cells : List Cell) (img : Image) : Prop where
  labels : img.bytes.map ImageByte.label = cells.map label
  bits : img.bytes.map (fun b => Bits.list 8 b.value.toNat) =
    cells.map (Cell.bits fun label => (index? cells label).getD 0)
  /-- The table has all labels in use, and no others. -/
  table : ∀ label, (img.labels.find? label).map UInt16.toNat = index? cells label

inductive FirstFlaw (strict : Bool) (cells : List Cell) : LinkError → Prop
  | oversized (h : addressSpace < cells.length) :
      FirstFlaw strict cells (.oversized ⟨addressSpace, cells.length⟩)
  | redeclared {before after : List Cell} {c : Cell} (hl : cells.length ≤ addressSpace) (hs : strict)
      (h : cells = before ++ c :: after) (hb : before.Pairwise Differ) (hc : Repeats before c) :
      FirstFlaw strict cells (.redeclaredLabel c.position c.label)
  | undefined {r : Ref} (hl : cells.length ≤ addressSpace) (hd : strict → cells.Pairwise Differ)
      (hr : (cells.flatMap refs).find? (fun r => (index? cells r.label).isNone) = some r) :
      FirstFlaw strict cells (.undefinedLabel r.position r.label)

variable {cells before : List Cell} {c : Cell}

theorem pairwise_concat :
    (before ++ [c]).Pairwise Differ ↔ before.Pairwise Differ ∧ ¬ Repeats before c := by
  rw [List.pairwise_append]
  constructor
  · rintro ⟨hb, -, hc⟩
    refine ⟨hb, ?_⟩
    rintro ⟨hne, b, hm, he⟩
    exact hc b hm c (.head _) (he ▸ hne) he
  · rintro ⟨hb, hc⟩
    refine ⟨hb, List.pairwise_singleton _ _, ?_⟩
    intro b hm d hd hne he
    obtain rfl := List.mem_singleton.mp hd
    exact hc ⟨he ▸ hne, b, hm, he⟩

/-- Cells carry different labels, or one of them is the first to repeat a label. -/
theorem pairwise_or_repeats (cells : List Cell) :
    cells.Pairwise Differ ∨ ∃ before c after, cells = before ++ c :: after ∧
      before.Pairwise Differ ∧ Repeats before c := by
  induction cells using List.reverseRecOn with
  | nil => exact .inl .nil
  | append_singleton cells c ih =>
    rcases ih with hd | ⟨before, d, after, rfl, hb, hr⟩
    · by_cases hr : Repeats cells c
      · exact .inr ⟨cells, c, [], rfl, hd, hr⟩
      · exact .inl (pairwise_concat.mpr ⟨hd, hr⟩)
    · exact .inr ⟨before, d, after ++ [c], by simp, hb, hr⟩

theorem isSome_index? {label : Text} :
    (index? cells label).isSome ↔ label ≠ [] ∧ ∃ c ∈ cells, c.label = label := by
  unfold index?
  split
  · simp_all
  · simp_all [List.findIdx?_isSome]

end Cell

namespace LabelTable
variable {t t' : LabelTable} {strict : Bool} {cells before after : List Cell} {c : Cell} {α β : Type}

/-! ### Declaring cells -/

theorem declare_eq_ok {k : Nat} (h : strict → c.label ≠ [] → t.find? c.label = none) :
    ∃ t', t.declare strict c k = .ok t' := by
  unfold declare
  split
  · exact ⟨t, rfl⟩
  next hne =>
    rw [if_neg]
    · exact ⟨_, rfl⟩
    · rintro ⟨hs, hf⟩
      rw [h hs (by simpa using hne)] at hf
      cases hf

/-- A cell that is declared leaves labels that differ from its own without an address. -/
theorem find?_declare_of_differ {k : Nat} (hd : (c :: cells).Pairwise Cell.Differ)
    (hnew : ∀ d ∈ c :: cells, d.label ≠ [] → t.find? d.label = none)
    (h : t.declare strict c k = .ok t') : ∀ d ∈ cells, d.label ≠ [] → t'.find? d.label = none := by
  intro d hm hne
  have hdiffer := (List.pairwise_cons.mp hd).1 d hm
  rw [find?_declare h, hnew d (.tail _ hm) hne, Option.none_or, if_neg]
  rintro ⟨-, he⟩
  exact hdiffer (he ▸ hne) he

/-- Cells with different labels, none of which has an address yet, are all declared. -/
theorem foldlM_of_distinct (hd : strict → cells.Pairwise Cell.Differ)
    (hnew : strict → ∀ c ∈ cells, c.label ≠ [] → t.find? c.label = none) (k : Nat) :
    ∃ t', (cells.zipIdx k).foldlM (fun t (c, address) => t.declare strict c address) t = .ok t' := by
  induction cells generalizing t k with
  | nil => exact ⟨t, rfl⟩
  | cons c cells ih =>
    obtain ⟨t₁, h₁⟩ := declare_eq_ok (k := k) fun hs => hnew hs c (.head _)
    have hrest : strict → ∀ d ∈ cells, d.label ≠ [] → t₁.find? d.label = none :=
      fun hs => find?_declare_of_differ (hd hs) (hnew hs) h₁
    obtain ⟨t', h'⟩ := ih (fun hs => (List.pairwise_cons.mp (hd hs)).2) hrest (k + 1)
    refine ⟨t', ?_⟩
    rw [List.zipIdx_cons, List.foldlM_cons]
    exact except_bind_eq_ok.mpr ⟨t₁, h₁, h'⟩

/-- The first cell that repeats a label is refused. -/
theorem foldlM_of_repeats (hb : before.Pairwise Cell.Differ) (hc : Cell.Repeats before c) :
    ((before ++ c :: after).zipIdx).foldlM (fun t (c, address) => t.declare true c address) empty =
      .error (.redeclaredLabel c.position c.label) := by
  obtain ⟨hne, b, hm, he⟩ := hc
  have hbefore : ∃ t, before.zipIdx.foldlM (fun t (c, address) => t.declare true c address) empty = .ok t :=
    foldlM_of_distinct (fun _ => hb) (fun _ _ _ _ => rfl) 0
  obtain ⟨t, ht⟩ := hbefore
  have hfind : (t.find? c.label).isSome := by
    rw [find?_foldlM ht hne, Option.isSome_or, Option.isSome_map, List.findIdx?_isSome]
    simpa using .inr ⟨b, hm, he⟩
  have hdeclare (k : Nat) :
      t.declare true c k = .error (.redeclaredLabel c.position c.label) := by
    rw [declare, if_neg (by simpa using hne), if_pos ⟨rfl, hfind⟩]
  rw [List.zipIdx_append, List.foldlM_append, ht, List.zipIdx_cons]
  show List.foldlM _ t _ = _
  rw [List.foldlM_cons]
  show (t.declare true c _ >>= _) = _
  rw [hdeclare]
  rfl

theorem ofCells_of_distinct (hl : cells.length ≤ addressSpace) (hd : strict → cells.Pairwise Cell.Differ) :
    ∃ t, ofCells strict cells = .ok t := by
  rw [ofCells, if_neg (Nat.not_lt.mpr hl)]
  exact foldlM_of_distinct hd (fun _ _ _ _ => rfl) 0

theorem ofCells_of_repeats (hl : (before ++ c :: after).length ≤ addressSpace)
    (hb : before.Pairwise Cell.Differ) (hc : Cell.Repeats before c) :
    ofCells true (before ++ c :: after) = .error (.redeclaredLabel c.position c.label) := by
  rw [ofCells, if_neg (Nat.not_lt.mpr hl)]
  exact foldlM_of_repeats hb hc

/-- The table gives every label its first index. -/
theorem toNat_find? (h : ofCells strict cells = .ok t) (label : Text) :
    (t.find? label).map UInt16.toNat = Cell.index? cells label := by
  obtain ⟨-, hnil, hfind⟩ := find?_ofCells h
  unfold Cell.index?
  split
  next he => rw [he, hnil]; rfl
  next hne => exact hfind label hne

/-! ### Filling placeholders -/

/-- `x` goes through the references and stops at the first one without an address. -/
def Stops (t : LabelTable) (refs : List Ref) (x : Linking α) : Prop :=
  match refs.find? fun r => (t.find? r.label).isNone with
  | none => ∃ a, x = .ok a
  | some r => x = .error (.error (.undefinedLabel r.position r.label))

theorem stops_ok (a : α) : Stops t [] (.ok a : Linking α) := ⟨a, rfl⟩

theorem Stops.bind {rs rs' : List Ref} {x : Linking α} {f : α → Linking β} (hx : Stops t rs x)
    (hf : ∀ a, x = .ok a → Stops t rs' (f a)) : Stops t (rs ++ rs') (x >>= f) := by
  unfold Stops at hx ⊢
  rw [List.find?_append]
  cases hr : rs.find? fun r => (t.find? r.label).isNone with
  | none =>
    rw [hr] at hx
    obtain ⟨a, rfl⟩ := hx
    exact hf a rfl
  | some r =>
    rw [hr] at hx
    have hx : x = .error (.error (.undefinedLabel r.position r.label)) := hx
    rw [hx]
    rfl

theorem Stops.mapM {g : α → List Ref} {f : α → Linking β} {l : List α} (h : ∀ a ∈ l, Stops t (g a) (f a)) :
    Stops t (l.flatMap g) (l.mapM f) := by
  induction l with
  | nil => exact stops_ok _
  | cons a l ih =>
    obtain ⟨ha, hl⟩ := List.forall_mem_cons.mp h
    rw [List.mapM_cons, List.flatMap_cons]
    refine ha.bind fun b _ => ?_
    rw [← List.append_nil (l.flatMap g)]
    exact (ih hl).bind fun bs _ => stops_ok _

theorem stops_fill {s : Segment} (hr : ∀ r ∈ s.ref?, r.InWord) : Stops t s.ref?.toList (t.fill s) := by
  cases s with
  | literal v w => exact stops_ok _
  | placeholder r w =>
    unfold Stops
    cases hf : t.find? r.label with
    | none =>
      simp only [Segment.ref?, Option.toList_some, List.find?_singleton, hf, Option.isNone_none, if_true,
        fill]
    | some address =>
      simp only [Segment.ref?, Option.toList_some, List.find?_singleton, hf, Option.isNone_some,
        Bool.false_eq_true, if_false]
      exact ⟨_, fill_placeholder (hr r rfl) hf⟩

theorem stops_resolve (hr : ∀ c ∈ cells, ∀ r ∈ c.refs, r.InWord) :
    Stops t (cells.flatMap Cell.refs) (t.resolve cells) := by
  refine Stops.mapM fun c hc => ?_
  rw [← List.append_nil c.refs]
  refine (Stops.mapM fun s hs => stops_fill fun r hrs => ?_).bind fun _ _ => stops_ok _
  exact hr c hc r (List.mem_flatMap.mpr ⟨s, hs, Option.mem_toList.mpr hrs⟩)

end LabelTable

namespace Image
variable {strict : Bool} {cells : List Cell} {img : Image} {e : LinkError}

/-- Once all cells are declared, linking stops at the first reference to a label that none carries. -/
theorem stops_link (hw : ∀ c ∈ cells, c.Whole) {t : LabelTable} (ht : LabelTable.ofCells strict cells = .ok t) :
    t.Stops (cells.flatMap Cell.refs) (link strict cells) := by
  rw [link, ht, ← List.append_nil (cells.flatMap Cell.refs)]
  have hrefs : ∀ c ∈ cells, ∀ r ∈ c.refs, r.InWord := by
    intro c hc r hr
    obtain ⟨s, hs, hr⟩ := List.mem_flatMap.mp hr
    exact ((hw c hc).wellFormed s hs).inWord r (Option.mem_toList.mp hr)
  refine (LabelTable.stops_resolve hrefs).bind fun resolved hr => ?_
  obtain ⟨bytes, hb, -⟩ := LabelTable.exists_bytes_of_resolve hw hr
  rw [hb]
  exact LabelTable.stops_ok _

theorem link_of_linkable (hw : ∀ c ∈ cells, c.Whole) (h : Cell.Linkable strict cells) :
    ∃ img, link strict cells = .ok img := by
  obtain ⟨t, ht⟩ := LabelTable.ofCells_of_distinct h.room h.distinct
  have hstops := stops_link hw ht
  have hnone : (cells.flatMap Cell.refs).find? (fun r => (t.find? r.label).isNone) = none := by
    rw [List.find?_eq_none]
    intro r hr
    obtain ⟨c, hc, hr⟩ := List.mem_flatMap.mp hr
    have hsome := Cell.isSome_index?.mpr (h.defined c hc r hr)
    rw [← LabelTable.toNat_find? ht, Option.isSome_map] at hsome
    simpa [Option.isSome_iff_ne_none] using hsome
  rw [LabelTable.Stops, hnone] at hstops
  exact hstops

theorem link_of_firstFlaw (hw : ∀ c ∈ cells, c.Whole) (h : Cell.FirstFlaw strict cells e) :
    link strict cells = .error (.error e) := by
  cases h with
  | oversized h =>
    rw [link, LabelTable.ofCells, if_pos h]
    rfl
  | redeclared hl hs h hb hc =>
    subst h hs
    rw [link, LabelTable.ofCells_of_repeats hl hb hc]
    rfl
  | @undefined r hl hd hr =>
    obtain ⟨t, ht⟩ := LabelTable.ofCells_of_distinct hl hd
    have hstops := stops_link hw ht
    simp only [← LabelTable.toNat_find? ht, Option.isNone_map] at hr
    rw [LabelTable.Stops, hr] at hstops
    exact hstops

theorem linkable_or_firstFlaw (strict : Bool) (cells : List Cell) :
    Cell.Linkable strict cells ∨ ∃ e, Cell.FirstFlaw strict cells e := by
  by_cases hl : addressSpace < cells.length
  · exact .inr ⟨_, .oversized hl⟩
  have hl := Nat.le_of_not_lt hl
  by_cases hd : strict → cells.Pairwise Cell.Differ
  · cases hr : (cells.flatMap Cell.refs).find? fun r => (Cell.index? cells r.label).isNone with
    | some r => exact .inr ⟨_, .undefined hl hd hr⟩
    | none =>
      refine .inl ⟨hl, fun c hc r hrc => ?_, hd⟩
      have hsome := List.find?_eq_none.mp hr r (List.mem_flatMap.mpr ⟨c, hc, hrc⟩)
      exact Cell.isSome_index?.mp (by simpa [Option.isSome_iff_ne_none] using hsome)
  · obtain ⟨hs, hd⟩ := Classical.not_imp.mp hd
    rcases Cell.pairwise_or_repeats cells with hp | ⟨before, c, after, h, hb, hc⟩
    · exact absurd hp hd
    · exact .inr ⟨_, .redeclared hl hs h hb hc⟩

theorem links_of_link (hw : ∀ c ∈ cells, c.Whole) (h : link strict cells = .ok img) :
    Cell.Links cells img := by
  obtain ⟨ht, hbits, hlabels, hdefined⟩ := link_eq_ok hw h
  have htable := LabelTable.toNat_find? ht
  refine ⟨hlabels, ?_, htable⟩
  have haddress : img.labels.address = fun label => (Cell.index? cells label).getD 0 := by
    funext label
    rw [← htable]
    rfl
  rw [← haddress, hbits, raw, List.map_map]
  rfl

/-- Whole cells are linked exactly if they are linkable. The image then has their bytes and labels, and
otherwise linking ends with the error of their first flaw. -/
theorem link_exact (hw : ∀ c ∈ cells, c.Whole) (strict : Bool) :
    ((∃ img, link strict cells = .ok img) ↔ Cell.Linkable strict cells) ∧
      (∀ img, link strict cells = .ok img → Cell.Links cells img) ∧
      (¬ Cell.Linkable strict cells → ∃ e, link strict cells = .error (.error e)) ∧
      ∀ e, link strict cells = .error (.error e) ↔ Cell.FirstFlaw strict cells e := by
  refine ⟨⟨?_, link_of_linkable hw⟩, fun img h => links_of_link hw h, ?_, fun e => ⟨?_, link_of_firstFlaw hw⟩⟩
  · rintro ⟨img, h⟩
    rcases linkable_or_firstFlaw strict cells with hl | ⟨e, he⟩
    · exact hl
    · rw [link_of_firstFlaw hw he] at h
      cases h
  · intro hn
    rcases linkable_or_firstFlaw strict cells with hl | ⟨e, he⟩
    · exact absurd hl hn
    · exact ⟨e, link_of_firstFlaw hw he⟩
  · intro h
    rcases linkable_or_firstFlaw strict cells with hl | ⟨e', he⟩
    · obtain ⟨img, himg⟩ := link_of_linkable hw hl
      rw [himg] at h
      cases h
    · rw [link_of_firstFlaw hw he] at h
      cases h
      exact he

/-- Placeholders for parts of addresses, before and behind the labels they name; the label `_a` comes
twice. -/
theorem link_exact_twice :
    let cells : List Cell :=
      [{ segments := [.placeholder ⟨lit "_b", 9, 4, {}⟩ 6, .literal 1 2], label := lit "_a" },
       { segments := [.placeholder ⟨lit "_a", 3, 0, {}⟩ 4, .placeholder ⟨lit "_b", 3, 0, {}⟩ 4],
         label := lit "_b" },
       { segments := [.literal 7 8], label := lit "_a" }]
    (∀ c ∈ cells, c.Whole) ∧ Cell.Linkable false cells ∧
      (∃ img, link false cells = .ok img ∧ img.raw = [1, 1, 7] ∧ Cell.Links cells img) ∧
      Cell.FirstFlaw true cells (.redeclaredLabel {} (lit "_a")) := by
  intro cells
  have hw : ∀ c ∈ cells, c.Whole := by
    intro c hc
    simp only [cells, List.mem_cons, List.not_mem_nil, or_false] at hc
    rcases hc with rfl | rfl | rfl
    · exact ⟨by simp [Segment.WellFormed], rfl⟩
    · exact ⟨by simp [Segment.WellFormed], rfl⟩
    · exact ⟨by simp [Segment.WellFormed], rfl⟩
  obtain ⟨hok, hlinks, -, -⟩ := link_exact hw false
  obtain ⟨-, -, -, hflaw⟩ := link_exact hw true
  have himg : (link false cells).toOption.map raw = some [1, 1, 7] := by decide +kernel
  obtain ⟨img, himg, hraw⟩ := Option.map_eq_some_iff.mp himg
  have himg := except_toOption_eq_some.mp himg
  refine ⟨hw, hok.mp ⟨img, himg⟩, ⟨img, himg, hraw, hlinks img himg⟩, (hflaw _).mp ?_⟩
  decide +kernel

end Image
end AccAsm
