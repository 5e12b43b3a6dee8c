import AccAsm.Proofs.Cell.Packing
import AccAsm.Proofs.Linking.Exactness

/-! # Filling placeholders

Filling puts literal bits of the same width in the place of every placeholder, and leaves all else as it is
(`Cell.Resolves`). It fails at the first placeholder whose label has no address. What it has filled once needs no
labels any more: with whatever table, filling it again changes nothing. -/

namespace AccAsm
open Text (lit)

/-- What filling makes of a segment. The bits that a placeholder stands for are cut off at its width. -/
inductive Segment.Resolves (t : LabelTable) : Segment → Segment → Prop
  | literal (value : UInt16) (width : UInt8) : Resolves t (.literal value width) (.literal value width)
  | placeholder {r : Ref} {width : UInt8} {address value : UInt16} (ha : t.find? r.label = some address)
      (hv : value.toNat =
        address.toNat / 2 ^ r.lo.toNat % 2 ^ (r.hi.toNat - r.lo.toNat + 1) % 2 ^ width.toNat) :
      Resolves t (.placeholder r width) (.literal value width)

/-- What filling makes of a cell: its segments are filled one by one. -/
structure Cell.Resolves (t : LabelTable) (c c' : Cell) : Prop where
  label : c'.label = c.label
  position : c'.position = c.position
  segments : List.Forall₂ (Segment.Resolves t) c.segments c'.segments

namespace LabelTable
variable {t : LabelTable} {s s' : Segment} {c c' : Cell} {cells resolved : List Cell}

/-! ### Filling once -/

theorem resolves_of_fill (hr : ∀ r ∈ s.ref?, r.InWord) (h : t.fill s = .ok s') : Segment.Resolves t s s' := by
  cases s with
  | literal v w =>
    cases h
    exact .literal v w
  | placeholder r w =>
    cases ha : t.find? r.label with
    | none =>
      simp only [fill, ha] at h
      cases h
    | some a =>
      have hword := hr r rfl
      rw [fill_placeholder hword ha] at h
      cases h
      refine .placeholder ha ?_
      rw [Bits.toNat_low, Bits.toNat_low, Bits.toNat_shiftDown, hword.toNat_width]

theorem resolves_of_resolveCell (hr : ∀ r ∈ c.refs, r.InWord) (h : t.resolveCell c = .ok c') :
    Cell.Resolves t c c' := by
  obtain ⟨segments, hfill, hc⟩ := except_bind_eq_ok.mp h
  cases hc
  have hword : ∀ s ∈ c.segments, ∀ r ∈ s.ref?, r.InWord := fun s hs r hrs =>
    hr r (List.mem_flatMap.mpr ⟨s, hs, Option.mem_toList.mpr hrs⟩)
  have hboth := (List.forall₂_and_left _ _).mpr ⟨hword, except_mapM_eq_ok.mp hfill⟩
  exact ⟨rfl, rfl, hboth.imp fun s s' hs => resolves_of_fill hs.1 hs.2⟩

theorem resolves_of_resolve (hr : ∀ c ∈ cells, ∀ r ∈ c.refs, r.InWord) (h : t.resolve cells = .ok resolved) :
    List.Forall₂ (Cell.Resolves t) cells resolved := by
  have hboth := (List.forall₂_and_left _ _).mpr ⟨hr, except_mapM_eq_ok.mp h⟩
  exact hboth.imp fun c c' hc => resolves_of_resolveCell hc.1 hc.2

/-! ### Filling again -/

theorem isResolved_of_resolves (h : Cell.Resolves t c c') : c'.isResolved := by
  rw [Cell.isResolved_iff]
  intro s' hs'
  obtain ⟨s, -, hs⟩ := exists_of_forall₂ h.segments.flip hs'
  cases hs <;> rfl

theorem resolveCell_of_isResolved (h : c.isResolved) : t.resolveCell c = .ok c := by
  have hfill : c.segments.mapM t.fill = .ok c.segments := by
    refine except_mapM_eq_ok.mpr (List.forall₂_same.mpr fun s hs => ?_)
    obtain ⟨v, w, rfl⟩ := Segment.exists_literal (Cell.isResolved_iff.mp h s hs)
    rfl
  rw [resolveCell, hfill]
  rfl

theorem resolve_of_isResolved (h : ∀ c ∈ cells, c.isResolved) (t : LabelTable) : t.resolve cells = .ok cells :=
  except_mapM_eq_ok.mpr (List.forall₂_same.mpr fun c hc => resolveCell_of_isResolved (h c hc))

/-! ### Failing -/

theorem resolve_eq_error (hr : ∀ c ∈ cells, ∀ r ∈ c.refs, r.InWord) {f : Failure LinkError} :
    t.resolve cells = .error f ↔
      ∃ r, (cells.flatMap Cell.refs).find? (fun r => (t.find? r.label).isNone) = some r ∧
        f = .error (.undefinedLabel r.position r.label) := by
  have hstops : Stops t (cells.flatMap Cell.refs) (t.resolve cells) := stops_resolve hr
  unfold Stops at hstops
  split at hstops
  next hnone =>
    obtain ⟨resolved, hok⟩ := hstops
    simp [hok, hnone]
  next r hsome =>
    simp [hstops, hsome, eq_comm]

/-- Filling references to bits that addresses have fails exactly if a label has no address, and then at the first
placeholder of such a label. Otherwise it leaves no placeholder, changes nothing else, and changes nothing any
more if it is done again. -/
theorem resolve_exact (hr : ∀ c ∈ cells, ∀ r ∈ c.refs, r.InWord) (t : LabelTable) :
    (∀ resolved, t.resolve cells = .ok resolved →
      List.Forall₂ (Cell.Resolves t) cells resolved ∧ (∀ c ∈ resolved, c.isResolved) ∧
        ∀ t' : LabelTable, t'.resolve resolved = .ok resolved) ∧
    ((∃ f, t.resolve cells = .error f) ↔ ∃ c ∈ cells, ∃ r ∈ c.refs, t.find? r.label = none) ∧
    ∀ f, t.resolve cells = .error f ↔
      ∃ r, (cells.flatMap Cell.refs).find? (fun r => (t.find? r.label).isNone) = some r ∧
        f = .error (.undefinedLabel r.position r.label) := by
  refine ⟨?_, ?_, fun f => resolve_eq_error hr⟩
  · intro resolved h
    have hcells := resolves_of_resolve hr h
    have hresolved : ∀ c ∈ resolved, c.isResolved := by
      intro c' hc'
      obtain ⟨c, -, hc⟩ := exists_of_forall₂ hcells.flip hc'
      exact isResolved_of_resolves hc
    exact ⟨hcells, hresolved, resolve_of_isResolved hresolved⟩
  · simp only [resolve_eq_error hr]
    constructor
    · rintro ⟨f, r, hfind, -⟩
      obtain ⟨c, hc, hrc⟩ := List.mem_flatMap.mp (List.mem_of_find?_eq_some hfind)
      exact ⟨c, hc, r, hrc, by simpa using List.find?_some hfind⟩
    · rintro ⟨c, hc, r, hrc, hnone⟩
      cases hfind : (cells.flatMap Cell.refs).find? fun r => (t.find? r.label).isNone with
      | some r' => exact ⟨_, r', rfl, rfl⟩
      | none =>
        have := List.find?_eq_none.mp hfind r (List.mem_flatMap.mpr ⟨c, hc, hrc⟩)
        simp [hnone] at this

/-- A literal, a placeholder that is cut off and one that is filled up, with a table that has their labels and
with one that lacks the second. -/
theorem resolve_exact_widths :
    let cells : List Cell :=
      [{ segments := [.literal 9 2, .placeholder ⟨lit "_a", 7, 4, {}⟩ 3], label := lit "_x" },
       { segments := [.placeholder ⟨lit "_b", 15, 15, {}⟩ 8] }]
    let t := ofList [(lit "_a", 0x1F0), (lit "_b", 0x8000)]
    let resolved : List Cell :=
      [{ segments := [.literal 9 2, .literal 7 3], label := lit "_x" }, { segments := [.literal 1 8] }]
    (∀ c ∈ cells, ∀ r ∈ c.refs, r.InWord) ∧ t.resolve cells = .ok resolved ∧ empty.resolve resolved = .ok resolved ∧
      (ofList [(lit "_a", 0)]).resolve cells = .error (.error (.undefinedLabel {} (lit "_b"))) := by
  intro cells t resolved
  have hr : ∀ c ∈ cells, ∀ r ∈ c.refs, r.InWord := by
    unfold Ref.InWord
    decide +kernel
  have hresolve : t.resolve cells = .ok resolved := by decide +kernel
  obtain ⟨hok, -, -⟩ := resolve_exact hr t
  obtain ⟨-, -, herror⟩ := resolve_exact hr (ofList [(lit "_a", 0)])
  refine ⟨hr, hresolve, (hok resolved hresolve).2.2 empty, (herror _).mpr ?_⟩
  exact ⟨⟨lit "_b", 15, 15, {}⟩, by decide +kernel, rfl⟩

end LabelTable
end AccAsm
