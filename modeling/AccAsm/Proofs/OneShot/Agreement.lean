import AccAsm.Proofs.Encoding.Layout
import AccAsm.Proofs.Inclusion.Flattening
import AccAsm.Proofs.Linking

/-! # Agreement with the assembly in one shot

An assembly encodes item by item, puts labels on cells and fills in their addresses at last. Its image
is nevertheless the one that the program has in one shot (`assemble_agrees`): a laid out label stands on
the cell whose index is its address, and with these addresses in the place of the labels the cells hold
the bytes of the items. -/

namespace AccAsm
open Text (lit)

theorem Bits.list_byte_injective : Function.Injective fun b : UInt8 => list 8 b.toNat :=
  fun b b' h => UInt8.toNat_inj.mp (list_inj b.toNat_lt b'.toNat_lt h)

namespace Emission.Lays
variable {table : InstructionTable} {items : List Item} {cells : List Cell} {strict : Bool}

/-- The table of laid out cells has exactly the declared labels, with their addresses. -/
theorem find?_ofCells (h : Lays table items ⟨cells.toArray, none⟩) (hi : ∀ i ∈ items, i.Sound table)
    {t : LabelTable} (ht : LabelTable.ofCells strict cells = .ok t) (label : Text) :
    (t.find? label).map UInt16.toNat = Item.address? items label := by
  obtain ⟨-, hnil, hidx⟩ := LabelTable.find?_ofCells ht
  by_cases hl : label = []
  · rw [hl, hnil, Item.address?_nil hi, Option.map_none]
  · rw [hidx label hl]
    simpa using h.labels label hl

/-- The image of laid out cells has the bytes of the items. -/
theorem mapM_bytes? (h : Lays table items ⟨cells.toArray, none⟩) (hi : ∀ i ∈ items, i.Sound table)
    {img : Image} (hl : Image.link strict cells = .ok img) :
    (items.mapM (Item.bytes? table (Item.address? items))).map List.flatten = some img.raw := by
  obtain ⟨ht, hbits, -, hdef⟩ := Image.link_eq_ok h.whole hl
  have hrefs : ∀ i ∈ items, ∀ label ∈ i.references, (img.labels.find? label).isSome := by
    intro i hi label hl
    obtain ⟨c, hc, hm⟩ := h.mentions i hi label hl
    exact hdef c hc label hm
  obtain ⟨pieces, hpieces, hcells⟩ := h.bytes img.labels.find? hrefs
  have haddr : (fun label => (img.labels.find? label).map UInt16.toNat) = Item.address? items :=
    funext (h.find?_ofCells hi ht)
  have hraw : pieces.flatten = img.raw :=
    List.map_injective_iff.mpr Bits.list_byte_injective (hcells.symm.trans hbits)
  rw [← haddr, hpieces, Option.map_some, hraw]

end Emission.Lays

namespace Assembler
variable {a : Assembler} {file text : Text} {r : Assembly}

/-- A finished assembly is the one-shot assembly of the expanded program: the image has as many bytes
as the items take, at most 65536, namely the direct encodings of the items one after the other, and its
labels are the declared ones at their addresses. -/
theorem assemble_agrees (h : (a.assemble file text).outcome = .ok r) :
    (a.program file text).outcome = .ok r.program ∧ (∀ f ∈ r.program.fields, f.isInclusion = false) ∧
      r.image.bytes.length = Item.totalSize r.program.items ∧ r.image.bytes.length ≤ 65536 ∧
      r.program.bytes? a.table = some r.image.raw ∧
      ∀ label, (r.image.labels.find? label).map UInt16.toNat =
        Item.address? r.program.items label := by
  obtain ⟨hprogram, hencode, hlink, -⟩ := assemble_eq_ok.mp h
  have hsound := program_sound hprogram
  have hitems : ∀ i ∈ r.program.items, i.Sound a.table := by
    intro i hi
    obtain ⟨f, hf, hi⟩ := List.mem_flatMap.mp hi
    exact (hsound f hf).1.items i hi
  have hlays := (Program.encode_meets hsound a.strict).ok r.cells hencode
  obtain ⟨htable, -, hlabels, -⟩ := Image.link_eq_ok hlays.whole hlink
  have hlength : r.image.bytes.length = r.cells.length := by
    simpa using congrArg List.length hlabels
  refine ⟨hprogram, fun f hf => (hsound f hf).2, hlength.trans hlays.size, ?_,
    hlays.mapM_bytes? hitems hlink, hlays.find?_ofCells hitems htable⟩
  rw [hlength]
  exact (LabelTable.find?_ofCells htable).1

/-- A jump forward into another field and a jump back. -/
theorem assemble_agrees_jumps :
    let a : Assembler := {}
    let text := lit ".inst\n_x: jump _y\njump _x\n.data\n_y: .byte 7"
    ∃ r, (a.assemble (lit "main") text).outcome = .ok r ∧
      r.image.raw = [125, 0, 101, 16, 81, 16, 156, 16, 125, 0, 101, 0, 81, 16, 156, 16, 7] ∧
      r.program.bytes? a.table = some r.image.raw ∧
      r.image.labels.find? (lit "_y") = some 16 := by
  intro a text
  have h : ((a.source (lit "main") text).outcome.toOption.bind fun p =>
      (p.encode a.table a.strict).toOption.bind fun cells =>
        (Image.link a.strict cells).toOption.map fun img =>
          (p.fields.all (!·.isInclusion), img.raw, img.labels.find? (lit "_y"))) =
      some (true, [125, 0, 101, 16, 81, 16, 156, 16, 125, 0, 101, 0, 81, 16, 156, 16, 7], some 16) := by
    decide +kernel
  simp only [Option.bind_eq_some_iff, Option.map_eq_some_iff, except_toOption_eq_some] at h
  obtain ⟨p, hp, cells, hcells, img, himg, heq⟩ := h
  simp only [Prod.mk.injEq] at heq
  obtain ⟨hincl, hraw, hy⟩ := heq
  have hprogram : (a.program (lit "main") text).outcome = .ok p := program_eq_ok.mpr
    ⟨p, p.fields, source_eq_ok.mp hp, expand_eq_self (by simpa using hincl), rfl⟩
  have hr : (a.assemble (lit "main") text).outcome = .ok ⟨lit "main", p, cells, img⟩ :=
    assemble_eq_ok.mpr ⟨hprogram, hcells, himg, rfl⟩
  obtain ⟨-, -, -, -, hbytes, -⟩ := assemble_agrees hr
  exact ⟨_, hr, hraw, hbytes, hy⟩

end Assembler
end AccAsm
