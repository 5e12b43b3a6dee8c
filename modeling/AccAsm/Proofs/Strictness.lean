import AccAsm.Proofs.Encoding.Strictness
import AccAsm.Proofs.Inclusion.Flattening
import AccAsm.Proofs.Linking.Exactness

/-! # Strict assembly

A strict assembly only rejects: it has the result of the one that is not strict, or it is refused for a
register of a fixed role or for a repeated label (`assemble_strict`). A program is expanded without
regard to strictness, encoding is tightened for the operands alone (`encode_tightens`), and linking
differs only where two cells carry one label, which is where the program declares it twice. -/

namespace AccAsm

/-! ### Linking -/

theorem Cell.pairwise_differ_iff {cells : List Cell} :
    cells.Pairwise Differ ↔ ((cells.map label).filter (· ≠ [])).Nodup := by
  rw [List.Nodup, List.pairwise_filter, List.pairwise_map]
  constructor
  · intro h
    refine h.imp ?_
    intro c d hdiffer hc hd
    exact hdiffer (by simpa using hc)
  · intro h
    refine h.imp ?_
    intro c d hdiffer hc he
    exact hdiffer (by simpa using hc) (by simpa [← he] using hc) he

namespace LabelTable
variable {t : LabelTable} {cells : List Cell} {c : Cell}

theorem declare_strict {k : Nat} (h : c.label ≠ [] → t.find? c.label = none) :
    t.declare true c k = t.declare false c k := by
  unfold declare
  split
  · rfl
  next hne => simp [h (by simpa using hne)]

theorem foldlM_declare_strict (hd : cells.Pairwise Cell.Differ)
    (hnew : ∀ c ∈ cells, c.label ≠ [] → t.find? c.label = none) (k : Nat) :
    (cells.zipIdx k).foldlM (fun t (c, address) => t.declare true c address) t =
      (cells.zipIdx k).foldlM (fun t (c, address) => t.declare false c address) t := by
  induction cells generalizing t k with
  | nil => rfl
  | cons c cells ih =>
    rw [List.zipIdx_cons, List.foldlM_cons, List.foldlM_cons]
    show (t.declare true c k >>= _) = (t.declare false c k >>= _)
    rw [declare_strict (hnew c (.head _))]
    cases hc : t.declare false c k with
    | error e => rfl
    | ok t₁ => exact ih (List.pairwise_cons.mp hd).2 (find?_declare_of_differ hd hnew hc) (k + 1)

end LabelTable

namespace Image
variable {strict : Bool} {cells : List Cell} {img : Image}

theorem link_strict (hd : cells.Pairwise Cell.Differ) : link true cells = link false cells := by
  have htable : LabelTable.ofCells true cells = LabelTable.ofCells false cells := by
    unfold LabelTable.ofCells
    rw [LabelTable.foldlM_declare_strict hd fun _ _ _ => rfl]
  rw [link, link, htable]

theorem length_le_of_link (h : link strict cells = .ok img) : cells.length ≤ addressSpace := by
  obtain ⟨t, ht, -⟩ := except_bind_eq_ok.mp h
  exact (LabelTable.find?_ofCells (except_mapError_eq_ok.mp ht)).1

theorem link_of_not_differ (hl : cells.length ≤ addressSpace) (hd : ¬ cells.Pairwise Cell.Differ) :
    ∃ position label, link true cells = .error (.error (.redeclaredLabel position label)) := by
  rcases Cell.pairwise_or_repeats cells with h | ⟨before, c, after, rfl, hb, hc⟩
  · exact absurd h hd
  · refine ⟨c.position, c.label, ?_⟩
    rw [link, LabelTable.ofCells_of_repeats hl hb hc]
    rfl

end Image

/-! ### Assembly -/

/-- An error that only strict assembly has. -/
def AssemblyError.IsStrict : AssemblyError → Prop
  | encode e => e.IsReserved
  | link (.redeclaredLabel ..) => True
  | _ => False

/-- What strict assembly refuses: a source-written register of a fixed role, or a repeated label. -/
def Program.Loose (p : Program) : Prop := (∃ o ∈ p.operands, o.IsFixed) ∨ ¬ p.declared.Nodup

namespace Assembler
variable {a b : Assembler} {file text : Text}

/-- Expansion goes by the instruction table and the files alone. -/
theorem expand_of_expand {name : Text} {chain : List Text} {fields out : List Field}
    (h : (a.expand name chain fields).outcome = .ok out) (ht : a.table = b.table) (hf : a.tree = b.tree) :
    (b.expand name chain fields).outcome = .ok out := by
  fun_induction Assembler.expand a name chain fields generalizing out with
  | case1 =>
    cases h
    exact expand_eq_self (by simp)
  | case2 => cases h
  | case3 => cases h
  | case4 => cases h
  | case5 => cases h
  | case6 name chain position path rest relative hu hc tree htree content hr _ ihi ih =>
    simp only [Logged.outcome_bind_eq_ok] at h
    obtain ⟨-, -, p, hp, inner, hinner, outer, houter, hout⟩ := h
    cases hout
    have hparses : b.Parses (target name relative) content p := by
      obtain ⟨ts, hs, hp⟩ := source_eq_ok.mp hp
      exact ⟨ts, hs, ht ▸ hp⟩
    exact expand_inclusion hu hc (hf ▸ htree) hr hparses (ihi p hinner) (ih houter)
  | case7 name chain f rest hf ih =>
    obtain ⟨outer, houter, hout⟩ := Logged.outcome_bind_eq_ok.mp h
    cases hout
    rw [expand, Logged.outcome_bind_of_ok (ih houter)]
    · rfl
    · exact hf

theorem program_of_program {p : Program} (h : (a.program file text).outcome = .ok p)
    (ht : a.table = b.table) (hf : a.tree = b.tree) : (b.program file text).outcome = .ok p := by
  obtain ⟨q, out, ⟨ts, hs, hq⟩, hout, rfl⟩ := program_eq_ok.mp h
  exact program_eq_ok.mpr ⟨q, out, ⟨ts, hs, ht ▸ hq⟩, expand_of_expand hout ht hf, rfl⟩

variable {table : InstructionTable} {tree : Option SourceTree} {r : Assembly}

/-- An assembly without what strictness refuses comes out the same. -/
theorem assemble_of_not_loose (hr : (({ table, tree } : Assembler).assemble file text).outcome = .ok r)
    (h : ¬ r.program.Loose) :
    (({ table, tree, strict := true } : Assembler).assemble file text).outcome = .ok r := by
  obtain ⟨hp, hcells, himage, hfile⟩ := assemble_eq_ok.mp hr
  have hsound := program_sound hp
  obtain ⟨hfixed, hlabels⟩ := not_or.mp h
  refine assemble_eq_ok.mpr ⟨program_of_program hp rfl rfl, ?_, ?_, hfile⟩
  · rw [← hcells]
    exact (Program.encode_tightens hsound).same fun o ho hf => hfixed ⟨o, ho, hf⟩
  · have hd : r.cells.Pairwise Cell.Differ := by
      rw [Cell.pairwise_differ_iff, Program.labels_encode hsound hcells]
      exact not_not.mp hlabels
    rw [← himage]
    exact Image.link_strict hd

theorem assemble_of_loose (hr : (({ table, tree } : Assembler).assemble file text).outcome = .ok r)
    (h : r.program.Loose) :
    ∃ e, (({ table, tree, strict := true } : Assembler).assemble file text).outcome = .error (.error e) ∧
      e.IsStrict := by
  obtain ⟨hp, hcells, himage, hfile⟩ := assemble_eq_ok.mp hr
  have hsound := program_sound hp
  have hp' : (({ table, tree, strict := true } : Assembler).program file text).outcome = .ok r.program :=
    program_of_program hp rfl rfl
  have htight := Program.encode_tightens hsound
  by_cases hfixed : ∃ o ∈ r.program.operands, o.IsFixed
  · obtain ⟨f, hf, hreserved⟩ := htight.refused hfixed
    obtain ⟨e, rfl, he⟩ := hreserved _ hcells
    exact ⟨.encode e, assemble_eq_error.mpr (.inr ⟨_, hp', .inl ⟨_, hf, rfl⟩⟩), he⟩
  · have hsame := htight.same fun o ho hf => hfixed ⟨o, ho, hf⟩
    have hd : ¬ r.cells.Pairwise Cell.Differ := by
      rw [Cell.pairwise_differ_iff, Program.labels_encode hsound hcells]
      exact h.resolve_left hfixed
    obtain ⟨position, label, hlink⟩ := Image.link_of_not_differ (Image.length_le_of_link himage) hd
    refine ⟨.link (.redeclaredLabel position label), assemble_eq_error.mpr ?_, trivial⟩
    exact .inr ⟨_, hp', .inr ⟨_, _, hsame.trans hcells, hlink, rfl⟩⟩

theorem assemble_of_strict
    (hr : (({ table, tree, strict := true } : Assembler).assemble file text).outcome = .ok r) :
    (({ table, tree } : Assembler).assemble file text).outcome = .ok r := by
  obtain ⟨hp, hcells, himage, hfile⟩ := assemble_eq_ok.mp hr
  have hsound := program_sound hp
  have htight := Program.encode_tightens hsound
  have hfixed : ∀ o ∈ r.program.operands, ¬ o.IsFixed := by
    intro o ho hf
    obtain ⟨f, hf, -⟩ := htight.refused ⟨o, ho, hf⟩
    cases hf.symm.trans hcells
  have hd : r.cells.Pairwise Cell.Differ := by
    by_contra hd
    obtain ⟨position, label, hlink⟩ := Image.link_of_not_differ (Image.length_le_of_link himage) hd
    cases hlink.symm.trans himage
  refine assemble_eq_ok.mpr ⟨program_of_program hp rfl rfl, ?_, ?_, hfile⟩
  · exact (htight.same hfixed).symm.trans hcells
  · exact (Image.link_strict hd).symm.trans himage

/-- Strictness only rejects. What it finishes is finished without it and the same, and of what is
finished without it, it refuses exactly the loose programs. -/
theorem assemble_strict (table : InstructionTable) (tree : Option SourceTree) (file text : Text) :
    let lax : Assembler := { table, tree, strict := false }
    let strict : Assembler := { table, tree, strict := true }
    (∀ r, (strict.assemble file text).outcome = .ok r → (lax.assemble file text).outcome = .ok r) ∧
      ∀ r, (lax.assemble file text).outcome = .ok r →
        ((strict.assemble file text).outcome = .ok r ∨
          ∃ e, (strict.assemble file text).outcome = .error (.error e) ∧ e.IsStrict) ∧
        ((∃ failure, (strict.assemble file text).outcome = .error failure) ↔ r.program.Loose) := by
  intro lax strict
  refine ⟨fun r hr => assemble_of_strict hr, fun r hr => ?_⟩
  by_cases hloose : r.program.Loose
  · obtain ⟨e, he, hstrict⟩ := assemble_of_loose hr hloose
    exact ⟨.inr ⟨e, he, hstrict⟩, iff_of_true ⟨_, he⟩ hloose⟩
  · have hsame := assemble_of_not_loose hr hloose
    refine ⟨.inl hsame, iff_of_false ?_ hloose⟩
    rintro ⟨failure, hf⟩
    cases hf.symm.trans hsame

end Assembler
end AccAsm
