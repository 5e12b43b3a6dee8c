import AccAsm.Proofs.Inclusion

/-! # The files an assembly depends on

Whether an assembly is finished, and what it comes to, depends on the files that it looks up by following
inclusions, and on whether they can be read: `FindsSame.outcome`. Why a file cannot be read makes no
difference to that. The two graphs of inclusions agree as far as one of them can be followed, which is the
induction in `FindsSame.reaches`. -/

namespace AccAsm
namespace Assembler
open Relation (ReflTransGen)
variable {a b : Assembler} {file text node name content : Text}

/-- The text of the file at a node, if it can be read. -/
def text? (a : Assembler) (node : Text) : Option Text := a.tree.bind fun tree => (tree.read node).toOption

theorem text?_of_read {tree : SourceTree} (ht : a.tree = some tree) : a.text? node = (tree.read node).toOption := by
  rw [text?, ht]
  rfl

theorem exists_read_of_text? (h : a.text? node = some content) :
    ∃ tree, a.tree = some tree ∧ tree.read node = .ok content := by
  obtain ⟨tree, ht, hr⟩ := Option.bind_eq_some_iff.mp h
  exact ⟨tree, ht, except_toOption_eq_some.mp hr⟩

/-- `b` has the table of `a` and finds the same files wherever `a` looks for them. -/
structure FindsSame (a b : Assembler) (file text : Text) : Prop where
  table : b.table = a.table
  strict : b.strict = a.strict
  files : ∀ node, a.Reaches file text node → b.text? node = a.text? node

namespace FindsSame

theorem stands (h : a.FindsSame b file text) (hr : a.Reaches file text node) :
    b.Stands file text node name content ↔ a.Stands file text node name content := by
  have hother {a b : Assembler} (hsame : b.text? node = a.text? node) (hs : b.Stands file text node name content) :
      a.Stands file text node name content := by
    cases hs with
    | first => exact .first
    | other hn ht hread =>
      have hfound : a.text? node = some content := by
        rw [← hsame, text?_of_read ht, hread]
        rfl
      obtain ⟨tree, ht', hread'⟩ := exists_read_of_text? hfound
      exact .other hn ht' hread'
  exact ⟨hother (h.files node hr), hother (h.files node hr).symm⟩

theorem parses (h : a.FindsSame b file text) {p : Program} : b.Parses name content p ↔ a.Parses name content p := by
  rw [Parses, Parses, h.table]

theorem reaches (h : a.FindsSame b file text) (hr : b.Reaches file text node) : a.Reaches file text node := by
  induction hr with
  | refl => exact ReflTransGen.refl
  | tail _ hstep ih =>
    obtain ⟨name, content, p, hs, hp, hn⟩ := hstep
    exact ih.tail ⟨name, content, p, (h.stands ih).mp hs, h.parses.mp hp, hn⟩

theorem symm (h : a.FindsSame b file text) : b.FindsSame a file text :=
  ⟨h.table.symm, h.strict.symm, fun node hr => (h.files node (h.reaches hr)).symm⟩

theorem expand (h : a.FindsSame b file text) {chain : List Text} {fields out : List Field}
    (hv : a.Visit file text node name chain fields) (he : (a.expand name chain fields).outcome = .ok out) :
    (b.expand name chain fields).outcome = .ok out := by
  fun_induction Assembler.expand a name chain fields generalizing node out with
  | case1 =>
    cases he
    exact expand_eq_self (by simp)
  | case2 => cases he
  | case3 => cases he
  | case4 => cases he
  | case5 => cases he
  | case6 name chain position path rest relative hu hc tree ht content hr _ ihi ih =>
    have hn : Names name (.inclusion position path :: rest) (target name relative) := names_head hu
    have hs := hv.stands_next hc ht hr
    simp only [Logged.outcome_bind_eq_ok] at he
    obtain ⟨-, -, p, hp, inner, hinner, outer, houter, hout⟩ := he
    cases hout
    have hfound : b.text? (target name relative) = some content := by
      rw [h.files _ (hv.reaches_next hn), text?_of_read ht, hr]
      rfl
    obtain ⟨tree', ht', hr'⟩ := exists_read_of_text? hfound
    have hparses := source_eq_ok.mp hp
    exact expand_inclusion hu hc ht' hr' (h.parses.mpr hparses) (ihi p (hv.enter hn hc hs hparses) hinner)
      (ih hv.tail houter)
  | case7 name chain f rest hf ih =>
    obtain ⟨outer, houter, hout⟩ := Logged.outcome_bind_eq_ok.mp he
    cases hout
    rw [Assembler.expand, Logged.outcome_bind_of_ok (ih hv.tail houter)]
    · rfl
    · exact hf

theorem assemble (h : a.FindsSame b file text) {r : Assembly} (hr : (a.assemble file text).outcome = .ok r) :
    (b.assemble file text).outcome = .ok r := by
  obtain ⟨hp, hcells, himage, hfile⟩ := assemble_eq_ok.mp hr
  obtain ⟨q, out, hq, hout, hprogram⟩ := program_eq_ok.mp hp
  refine assemble_eq_ok.mpr ⟨?_, ?_, ?_, hfile⟩
  · exact program_eq_ok.mpr ⟨q, out, h.parses.mpr hq, h.expand (.first hq) hout, hprogram⟩
  · rw [h.table, h.strict, hcells]
  · rw [h.strict, himage]

/-- An assembly comes to the same if it finds the same files. -/
theorem outcome (h : a.FindsSame b file text) :
    (b.assemble file text).outcome.toOption = (a.assemble file text).outcome.toOption := by
  refine Option.ext fun r => ?_
  rw [except_toOption_eq_some, except_toOption_eq_some]
  exact ⟨h.symm.assemble, h.assemble⟩

end FindsSame
end Assembler
end AccAsm
