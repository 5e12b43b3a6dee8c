import AccAsm.Proofs.Encoding.Layout
import AccAsm.Proofs.Inclusion.Flattening
import AccAsm.Proofs.Linking

/-! # Safety of assembly

Whatever there is to assemble, the assembler ends with a result or with an error in its input, and never
with a fault (`assemble_safe`). What each stage takes for granted the one before has established:
scanned words have the shape of their kind, a program that was read agrees with the table, and its cells
are whole. -/

namespace AccAsm

namespace Assembler
variable {a : Assembler} {file text : Text} {p : Program} {e : EncodeError}

/-- An error that lies in what there is to assemble. The table is to blame if it lacks an instruction
that a pseudo-instruction of the program is lowered to, or has it with another format. -/
def Blames (a : Assembler) (file text : Text) : AssemblyError → Prop
  | .encode (.invalidNumber ..) | .encode (.invalidString _) | .encode (.unexpandedInclusion ..)
  | .encode (.unknownPart ..) => False
  | .encode (.tableMismatch position mnemonic want found) =>
    a.table ≠ .builtin ∧ ∃ p q, (a.program file text).outcome = .ok p ∧
      .pseudo position q ∈ p.items ∧ (mnemonic, want) ∈ q.primitives ∧
      (a.table.find? mnemonic).bind Instruction.format = found ∧ found ≠ some want
  | _ => True

theorem Obstacle.blames {e : AssemblyError} (h : a.Obstacle file text e) : a.Blames file text e := by
  cases h <;> trivial

theorem blames_of_refuses (hp : (a.program file text).outcome = .ok p) (h : p.Refuses a.table e) :
    a.Blames file text (.encode e) := by
  obtain ⟨position, label, next, rfl⟩ | ⟨i, hi, h⟩ := h
  · trivial
  obtain h | ⟨position, q, mnemonic, want, found, rfl, hq, rfl, hfound, hne⟩ := h
  · cases e <;> trivial
  · refine ⟨fun hb => ?_, p, q, hp, hi, hq, hfound, hne⟩
    rw [← hfound, hb] at hne
    exact hne (InstructionTable.builtin_primitives q _ hq)

theorem only_assemble (a : Assembler) (file text : Text) :
    Failure.Only (a.Blames file text) (a.assemble file text).outcome := by
  refine Failure.Only.logged ((only_program a file text).mono fun _ h => h.blames) fun p hp => ?_
  have hencode := Program.encode_meets (program_sound hp) a.strict
  refine Failure.Only.logged (hencode.only.mapError AssemblyError.encode fun e h => blames_of_refuses hp h)
    fun cells hcells => ?_
  have hlays := hencode.ok cells (except_mapError_eq_ok.mp hcells)
  refine Failure.Only.logged (Failure.only_ok ()) fun _ _ => ?_
  refine Failure.Only.logged ((Image.only_link hlays.whole).mapError AssemblyError.link fun _ _ => trivial)
    fun img _ => ?_
  exact Failure.Only.logged (Failure.only_ok ()) fun _ _ => Failure.only_ok _

/-- An assembly has a result or an error in its input. Scanning stays within its lines, whether a word is
accepted or refused, and so does the look back at the last byte of a number. -/
theorem assemble_safe (a : Assembler) (file text : Text) :
    ((∃ r, (a.assemble file text).outcome = .ok r) ∨
      ∃ e, (a.assemble file text).outcome = .error (.error e) ∧ a.Blames file text e) ∧
    (∀ b t w, Scan.word b t = .ok w → ∃ rest, w.spelling = b :: rest ∧ rest <+: t) ∧
    (∀ b t flaw, Scan.word b t = .error flaw → flaw.Within (b :: t)) ∧
    ∀ b t, ∃ last, (b :: t)[(t.takeWhile Text.isDigit).length]? = some last ∧
      ((∃ w, Scan.number b t = .ok w) ↔ Text.isDigit last) := by
  refine ⟨?_, fun b t w hw => Scan.spelling_word hw, fun b t flaw hw => Scan.within_word hw, Scan.last_number⟩
  cases h : (a.assemble file text).outcome with
  | ok r => exact .inl ⟨r, rfl⟩
  | error f =>
    obtain ⟨e, rfl, he⟩ := only_assemble a file text f h
    exact .inr ⟨e, rfl, he⟩

end Assembler
end AccAsm
