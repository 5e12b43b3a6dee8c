import AccAsm.Proofs.Encoding.Places
import AccAsm.Proofs.Inclusion.Flattening
import AccAsm.Proofs.Program.EarliestError
import AccAsm.Proofs.Text.Path
import AccAsm.Proofs.Token.Pointing

/-! # Errors point into the sources

An error of an assembly that has a position names a file that was read, and points into it
(`assemble_error_points`). Positions are made by the scanner alone. The tokens of a file carry them into
the program of the file, into the splice of all files and from there through encoding and linking, and
every stage blames a place that it was given.

The exception is an error at the end of a file, which is blamed on the end-of-file token: it points into
the file exactly if no newline and no carriage return ends the file. -/

namespace AccAsm
open Text (newline carriageReturn lit)

/-- The file ends where the error expected something else. -/
def AssemblyError.AtEnd : AssemblyError → Prop
  | grammar (.unexpected _ _ found _) => found = .endOfFile
  | _ => False

theorem GrammarError.Blames.position {e : GrammarError} {t : Token} (h : e.Blames t) :
    e.position = t.position := by
  cases e with
  | unexpected position kinds found lexeme => rw [show t = _ from h]; rfl
  | unknownMnemonic position mnemonic => rw [show t = _ from h]; rfl

theorem GrammarError.Blames.atEnd {e : GrammarError} {t : Token} (h : e.Blames t) :
    (AssemblyError.grammar e).AtEnd ↔ t.kind = .endOfFile := by
  cases e with
  | unexpected position kinds found lexeme => rw [show t = _ from h]; rfl
  | unknownMnemonic position mnemonic =>
    rw [show t = _ from h]
    constructor
    · rintro ⟨⟩
    · rintro ⟨⟩

/-- An error is blamed on one of the tokens, or on the end. -/
theorem Program.exists_blames {table : InstructionTable} {body : List Token} {last : Token}
    {e : GrammarError} (hlast : last.kind = .endOfFile) (h : ofTokens table (body ++ [last]) = .error e) :
    ∃ t, e.Blames t ∧ (t ∈ body ∨ t.kind = .endOfFile ∧ t.position = last.position) := by
  obtain ⟨us, rest, q, hsplit, -, hstep⟩ := Automaton.reaches_of_run (ofTokens_eq_error.mp h)
  refine ⟨_, (Automaton.State.step_error hstep).blames, ?_⟩
  cases rest with
  | nil => exact .inr ⟨rfl, by simp [TokenStream.peek, TokenStream.ofList]⟩
  | cons t rest =>
    have hmem : t ∈ body ++ [last] := by
      rw [show body ++ [last] = us ++ t :: rest from hsplit]
      simp
    rcases List.mem_append.mp hmem with ht | ht
    · exact .inl ht
    · obtain rfl := List.mem_singleton.mp ht
      exact .inr ⟨hlast, rfl⟩

namespace Assembler
variable {a : Assembler} {file text node name content : Text} {p : Program}

/-! ### Files -/

section
variable (a : Assembler) (file text : Text)

/-- The file `name` has this content in an assembly that starts from `file`. -/
def Holds (name content : Text) : Prop :=
  if name = file then content = text else ∃ tree, a.tree = some tree ∧ tree.read name = .ok content

/-- The position points into the file it names. -/
def Placed (p : Position) : Prop := ∃ content, a.Holds file text p.file content ∧ p.Points content

/-- The position of the error points into the file it names, unless it is at the end of the file. -/
def Diagnosed (e : AssemblyError) : Prop :=
  ∀ p ∈ e.position?, ∃ content, a.Holds file text p.file content ∧
    (¬ e.AtEnd → p.Points content) ∧ (e.AtEnd → p.Ends content)

end

theorem clean_of_reaches (h : a.Reaches file text node) : Path.clean node = node := by
  rcases h.cases_tail with rfl | ⟨before, -, _, _, _, -, -, position, path, relative, -, -, rfl⟩
  · exact Path.clean_clean file
  · exact Path.clean_join (Path.clean_ne_nil _) relative

/-- No file is included under the name of the first one. -/
theorem Stands.holds (hs : a.Stands file text node name content) (hr : a.Reaches file text node) :
    a.Holds file text name content := by
  cases hs with
  | first => exact (if_pos rfl).mpr rfl
  | other hn ht hread =>
    have hne : node ≠ file := by
      rintro rfl
      exact hn (clean_of_reaches hr).symm
    exact (if_neg hne).mpr ⟨_, ht, hread⟩

theorem placed_of_points {p : Position} (hs : a.Stands file text node name content)
    (hr : a.Reaches file text node) (hp : p.file = name ∧ p.Points content) : a.Placed file text p := by
  obtain ⟨rfl, hpoints⟩ := hp
  exact ⟨content, hs.holds hr, hpoints⟩

theorem diagnosed_of_placed {e : AssemblyError} (he : ¬ e.AtEnd)
    (h : ∀ p ∈ e.position?, a.Placed file text p) : a.Diagnosed file text e := by
  intro p hp
  obtain ⟨content, hholds, hpoints⟩ := h p hp
  exact ⟨content, hholds, fun _ => hpoints, fun hend => absurd hend he⟩

/-! ### Programs -/

theorem within_of_parses (hr : a.Reaches file text node) (hs : a.Stands file text node name content)
    (hp : a.Parses name content p) : ∀ t ∈ p.tokens, t.Within (a.Placed file text) := by
  obtain ⟨body, last, hscan, -, -, -, hkept⟩ := hp.exists_tokens
  obtain ⟨body', last', hsplit, hbody, -⟩ := Scan.points_of_tokens hscan
  obtain ⟨rfl, -⟩ := List.append_inj' hsplit rfl
  rw [← hkept]
  intro t ht hmark
  obtain ⟨u, hu, rfl⟩ := List.mem_map.mp ht
  rw [Token.kind_kept] at hmark
  rw [Token.position_kept hmark]
  exact placed_of_points hs hr (hbody u hu).2

theorem source_meets (hr : a.Reaches file text node) (hs : a.Stands file text node name content) :
    Failure.Meets (a.Diagnosed file text) (a.Parses name content) (a.source name content).outcome := by
  rcases a.source_outcome name content with ⟨p, hout, hp⟩ | ⟨e, hout, hscan⟩ | ⟨ts, e, hout, hscan, he⟩
  · rw [hout]
    exact Failure.meets_ok hp
  · rw [hout]
    refine Failure.meets_error (diagnosed_of_placed not_false ?_)
    rintro p ⟨⟩
    exact placed_of_points hs hr (Scan.points_of_scanError hscan)
  · rw [hout]
    refine Failure.meets_error ?_
    obtain ⟨body, last, rfl, hbody, hlast, hfile, hends⟩ := Scan.points_of_tokens hscan
    obtain ⟨t, hblames, ht⟩ := Program.exists_blames hlast he
    rintro p ⟨⟩
    rw [hblames.position, hblames.atEnd]
    rcases ht with ht | ⟨hkind, hposition⟩
    · obtain ⟨hkind, rfl, hpoints⟩ := hbody t ht
      exact ⟨content, hs.holds hr, fun _ => hpoints, fun hend => absurd hend hkind⟩
    · rw [hposition, hfile]
      exact ⟨content, hs.holds hr, fun hend => absurd hkind hend, fun _ => hends⟩

namespace Visit
variable {chain : List Text} {fields : List Field} {f : Field}

theorem within (hv : a.Visit file text node name chain (f :: fields)) :
    ∀ t ∈ f.tokens, t.Within (a.Placed file text) := by
  obtain ⟨content, p, hs, hp, hf⟩ := hv.source
  intro t ht
  exact within_of_parses hv.reaches hs hp t (List.mem_flatMap.mpr ⟨f, hf f (.head _), ht⟩)

/-- An error that is blamed on an inclusion. -/
theorem diagnosed {position : Position} {path : Lexeme} {e : AssemblyError}
    (hv : a.Visit file text node name chain (.inclusion position path :: fields))
    (hp : e.position? = some position) (he : ¬ e.AtEnd) : a.Diagnosed file text e := by
  refine diagnosed_of_placed he fun p hmem => ?_
  cases hp.symm.trans hmem
  exact hv.within ⟨.inclusion, position, []⟩ (.head _) rfl

end Visit

/-- An expansion stops at an inclusion or in a file that is included, and keeps the places of all
fields. -/
theorem expand_meets {chain : List Text} {fields : List Field}
    (hv : a.Visit file text node name chain fields) :
    Failure.Meets (a.Diagnosed file text)
      (fun out => ∀ f ∈ out, ∀ t ∈ f.tokens, t.Within (a.Placed file text))
      (a.expand name chain fields).outcome := by
  fun_induction Assembler.expand a name chain fields generalizing node with
  | case1 => exact Failure.meets_ok (by simp)
  | case2 => exact Failure.meets_error (hv.diagnosed rfl not_false)
  | case3 => exact Failure.meets_error (hv.diagnosed rfl not_false)
  | case4 => exact Failure.meets_error (hv.diagnosed rfl not_false)
  | case5 => exact Failure.meets_error (hv.diagnosed rfl not_false)
  | case6 name chain position path rest relative hu hc tree ht content hr _ ihi ih =>
    have hn : Names name (.inclusion position path :: rest) (target name relative) := names_head hu
    have hs := hv.stands_next hc ht hr
    rw [Logged.outcome_bind_of_ok (a := ()) rfl]
    simp only [Logged.outcome_bind]
    refine (source_meets (hv.reaches_next hn) hs).bind fun p hp => ?_
    refine (ihi p (hv.enter hn hc hs hp)).bind fun inner hinner => ?_
    refine (ih hv.tail).bind fun outer houter => Failure.meets_ok ?_
    exact List.forall_mem_append.mpr ⟨hinner, houter⟩
  | case7 name chain f rest hf ih =>
    rw [Logged.outcome_bind]
    refine (ih hv.tail).bind fun outer houter => Failure.meets_ok ?_
    exact List.forall_mem_cons.mpr ⟨hv.within, houter⟩

theorem program_meets (a : Assembler) (file text : Text) :
    Failure.Meets (a.Diagnosed file text) (fun p => ∀ t ∈ p.tokens, t.Within (a.Placed file text))
      (a.program file text).outcome := by
  simp only [program, Logged.outcome_bind]
  refine (source_meets .refl .first).bind fun p hp => ?_
  refine (expand_meets (.first hp)).bind fun out hout => Failure.meets_ok fun t ht => ?_
  obtain ⟨f, hf, ht⟩ := List.mem_flatMap.mp ht
  exact hout f hf t ht

/-! ### Assemblies -/

theorem diagnosed_of_assemble {e : AssemblyError}
    (h : (a.assemble file text).outcome = .error (.error e)) : a.Diagnosed file text e := by
  have hprogram := a.program_meets file text
  rcases assemble_eq_error.mp h with hfail | ⟨q, hq, ⟨f, hencode, hf⟩ | ⟨cells, f, hencode, hlink, hf⟩⟩
  · obtain ⟨e', he', hdiagnosed⟩ := hprogram.only _ hfail
    cases he'
    exact hdiagnosed
  · cases f with
    | fault => cases hf
    | error e' =>
      cases hf
      refine diagnosed_of_placed not_false ?_
      rintro p ⟨⟩
      exact (Program.encode_traced (hprogram.ok q hq)).error e' hencode
  · cases f with
    | fault => cases hf
    | error e' =>
      cases hf
      have hwithin := (Program.encode_traced (hprogram.ok q hq)).ok cells hencode
      have hlays := (Program.encode_meets (program_sound hq) a.strict).ok cells hencode
      exact diagnosed_of_placed not_false (Image.within_of_link hwithin hlays.whole hlink)

theorem assemble_of_grammarError {ts : List Token} {e : GrammarError} (hs : Scan.tokens file text = .ok ts)
    (he : Program.ofTokens a.table ts = .error e) :
    (a.assemble file text).outcome = .error (.error (.grammar e)) := by
  have hsource : (a.source file text).outcome = .error (.error (.grammar e)) := by
    rcases a.source_outcome file text with ⟨p, -, us, hus, hp⟩ | ⟨e', -, hscan⟩ | ⟨us, e', hout, hus, he'⟩
    · cases hs.symm.trans hus
      cases he.symm.trans hp
    · cases hs.symm.trans hscan
    · cases hs.symm.trans hus
      cases he.symm.trans he'
      exact hout
  exact assemble_eq_error.mpr (.inl (Logged.outcome_bind_of_error hsource))

/-- An error with a position names a file and points to a place in it: the line and the column belong to
the offset, and a report quotes that line with its caret below the column, at most one place behind the
end. An error at the end of a file has the offset of the end and the column behind its last line, and
points into the file exactly if neither a newline nor a carriage return ends it. -/
theorem assemble_error_points {e : AssemblyError} {p : Position}
    (h : (a.assemble file text).outcome = .error (.error e)) (hp : e.position? = some p) :
    ∃ content, a.Holds file text p.file content ∧ (¬ e.AtEnd → p.Points content) ∧
      (e.AtEnd → p.Ends content ∧
        (p.Points content ↔ ∀ b ∈ content.getLast?, b ≠ newline ∧ b ≠ carriageReturn)) := by
  obtain ⟨content, hholds, hpoints, hends⟩ := diagnosed_of_assemble h p hp
  refine ⟨content, hholds, hpoints, fun hend => ?_⟩
  exact ⟨hends hend, (hends hend).points_iff⟩

/-- An unknown mnemonic in a file of lines that end with carriage returns. -/
theorem assemble_error_points_mnemonic :
    let a : Assembler := {}
    let text := lit ".inst\r\n\tfoo\r\n"
    let p : Position :=
      { file := lit "a.s", line := 2, column := 2, offset := 8, size := 3, lineOffset := 7 }
    let e : AssemblyError := .grammar (.unknownMnemonic p (lit "foo"))
    (a.assemble (lit "a.s") text).outcome = .error (.error e) ∧ e.position? = some p ∧
      ∃ content, a.Holds (lit "a.s") text p.file content ∧ p.Points content := by
  intro a text p e
  have hs : Scan.tokens (lit "a.s") text = .ok [
      ⟨.inst, ⟨lit "a.s", 1, 1, 0, 5, 0⟩, lit ".inst"⟩,
      ⟨.mnemonic, p, lit "foo"⟩, ⟨.endOfFile, ⟨lit "a.s", 2, 6, 13, 0, 7⟩, []⟩] :=
    except_toOption_eq_some.mp (by decide +kernel)
  have h : (a.assemble (lit "a.s") text).outcome = .error (.error e) :=
    assemble_of_grammarError hs (Program.ofTokens_eq_error.mpr (by decide +kernel))
  obtain ⟨content, hholds, hpoints, -⟩ := assemble_error_points h rfl
  exact ⟨h, rfl, content, hholds, hpoints not_false⟩

/-- The operands of the last line are missing, and a newline ends the file. -/
theorem assemble_error_behind_line :
    let a : Assembler := {}
    let text := lit ".inst\nadd\n"
    let p : Position :=
      { file := lit "a.s", line := 2, column := 4, offset := 10, size := 0, lineOffset := 6 }
    let e : AssemblyError := .grammar (.unexpected p [.accumulator] .endOfFile [])
    (a.assemble (lit "a.s") text).outcome = .error (.error e) ∧ e.position? = some p ∧
      ¬ ∃ content, a.Holds (lit "a.s") text p.file content ∧ p.Points content := by
  intro a text p e
  have hs : Scan.tokens (lit "a.s") text = .ok [
      ⟨.inst, ⟨lit "a.s", 1, 1, 0, 5, 0⟩, lit ".inst"⟩,
      ⟨.mnemonic, ⟨lit "a.s", 2, 1, 6, 3, 6⟩, lit "add"⟩, ⟨.endOfFile, p, []⟩] :=
    except_toOption_eq_some.mp (by decide +kernel)
  have h : (a.assemble (lit "a.s") text).outcome = .error (.error e) :=
    assemble_of_grammarError hs (Program.ofTokens_eq_error.mpr (by decide +kernel))
  refine ⟨h, rfl, ?_⟩
  rintro ⟨content, -, line, hp⟩
  exact absurd hp.column (by decide)

end Assembler
end AccAsm
