import AccAsm.Assembly.Log
import AccAsm.Encoding
import AccAsm.Instruction.Builtin
import AccAsm.Program.Reading
import AccAsm.Text.Quoted

/-! # Assembly

From a source file to its image: the file is read, every inclusion is replaced by the fields of the
file it names, and the resulting program is encoded and linked. -/

namespace AccAsm

structure Assembler where
  table : InstructionTable := .builtin
  /-- Refuses registers with a fixed role and repeated labels. -/
  strict : Bool := false
  /-- Where files are looked up. -/
  tree : Option SourceTree := none

/-- A finished assembly. -/
structure Assembly where
  file : Text
  /-- The program with all inclusions replaced. -/
  program : Program
  cells : List Cell
  image : Image

namespace Assembler

/-- The number of paths that are not in `chain`. -/
def unvisited (a : Assembler) (chain : List Text) : Nat :=
  match a.tree with
  | none => 0
  | some tree => tree.paths.countP fun p => !chain.contains p

theorem countP_append_lt {paths chain : List Text} {p : Text} (hm : p ∈ paths) (hc : p ∉ chain) :
    paths.countP (fun q => !(chain ++ [p]).contains q) < paths.countP (fun q => !chain.contains q) := by
  induction paths with
  | nil => simp at hm
  | cons q rest ih =>
    have hle : rest.countP (fun q => !(chain ++ [p]).contains q) ≤
        rest.countP (fun q => !chain.contains q) :=
      List.countP_mono_left fun x _ hx => by simp_all
    rw [List.countP_cons, List.countP_cons]
    by_cases hq : q = p
    · have h₁ : (!(chain ++ [p]).contains q) = false := by simp [hq]
      have h₂ : (!chain.contains q) = true := by simp [hq, hc]
      rw [h₁, h₂, if_pos rfl, if_neg Bool.false_ne_true]
      omega
    · have heq : (chain ++ [p]).contains q = chain.contains q := by simp [hq]
      have := ih ((List.mem_cons.mp hm).resolve_left (Ne.symm hq))
      rw [heq]
      omega

/-- Reading a new file leaves fewer of them. -/
theorem unvisited_lt {a : Assembler} {tree : SourceTree} {chain : List Text} {p t : Text}
    (ht : a.tree = some tree) (hc : p ∉ chain) (hr : tree.read p = .ok t) :
    a.unvisited (chain ++ [p]) < a.unvisited chain := by
  simp only [unvisited, ht]
  exact countP_append_lt (tree.mem_of_read hr) hc

/-- The program of a single file. -/
def source (a : Assembler) (file text : Text) : Logged Program := do
  let tokens ← .ofExcept ((Scan.tokens file text).mapError fun e => .error (.scan e))
  let program ← .ofExcept ((Program.ofTokens a.table tokens).mapError fun e => .error (.grammar e))
  .log (.parsed file tokens.length program.outline.size)
  return program

/-- The path of the file that an inclusion in `file` names. -/
def target (file name : Text) : Text := Path.join (Path.directory file) name

/-- Replaces the inclusions among the fields of `file`, which was reached by way of the files in
`chain`. -/
def expand (a : Assembler) (file : Text) (chain : List Text) : List Field → Logged (List Field)
  | [] => return []
  | .inclusion position path :: rest =>
    match Quoted.unquote? path.text with
    | none => .fail (.inclusion position path.text .malformedPath)
    | some name =>
      if hc : target file name ∈ chain then
        .fail (.inclusionCycle position (chain ++ [target file name]))
      else
        match ht : a.tree with
        | none => .fail (.inclusion position name .noTree)
        | some tree =>
          match hr : tree.read (target file name) with
          | .error e => .fail (.inclusion position name (.unreadable e))
          | .ok text =>
            have := a.unvisited_lt ht hc hr
            do
            .log (.including file (target file name))
            let included ← a.source (target file name) text
            let fields ← a.expand (target file name) (chain ++ [target file name]) included.fields
            return fields ++ (← a.expand file chain rest)
  | field :: rest => return field :: (← a.expand file chain rest)
termination_by fields => (a.unvisited chain, fields.length)
decreasing_by
  · exact .left _ _ this
  · exact .right _ (by simp)
  · exact .right _ (by simp)

/-- The program of a file with all inclusions replaced. -/
def program (a : Assembler) (file text : Text) : Logged Program := do
  let p ← a.source file text
  return { p with fields := ← a.expand file [Path.clean file] p.fields }

/-- Assembles a file from its text. -/
def assemble (a : Assembler) (file text : Text) : Logged Assembly := do
  let program ← a.program file text
  let cells ← .ofExcept ((program.encode a.table a.strict).mapError (·.mapError .encode))
  .log (.encoded cells.length)
  let image ← .ofExcept ((Image.link a.strict cells).mapError (·.mapError .link))
  .log (.assembled file image.bytes.length image.labels.size)
  return { file, program, cells, image }

/-- An assembly is finished if all its stages are. -/
theorem assemble_eq_ok {a : Assembler} {file text : Text} {r : Assembly} :
    (a.assemble file text).outcome = .ok r ↔
      (a.program file text).outcome = .ok r.program ∧
        r.program.encode a.table a.strict = .ok r.cells ∧
        Image.link a.strict r.cells = .ok r.image ∧ r.file = file := by
  have hmap {ε α : Type} {x : Except (Failure ε) α} {f : ε → AssemblyError} {v : α} :
      (Logged.ofExcept (x.mapError (·.mapError f))).outcome = .ok v ↔ x = .ok v := by
    cases x with
    | ok a => exact ⟨fun h => by cases h; rfl, fun h => by cases h; rfl⟩
    | error e => exact ⟨(nomatch ·), (nomatch ·)⟩
  simp only [assemble, Logged.outcome_bind_eq_ok, hmap]
  constructor
  · rintro ⟨program, hp, cells, hc, -, -, image, hi, -, -, hr⟩
    cases hr
    exact ⟨hp, hc, hi, rfl⟩
  · rintro ⟨hp, hc, hi, rfl⟩
    exact ⟨r.program, hp, r.cells, hc, (), rfl, r.image, hi, (), rfl, rfl⟩

/-- An assembly fails where the first of its stages does. -/
theorem assemble_eq_error {a : Assembler} {file text : Text} {failure : Failure AssemblyError} :
    (a.assemble file text).outcome = .error failure ↔
      (a.program file text).outcome = .error failure ∨
        ∃ p, (a.program file text).outcome = .ok p ∧
          ((∃ f, p.encode a.table a.strict = .error f ∧ failure = f.mapError .encode) ∨
            ∃ cells f, p.encode a.table a.strict = .ok cells ∧ Image.link a.strict cells = .error f ∧
              failure = f.mapError .link) := by
  cases hp : (a.program file text).outcome with
  | error e => simp [assemble, Logged.outcome_bind_of_error hp]
  | ok p =>
    rw [assemble, Logged.outcome_bind_of_ok hp]
    cases hc : p.encode a.table a.strict with
    | error f =>
      rw [Logged.outcome_bind_of_error rfl]
      simp [hc, eq_comm]
    | ok cells =>
      rw [Logged.outcome_bind_of_ok (a := cells) rfl, Logged.outcome_bind_of_ok (a := ()) rfl]
      cases hi : Image.link a.strict cells with
      | error f =>
        rw [Logged.outcome_bind_of_error rfl]
        simp [hc, hi, eq_comm]
      | ok image =>
        rw [Logged.outcome_bind_of_ok (a := image) rfl, Logged.outcome_bind_of_ok (a := ()) rfl]
        simp [hc, hi, pure, Logged.pure]

/-- Assembles a file of the tree. -/
def assembleFile (a : Assembler) (file : Text) : Logged Assembly :=
  match a.tree with
  | none => .fail (.unreadable file .noTree)
  | some tree =>
    match tree.read file with
    | .error e => .fail (.unreadable file (.unreadable e))
    | .ok text => a.assemble file text

end Assembler
end AccAsm
