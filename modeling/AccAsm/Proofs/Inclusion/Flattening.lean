import AccAsm.Proofs.Inclusion

/-! # Inclusion in the token stream

`Flattened name ts out`: `out` is the list of tokens `ts` of the file `name` with the tokens of the
included files, up to their ends, in the place of each inclusion. Reading the flattened tokens gives the
fields of the expanded program (`ofTokens_flattened`), since a file starts and ends where a field does:
the tokens of a splice of fields are the flattened tokens of the files, which is the induction over
`Spliced` in `Spliced.exists_flattened`. -/

namespace AccAsm
open Text (lit)
namespace Assembler

/-- `out` is `ts` with the tokens of the included files in the place of each inclusion. -/
inductive Flattened (a : Assembler) : Text → List Token → List Token → Prop
  | nil (name : Text) : Flattened a name [] []
  | token {name : Text} {t : Token} {rest out : List Token} (ht : t.kind ≠ .inclusion)
      (h : Flattened a name rest out) : Flattened a name (t :: rest) (t :: out)
  | inclusion {name relative content : Text} {t s last : Token} {tree : SourceTree}
      {rest out body inner : List Token} (ht : t.kind = .inclusion) (hs : s.kind = .string)
      (hu : Quoted.unquote? s.value = some relative) (htree : a.tree = some tree)
      (hr : tree.read (target name relative) = .ok content)
      (hscan : Scan.tokens (target name relative) content = .ok (body ++ [last]))
      (hi : Flattened a (target name relative) body inner) (h : Flattened a name rest out) :
      Flattened a name (t :: s :: rest) (inner ++ out)

variable {a : Assembler} {file text name : Text}

theorem Flattened.unique {ts out out' : List Token} (h : a.Flattened name ts out)
    (h' : a.Flattened name ts out') : out = out' := by
  induction h generalizing out' with
  | nil name => cases h'; rfl
  | token ht _ ih =>
    cases h' with
    | token _ h' => rw [ih h']
    | inclusion ht' => exact absurd ht' ht
  | inclusion ht hs hu htree hr hscan _ _ ihi ih =>
    cases h' with
    | token ht' => exact absurd ht ht'
    | inclusion _ _ hu' htree' hr' hscan' hi' h' =>
      cases hu.symm.trans hu'
      cases htree.symm.trans htree'
      cases hr.symm.trans hr'
      have hbody := Except.ok.inj (hscan.symm.trans hscan')
      obtain ⟨rfl, -⟩ := List.append_inj' hbody rfl
      rw [ihi hi', ih h']

theorem Flattened.append_left {front ts out : List Token} (hf : ∀ t ∈ front, t.kind ≠ .inclusion)
    (h : a.Flattened name ts out) : a.Flattened name (front ++ ts) (front ++ out) := by
  induction front with
  | nil => exact h
  | cons t front ih =>
    obtain ⟨ht, hf⟩ := List.forall_mem_cons.mp hf
    exact .token ht (ih hf)

theorem Spliced.sound {fields out : List Field} (h : a.Spliced name fields out)
    (hf : ∀ f ∈ fields, f.Sound a.table) : ∀ f ∈ out, f.Sound a.table := by
  induction h with
  | nil name => exact hf
  | field _ _ ih =>
    obtain ⟨hfirst, hf⟩ := List.forall_mem_cons.mp hf
    exact List.forall_mem_cons.mpr ⟨hfirst, ih hf⟩
  | inclusion _ _ _ hp _ _ ihi ih =>
    intro f hm
    rcases List.mem_append.mp hm with hm | hm
    · exact ihi hp.sound f hm
    · exact ih (List.forall_mem_cons.mp hf).2 f hm

/-- The tokens that spell a list of fields flatten to tokens that spell its splice. -/
theorem Spliced.exists_flattened {fields out : List Field} (h : a.Spliced name fields out)
    {body : List Token} (hb : ∀ t ∈ body, t.Spelled)
    (hk : body.map Token.kept = fields.flatMap Field.tokens) :
    ∃ ts, a.Flattened name body ts ∧ (∀ t ∈ ts, t.Spelled) ∧
      ts.map Token.kept = out.flatMap Field.tokens := by
  induction h generalizing body with
  | nil name =>
    obtain rfl := List.map_eq_nil_iff.mp hk
    exact ⟨[], .nil name, hb, rfl⟩
  | field hf _ ih =>
    obtain ⟨front, body, rfl, hfront, hk⟩ := List.map_eq_append_iff.mp hk
    obtain ⟨hbf, hb⟩ := List.forall_mem_append.mp hb
    obtain ⟨ts, hts, hspell, hkept⟩ := ih hb hk
    have hinner : ∀ t ∈ front, t.kind ≠ .inclusion := by
      intro t ht hkind
      have := Field.isInner_tokens hf t.kept (hfront ▸ List.mem_map_of_mem ht)
      rw [Token.kind_kept, hkind] at this
      cases this
    refine ⟨front ++ ts, hts.append_left hinner, List.forall_mem_append.mpr ⟨hbf, hspell⟩, ?_⟩
    rw [List.map_append, hfront, hkept, List.flatMap_cons]
  | @inclusion name relative content position path tree p rest inner out hu ht hr hp _ _ ihi ih =>
    obtain ⟨t, body, rfl, hkt, hk⟩ := List.map_eq_cons_iff.mp hk
    obtain ⟨s, body, rfl, hks, hk⟩ := List.map_eq_cons_iff.mp hk
    have hkind : t.kind = .inclusion := ((Token.kept_eq_directive rfl).mp hkt).1
    have hs : s = path.token .string := by
      have hsk : s.kind = .string := by rw [← Token.kind_kept, hks, Lexeme.token]
      rw [← hks, Token.kept_eq_self (by rw [hsk]; rfl) (by rw [hsk]; rfl)]
    obtain ⟨-, hb⟩ := List.forall_mem_cons.mp hb
    obtain ⟨-, hb⟩ := List.forall_mem_cons.mp hb
    -- the included file ends a field where its tokens end
    obtain ⟨us, last, hscan, -, hus, -, hkept⟩ := hp.exists_tokens
    obtain ⟨inner, hinner, hspelli, hkepti⟩ := ihi hus hkept
    obtain ⟨outer, houter, hspello, hkepto⟩ := ih hb hk
    refine ⟨inner ++ outer, .inclusion hkind (by rw [hs]; rfl) (by rw [hs]; exact hu) ht hr hscan hinner
      houter, List.forall_mem_append.mpr ⟨hspelli, hspello⟩, ?_⟩
    rw [List.map_append, hkepti, hkepto, List.flatMap_append]

theorem program_sound {p : Program} (h : (a.program file text).outcome = .ok p) :
    ∀ f ∈ p.fields, f.Sound a.table ∧ f.isInclusion = false := by
  obtain ⟨q, out, hq, hout, rfl⟩ := program_eq_ok.mp h
  have hs := spliced_of_expand hout
  exact fun f hf => ⟨hs.sound hq.sound f hf, hs.isInclusion f hf⟩

/-- The flattened tokens of a file are read as the fields of its expanded program, positions
included, so that they give the same cells and the same image. -/
theorem ofTokens_flattened {p : Program} (h : (a.program file text).outcome = .ok p) :
    ∃ body last ts q, Scan.tokens file text = .ok (body ++ [last]) ∧ last.kind = .endOfFile ∧
      (∀ out, a.Flattened file body out ↔ out = ts) ∧
      Program.ofTokens a.table (ts ++ [last]) = .ok q ∧ q.fields = p.fields ∧
      q.encode a.table a.strict = p.encode a.table a.strict ∧
      ∀ r, (a.assemble file text).outcome = .ok r →
        q.encode a.table a.strict = .ok r.cells ∧ Image.link a.strict r.cells = .ok r.image := by
  have hsound := program_sound h
  obtain ⟨r, out, hr, hout, rfl⟩ := program_eq_ok.mp h
  obtain ⟨body, last, hscan, hlast, hb, -, hkept⟩ := hr.exists_tokens
  obtain ⟨ts, hts, hspell, hkept⟩ := (spliced_of_expand hout).exists_flattened hb hkept
  let q : Program := ⟨(TokenStream.ofList (ts ++ [last])).peek.position, out⟩
  have hq : Program.ofTokens a.table (ts ++ [last]) = .ok q :=
    (Program.ofTokens_append_eq_ok hspell hlast).mpr ⟨rfl, fun f hf => (hsound f hf).1.1, hkept⟩
  refine ⟨body, last, ts, q, hscan, hlast, fun out' => ⟨fun h => h.unique hts, fun h => h ▸ hts⟩, hq,
    rfl, rfl, fun s hs => ?_⟩
  obtain ⟨hp, hcells, himage, -⟩ := assemble_eq_ok.mp hs
  rw [← Except.ok.inj (h.symm.trans hp)] at hcells
  exact ⟨hcells, himage⟩

/-- A file with an inclusion before its own field. -/
theorem ofTokens_flattened_inclusion :
    let a : Assembler := { tree := some (.ofFiles [(lit "lib", lit ".data .byte 7")]) }
    let text := lit ".include \"lib\" .inst nop"
    ∃ p, (a.program (lit "main") text).outcome = .ok p ∧ p.fields.length = 2 ∧
      ∃ body last ts q, Scan.tokens (lit "main") text = .ok (body ++ [last]) ∧
        (∀ out, a.Flattened (lit "main") body out ↔ out = ts) ∧
        Program.ofTokens a.table (ts ++ [last]) = .ok q ∧ q.fields = p.fields := by
  intro a text
  let place (file : Text) (column offset size : Int) : Position :=
    { file, line := 1, column, offset, size }
  let start := place (lit "main") 1 0 8
  let path : Lexeme := ⟨place (lit "main") 10 9 5, lit "\"lib\""⟩
  let code : Field := .code (place (lit "main") 16 15 5)
    [.instruction (place (lit "main") 22 21 3) (lit "nop") .n]
  let seven : Lexeme := ⟨place (lit "lib") 13 12 1, lit "7"⟩
  let lib : Program :=
    ⟨place (lit "lib") 1 0 5, [.data (place (lit "lib") 1 0 5) [.data (place (lit "lib") 7 6 5) (.bytes [seven])]]⟩
  have hlib : a.Parses (lit "lib") (lit ".data .byte 7") lib := by
    refine parses_of_tokens [⟨.data, place (lit "lib") 1 0 5, lit ".data"⟩,
      ⟨.byte, place (lit "lib") 7 6 5, lit ".byte"⟩, seven.token .number,
      ⟨.endOfFile, place (lit "lib") 14 13 0, []⟩]
      (except_toOption_eq_some.mp (by decide +kernel)) rfl ?_ rfl
    intro f hf
    cases List.mem_singleton.mp hf
    exact .item (.data _ (List.cons_ne_nil _ _)) .nil
  have hmain : a.Parses (lit "main") text ⟨start, [.inclusion start path, code]⟩ := by
    refine parses_of_tokens [⟨.inclusion, start, lit ".include"⟩, path.token .string,
      ⟨.inst, place (lit "main") 16 15 5, lit ".inst"⟩, ⟨.mnemonic, place (lit "main") 22 21 3, lit "nop"⟩,
      ⟨.endOfFile, place (lit "main") 25 24 0, []⟩]
      (except_toOption_eq_some.mp (by decide +kernel)) rfl ?_ rfl
    intro f hf
    rcases List.mem_pair.mp hf with rfl | rfl
    · trivial
    · have hnop : a.table.find? (lit "nop") = some ⟨lit "nop", some .n, 0⟩ := by decide +kernel
      exact .item (.instruction _ (by decide +kernel) hnop) .nil
  have hexpand : (a.expand (lit "main") [Path.clean (lit "main")] [.inclusion start path, code]).outcome =
      .ok (lib.fields ++ [code]) := by
    have htarget : target (lit "main") (lit "lib") = lit "lib" := by decide +kernel
    have hnew : target (lit "main") (lit "lib") ∉ [Path.clean (lit "main")] := by decide +kernel
    have hread : (SourceTree.ofFiles [(lit "lib", lit ".data .byte 7")]).read
        (target (lit "main") (lit "lib")) = .ok (lit ".data .byte 7") :=
      except_toOption_eq_some.mp (by decide +kernel)
    refine expand_inclusion (by decide +kernel) hnew rfl hread (p := lib) ?_ ?_ ?_
    · rw [htarget]
      exact hlib
    · exact expand_eq_self (by simp [lib, Field.isInclusion])
    · exact expand_eq_self (by simp [code, Field.isInclusion])
  have h := program_eq_ok.mpr ⟨_, _, hmain, hexpand, rfl⟩
  obtain ⟨body, last, ts, q, hscan, -, hflat, hq, hfields, -⟩ := ofTokens_flattened h
  exact ⟨_, h, rfl, body, last, ts, q, hscan, hflat, hq, hfields⟩

end Assembler
end AccAsm
