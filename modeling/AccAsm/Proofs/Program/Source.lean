import AccAsm.Assembly
import AccAsm.Proofs.Program.Reading
import AccAsm.Proofs.Token.Spelling

/-! # The program of a single file

`Assembler.Parses a file text p`: the text scans, and its tokens form the program `p`. Such a program
has sound fields (`Parses.sound`): their trees are those the grammar allows, and the lexemes in them
are spelled as the scanner spells them. -/

namespace AccAsm

/-! ### Spelled tokens -/

namespace Token

theorem Spelled.folded {t : Token} (h : t.Spelled) : t.Folded := by
  intro hk
  have hs : t.kind.Spells t.value := h
  rw [hk] at hs
  exact LowerCase.lower_eq_self hs.2

theorem folded_of_endOfFile {t : Token} (h : t.kind = .endOfFile) : t.Folded := by
  intro hk
  rw [h] at hk
  cases hk

/-- A token that is kept whole is spelled. -/
def Legible (t : Token) : Prop := t.kind.isMark = false → t.kind.isDirective = false → t.Spelled

theorem Spelled.legible_kept {t : Token} (h : t.Spelled) : t.kept.Legible := by
  intro hm hd
  rw [kind_kept] at hm hd
  rwa [kept_eq_self hm hd]

end Token

/-- A tree that the grammar allows, of lexemes as the scanner spells them. -/
def Field.Sound (table : InstructionTable) (f : Field) : Prop :=
  f.Formed table ∧ ∀ t ∈ f.tokens, t.Legible

/-- A label declaration, data or an instruction that the grammar allows. -/
def Item.Formed (table : InstructionTable) (i : Item) : Prop :=
  (∃ name, i = .label name) ∨ i.IsData ∨ i.IsCode table

def Item.Sound (table : InstructionTable) (i : Item) : Prop :=
  i.Formed table ∧ ∀ t ∈ i.tokens, t.Legible

theorem Field.Sound.items {table : InstructionTable} {f : Field} (h : f.Sound table) :
    ∀ i ∈ f.items, i.Sound table := by
  obtain ⟨hform, htok⟩ := h
  intro i hi
  cases f with
  | data position items =>
    refine ⟨hform.forall_mem (fun name => .inl ⟨name, rfl⟩) (fun _ h => .inr (.inl h)) i hi, ?_⟩
    exact fun t ht => htok t (.tail _ (List.mem_flatMap.mpr ⟨i, hi, ht⟩))
  | code position items =>
    refine ⟨hform.forall_mem (fun name => .inl ⟨name, rfl⟩) (fun _ h => .inr (.inr h)) i hi, ?_⟩
    exact fun t ht => htok t (.tail _ (List.mem_flatMap.mpr ⟨i, hi, ht⟩))
  | inclusion position path => cases hi

theorem Token.beforeEnd_append {body : List Token} {last : Token}
    (hb : ∀ t ∈ body, t.kind ≠ .endOfFile) (hl : last.kind = .endOfFile) :
    beforeEnd (body ++ [last]) = body := by
  rw [beforeEnd, List.takeWhile_append_of_pos (fun t ht => decide_eq_true (hb t ht)),
    List.takeWhile_cons_of_neg (by simp [hl]), List.append_nil]

theorem Token.Spelled.kind_ne {t : Token} (h : t.Spelled) : t.kind ≠ .endOfFile := by
  intro hk
  have hs : t.kind.Spells t.value := h
  rw [hk] at hs
  exact hs

/-- Spelled tokens and an end form a program exactly if they spell fields of the grammar. -/
theorem Program.ofTokens_append_eq_ok {table : InstructionTable} {p : Program} {body : List Token}
    {last : Token} (hb : ∀ t ∈ body, t.Spelled) (hl : last.kind = .endOfFile) :
    ofTokens table (body ++ [last]) = .ok p ↔
      p.position = (TokenStream.ofList (body ++ [last])).peek.position ∧
        (∀ f ∈ p.fields, f.Formed table) ∧ body.map Token.kept = p.tokens := by
  have hf : ∀ t ∈ body ++ [last], t.Folded := by
    intro t ht
    rcases List.mem_append.mp ht with ht | ht
    · exact (hb t ht).folded
    · exact Token.folded_of_endOfFile (List.mem_singleton.mp ht ▸ hl)
  rw [ofTokens_eq_ok hf, Token.beforeEnd_append (fun t ht => (hb t ht).kind_ne) hl]

namespace Assembler
variable {a : Assembler} {file text : Text} {p q : Program}

/-- The text scans, and its tokens form the program `p`. -/
def Parses (a : Assembler) (file text : Text) (p : Program) : Prop :=
  ∃ ts, Scan.tokens file text = .ok ts ∧ Program.ofTokens a.table ts = .ok p

theorem Parses.unique (hp : a.Parses file text p) (hq : a.Parses file text q) : p = q := by
  obtain ⟨ts, hs, hp⟩ := hp
  obtain ⟨us, hu, hq⟩ := hq
  obtain rfl : ts = us := Except.ok.inj (hs.symm.trans hu)
  exact Except.ok.inj (hp.symm.trans hq)

/-- The tokens of a file spell its program. -/
theorem Parses.exists_tokens (h : a.Parses file text p) :
    ∃ body last, Scan.tokens file text = .ok (body ++ [last]) ∧ last.kind = .endOfFile ∧
      (∀ t ∈ body, t.Spelled) ∧ (∀ f ∈ p.fields, f.Formed a.table) ∧
        body.map Token.kept = p.tokens := by
  obtain ⟨ts, hs, hp⟩ := h
  obtain ⟨body, last, rfl, hl, hb⟩ := Scan.tokens_spelled hs
  obtain ⟨-, hform, htok⟩ := (Program.ofTokens_append_eq_ok hb hl).mp hp
  exact ⟨body, last, hs, hl, hb, hform, htok⟩

/-- Tokens that spell a program make it the program of their file. -/
theorem parses_of_tokens (ts : List Token) (hs : Scan.tokens file text = .ok ts)
    (hpos : p.position = (TokenStream.ofList ts).peek.position)
    (hform : ∀ f ∈ p.fields, f.Formed a.table) (htok : ts.dropLast.map Token.kept = p.tokens) :
    a.Parses file text p := by
  obtain ⟨body, last, rfl, hl, hb⟩ := Scan.tokens_spelled hs
  rw [List.dropLast_concat] at htok
  exact ⟨_, hs, (Program.ofTokens_append_eq_ok hb hl).mpr ⟨hpos, hform, htok⟩⟩

theorem Parses.sound (h : a.Parses file text p) : ∀ f ∈ p.fields, f.Sound a.table := by
  obtain ⟨body, last, -, -, hb, hform, htok⟩ := h.exists_tokens
  intro f hf
  refine ⟨hform f hf, fun t ht => ?_⟩
  have hmem : t ∈ body.map Token.kept := htok ▸ List.mem_flatMap.mpr ⟨f, hf, ht⟩
  obtain ⟨u, hu, rfl⟩ := List.mem_map.mp hmem
  exact (hb u hu).legible_kept

theorem Parses.exists_unquote (h : a.Parses file text p) {position : Position} {path : Lexeme}
    (hf : .inclusion position path ∈ p.fields) : ∃ name, Quoted.unquote? path.text = some name := by
  have hs : (path.token .string).Spelled :=
    (h.sound _ hf).2 _ (by simp [Field.tokens]) rfl rfl
  exact Option.isSome_iff_exists.mp hs.2

/-- What reading a file gives: its program, or the error of the stage that fails. -/
theorem source_outcome (a : Assembler) (file text : Text) :
    (∃ p, (a.source file text).outcome = .ok p ∧ a.Parses file text p) ∨
    (∃ e, (a.source file text).outcome = .error (.error (.scan e)) ∧
      Scan.tokens file text = .error e) ∨
    (∃ ts e, (a.source file text).outcome = .error (.error (.grammar e)) ∧
      Scan.tokens file text = .ok ts ∧ Program.ofTokens a.table ts = .error e) := by
  unfold source
  cases hs : Scan.tokens file text with
  | error e =>
    exact .inr (.inl ⟨e, Logged.outcome_bind_of_error rfl, rfl⟩)
  | ok ts =>
    rw [Logged.outcome_bind_of_ok (a := ts) rfl]
    cases hp : Program.ofTokens a.table ts with
    | error e => exact .inr (.inr ⟨ts, e, Logged.outcome_bind_of_error rfl, rfl, hp⟩)
    | ok p =>
      rw [Logged.outcome_bind_of_ok (a := p) rfl]
      exact .inl ⟨p, rfl, ts, hs, hp⟩

theorem source_eq_ok : (a.source file text).outcome = .ok p ↔ a.Parses file text p := by
  rcases source_outcome a file text with ⟨q, hq, hpq⟩ | ⟨e, he, hs⟩ | ⟨ts, e, he, hs, hp⟩
  · rw [hq]
    constructor
    · intro h
      cases h
      exact hpq
    · intro h
      rw [h.unique hpq]
  · rw [he]
    constructor
    · intro h
      cases h
    · rintro ⟨ts, hts, -⟩
      rw [hs] at hts
      cases hts
  · rw [he]
    constructor
    · intro h
      cases h
    · rintro ⟨us, hus, hq⟩
      cases hs.symm.trans hus
      rw [hp] at hq
      cases hq

end Assembler
end AccAsm
