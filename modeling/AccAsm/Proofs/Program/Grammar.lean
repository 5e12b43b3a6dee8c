import AccAsm.Program.Reading
import Mathlib.Data.List.Basic

/-! # Programs as lists of tokens

`Program.tokens` writes a program down again as tokens, up to what a program does not keep of them
(`Token.kept`): the places of marks and the spelling of directives. `Field.Formed` says which trees
the grammar allows. -/

namespace AccAsm
open Text (lit)

/-! ### Writing -/

/-- Punctuation, of which a program keeps nothing. -/
def Kind.isMark : Kind → Bool
  | comma | colon | leftParen | rightParen => true
  | _ => false

namespace Token

/-- What a program keeps of a token: only the kind of a mark, and not the spelling of a directive. -/
def kept (t : Token) : Token :=
  if t.kind.isMark then { kind := t.kind }
  else if t.kind.isDirective then { t with value := [] } else t

/-- A mark without its place. -/
def mark (kind : Kind) : Token := { kind }

/-- A mnemonic in lower case. -/
def Folded (t : Token) : Prop := t.kind = .mnemonic → LowerCase.lower t.value = t.value

@[simp] theorem kind_kept (t : Token) : t.kept.kind = t.kind := by
  unfold kept
  split
  · rfl
  · split <;> rfl

theorem kept_eq_self {t : Token} (hm : t.kind.isMark = false) (hd : t.kind.isDirective = false) :
    t.kept = t := by
  simp [kept, hm, hd]

theorem position_kept {t : Token} (h : t.kind.isMark = false) : t.kept.position = t.position := by
  rw [kept, if_neg (by simp [h])]
  split <;> rfl

theorem kept_eq_mark {t : Token} {k : Kind} (hk : k.isMark = true) : t.kept = mark k ↔ t.kind = k := by
  constructor
  · intro h
    rw [← kind_kept, h, mark]
  · rintro rfl
    simp [kept, hk, mark]

theorem kept_eq_directive {t : Token} {k : Kind} {p : Position} (hk : k.isDirective = true) :
    t.kept = ⟨k, p, []⟩ ↔ t.kind = k ∧ t.position = p := by
  have hm : k.isMark = false := by cases k <;> first | rfl | cases hk
  constructor
  · intro h
    have hkind : t.kind = k := by rw [← kind_kept, h]
    simp only [kept, hkind, hm, hk, Bool.false_eq_true, if_false, if_true, Token.mk.injEq] at h
    exact ⟨hkind, h.2.1⟩
  · rintro ⟨rfl, rfl⟩
    simp [kept, hm, hk]

end Token

def Lexeme.token (l : Lexeme) (kind : Kind) : Token := ⟨kind, l.position, l.text⟩

/-- Two registers with a comma between them. -/
def Lexeme.pair (a b : Lexeme) : List Token := [a.token .register, .mark .comma, b.token .register]

/-- An accumulator and a register with a comma between them. -/
def Lexeme.mixed (a b : Lexeme) : List Token := [a.token .accumulator, .mark .comma, b.token .register]

def Operands.tokens : Operands → List Token
  | n => []
  | r ac rf₁ rf₂ => ac.token .accumulator :: .mark .comma :: Lexeme.pair rf₁ rf₂
  | i ac imm => [ac.token .accumulator, .mark .comma, imm.token .number]
  | s ac rf imm => Lexeme.mixed ac rf ++ [.mark .comma, imm.token .number]
  | j imm => [imm.token .number]
  | e1 ac rf => Lexeme.mixed ac rf
  | e2 rf => [rf.token .register]
  | e3 ac => [ac.token .accumulator]
  | e4 rf => [rf.token .register]

/-- Numbers after the first, each with the comma before it. -/
def Lexeme.moreNumbers (ns : List Lexeme) : List Token :=
  ns.flatMap fun n => [.mark .comma, n.token .number]

/-- Numbers with commas between them. -/
def Lexeme.numbers : List Lexeme → List Token
  | [] => []
  | n :: ns => n.token .number :: moreNumbers ns

def Data.kind : Data → Kind
  | space _ => .space
  | words _ => .word
  | bytes _ => .byte
  | ascii _ => .ascii

/-- The operands of some data. -/
def Data.tokens : Data → List Token
  | space count => [count.token .number]
  | words values | bytes values => Lexeme.numbers values
  | ascii text => [text.token .string]

def Pseudo.name : Pseudo → Text
  | jump _ => lit "jump"
  | mul .. => lit "mul"
  | div .. => lit "div"
  | swap .. => lit "swap"
  | load .. => lit "lw"
  | store .. => lit "sw"

/-- The operands of a memory access. -/
def Lexeme.memory (ac label offset : Lexeme) : List Token :=
  [ac.token .accumulator, .mark .comma, label.token .label, .mark .leftParen, offset.token .number,
    .mark .rightParen]

def JumpTarget.tokens : JumpTarget → List Token
  | number n => [n.token .number]
  | label name => [name.token .label]
  | other _ => []

/-- The operands of a pseudo-instruction. -/
def Pseudo.tokens : Pseudo → List Token
  | jump target => target.tokens
  | mul a b | div a b | swap a b => Lexeme.pair a b
  | load ac label offset | store ac label offset => Lexeme.memory ac label offset

def Item.tokens : Item → List Token
  | label name => [name.token .label, .mark .colon]
  | data position d => ⟨d.kind, position, []⟩ :: d.tokens
  | instruction position mnemonic operands => ⟨.mnemonic, position, mnemonic⟩ :: operands.tokens
  | pseudo position p => ⟨.mnemonic, position, p.name⟩ :: p.tokens

def Field.items : Field → List Item
  | data _ items | code _ items => items
  | inclusion .. => []

def Field.isInclusion : Field → Bool
  | inclusion .. => true
  | _ => false

def Field.tokens : Field → List Token
  | data position items => ⟨.data, position, []⟩ :: items.flatMap Item.tokens
  | code position items => ⟨.inst, position, []⟩ :: items.flatMap Item.tokens
  | inclusion position path => [⟨.inclusion, position, []⟩, path.token .string]

/-- The tokens that spell a program, without an end-of-file token. -/
def Program.tokens (p : Program) : List Token := p.fields.flatMap Field.tokens

/-! ### Trees the grammar allows -/

/-- Lists of numbers are not empty. -/
def Data.Formed : Data → Prop
  | words values | bytes values => values ≠ []
  | _ => True

/-- A number or a label. -/
def JumpTarget.Formed : JumpTarget → Prop
  | other _ => False
  | _ => True

def Pseudo.Formed : Pseudo → Prop
  | jump target => target.Formed
  | _ => True

/-- Data that the grammar allows. -/
inductive Item.IsData : Item → Prop
  | data (position : Position) {d : Data} (h : d.Formed) : IsData (.data position d)

/-- An instruction that the grammar allows. -/
inductive Item.IsCode (table : InstructionTable) : Item → Prop
  | instruction (position : Position) {mnemonic : Text} {operands : Operands} {opcode : UInt8}
      (hp : Reading.pseudo? mnemonic = none)
      (ht : table.find? mnemonic = some ⟨mnemonic, some operands.format, opcode⟩) :
      IsCode table (.instruction position mnemonic operands)
  | pseudo (position : Position) {p : Pseudo} (h : p.Formed) : IsCode table (.pseudo position p)

/-- Items of one sort, each with at most one label before it. -/
inductive Item.Listed (P : Item → Prop) : List Item → Prop
  | nil : Listed P []
  | item {i : Item} {rest : List Item} (hi : P i) (hr : Listed P rest) : Listed P (i :: rest)
  | labelled (name : Lexeme) {i : Item} {rest : List Item} (hi : P i) (hr : Listed P rest) :
      Listed P (.label name :: i :: rest)

theorem Item.Listed.forall_mem {P Q : Item → Prop} {items : List Item} (h : Listed P items)
    (hl : ∀ name, Q (.label name)) (hp : ∀ i, P i → Q i) : ∀ i ∈ items, Q i := by
  induction h with
  | nil => simp
  | item hi _ ih => exact List.forall_mem_cons.mpr ⟨hp _ hi, ih⟩
  | labelled name hi _ ih =>
    exact List.forall_mem_cons.mpr ⟨hl name, List.forall_mem_cons.mpr ⟨hp _ hi, ih⟩⟩

def Field.Formed (table : InstructionTable) : Field → Prop
  | data _ items => Item.Listed Item.IsData items
  | code _ items => Item.Listed (Item.IsCode table) items
  | inclusion .. => True

/-! ### Kinds -/

/-- The kinds of tokens that may stand behind a field. -/
def Reading.fieldStarts : List Kind := [.data, .inst, .inclusion, .endOfFile]

/-- Neither an inclusion nor the end of the file. -/
def Kind.isInner : Kind → Bool
  | inclusion | endOfFile => false
  | _ => true

theorem Operands.isInner_tokens (o : Operands) : ∀ t ∈ o.tokens, t.kind.isInner := by
  cases o <;> simp [tokens, Lexeme.pair, Lexeme.mixed, Lexeme.token, Token.mark, Kind.isInner]

theorem Data.isInner_tokens (d : Data) : ∀ t ∈ d.tokens, t.kind.isInner := by
  have hm (ns : List Lexeme) : ∀ t ∈ Lexeme.numbers ns, t.kind.isInner := by
    cases ns <;> simp +contextual [Lexeme.numbers, Lexeme.moreNumbers, Lexeme.token, Token.mark,
      Kind.isInner, or_imp]
  cases d with
  | words ns | bytes ns => exact hm ns
  | space n | ascii text => simp [tokens, Lexeme.token, Kind.isInner]

theorem Pseudo.isInner_tokens (p : Pseudo) : ∀ t ∈ p.tokens, t.kind.isInner := by
  cases p with
  | jump target => cases target <;> simp [tokens, JumpTarget.tokens, Lexeme.token, Kind.isInner]
  | _ => simp [tokens, Lexeme.pair, Lexeme.memory, Lexeme.token, Token.mark, Kind.isInner]

theorem Item.isInner_tokens (i : Item) : ∀ t ∈ i.tokens, t.kind.isInner := by
  cases i with
  | label name => simp [tokens, Lexeme.token, Token.mark, Kind.isInner]
  | data position d => exact List.forall_mem_cons.mpr ⟨by cases d <;> rfl, d.isInner_tokens⟩
  | instruction position mnemonic operands =>
    exact List.forall_mem_cons.mpr ⟨rfl, operands.isInner_tokens⟩
  | pseudo position p => exact List.forall_mem_cons.mpr ⟨rfl, p.isInner_tokens⟩

theorem Field.isInner_tokens {f : Field} (hf : f.isInclusion = false) :
    ∀ t ∈ f.tokens, t.kind.isInner := by
  have hitems (items : List Item) : ∀ t ∈ items.flatMap Item.tokens, t.kind.isInner := by
    intro t ht
    obtain ⟨i, -, ht⟩ := List.mem_flatMap.mp ht
    exact i.isInner_tokens t ht
  cases f with
  | data position items | code position items => exact List.forall_mem_cons.mpr ⟨rfl, hitems items⟩
  | inclusion position path => cases hf

theorem Field.kind_tokens (f : Field) : ∀ t ∈ f.tokens, t.kind ≠ .endOfFile := by
  cases hf : f.isInclusion with
  | false =>
    intro t ht hk
    have := isInner_tokens hf t ht
    rw [hk] at this
    cases this
  | true =>
    cases f with
    | inclusion position path => simp [tokens, Lexeme.token]
    | data position items | code position items => cases hf

theorem Program.kind_tokens (p : Program) : ∀ t ∈ p.tokens, t.kind ≠ .endOfFile := by
  intro t ht
  obtain ⟨f, -, ht⟩ := List.mem_flatMap.mp ht
  exact f.kind_tokens t ht

/-- The tokens before the first end-of-file token. -/
def Token.beforeEnd (ts : List Token) : List Token := ts.takeWhile (·.kind ≠ .endOfFile)

end AccAsm
