import AccAsm.Proofs.Program.Grammar
import Mathlib.Data.List.TakeWhile
import Mathlib.Tactic.Simproc.ExistsAndEq

/-! # What the readers accept

`TokenStream.Spans s ts s'`: the tokens between the streams `s` and `s'` are `ts`, up to what a
program does not keep of them. Each reader of the grammar is described by an equivalence: it leads
from `s` to `s'` with the result `x` exactly if the tokens of `x` stand between `s` and `s'`. Where
what follows could go on with `x`, as a comma with a list of numbers, the two directions are stated
apart, and the second one rules that out. For a whole list of tokens this gives `ofTokens_eq_ok`: a
program is read from exactly the lists that spell it. -/

namespace AccAsm
open Text (lit)

/-! ### Streams -/

namespace TokenStream
variable {s s' s'' : TokenStream} {t : Token} {ts us : List Token}

/-- The tokens between `s` and `s'` are `ts`, up to what is kept of them. -/
def Spans (s : TokenStream) (ts : List Token) (s' : TokenStream) : Prop :=
  ∃ us, s = ⟨us ++ s'.rest, s'.ending⟩ ∧ us.map Token.kept = ts

@[simp] theorem spans_nil : s.Spans [] s' ↔ s = s' := by
  constructor
  · rintro ⟨us, rfl, hu⟩
    rw [List.map_eq_nil_iff.mp hu, List.nil_append]
  · rintro rfl
    exact ⟨[], rfl, rfl⟩

theorem Spans.trans (h : s.Spans ts s') (h' : s'.Spans us s'') : s.Spans (ts ++ us) s'' := by
  obtain ⟨vs, rfl, rfl⟩ := h
  obtain ⟨ws, rfl, rfl⟩ := h'
  exact ⟨vs ++ ws, by rw [List.append_assoc], List.map_append⟩

@[simp] theorem spans_append : s.Spans (ts ++ us) s'' ↔ ∃ s', s.Spans ts s' ∧ s'.Spans us s'' := by
  constructor
  · rintro ⟨ws, rfl, hw⟩
    obtain ⟨vs, vs', rfl, hv, hv'⟩ := List.map_eq_append_iff.mp hw
    exact ⟨⟨vs' ++ s''.rest, s''.ending⟩, ⟨vs, by rw [List.append_assoc], hv⟩, ⟨vs', rfl, hv'⟩⟩
  · rintro ⟨s', h, h'⟩
    exact h.trans h'

theorem spans_cons : s.Spans (t :: ts) s'' ↔ ∃ s', s.Spans [t] s' ∧ s'.Spans ts s'' := by
  rw [← List.singleton_append, spans_append]

@[simp] theorem spans_cons_cons {u : Token} :
    s.Spans (t :: u :: ts) s'' ↔ ∃ s', s.Spans [t] s' ∧ s'.Spans (u :: ts) s'' :=
  spans_cons

/-- The first token between two streams is the next one of the first. -/
theorem spans_singleton (ht : t.kind ≠ .endOfFile) :
    s.Spans [t] s' ↔ s.peek.kept = t ∧ s.drop = s' := by
  constructor
  · rintro ⟨us, rfl, hu⟩
    obtain ⟨u, rfl, rfl⟩ := List.map_eq_singleton_iff.mp hu
    exact ⟨rfl, rfl⟩
  · rintro ⟨rfl, rfl⟩
    rw [Token.kind_kept] at ht
    obtain ⟨rest, ending⟩ := s
    cases rest with
    | nil => exact absurd rfl ht
    | cons u us => exact ⟨[u], rfl, rfl⟩

theorem spans_mark {k : Kind} (hk : k.isMark = true) :
    s.Spans [.mark k] s' ↔ s.peek.kind = k ∧ s.drop = s' := by
  rw [spans_singleton (by rintro rfl; cases hk), Token.kept_eq_mark hk]

theorem spans_directive {k : Kind} (hk : k.isDirective = true) {p : Position} :
    s.Spans [⟨k, p, []⟩] s' ↔ (s.peek.kind = k ∧ s.peek.position = p) ∧ s.drop = s' := by
  rw [spans_singleton (by rintro rfl; cases hk), Token.kept_eq_directive hk]

theorem Spans.peek_kept (h : s.Spans (t :: ts) s') : s.peek.kept = t := by
  obtain ⟨us, rfl, hu⟩ := h
  obtain ⟨u, vs, rfl, rfl, -⟩ := List.map_eq_cons_iff.mp hu
  rfl

theorem Spans.peek_kind (h : s.Spans (t :: ts) s') : s.peek.kind = t.kind := by
  rw [← Token.kind_kept, h.peek_kept]

/-- All mnemonics to come are in lower case. -/
def Folded (s : TokenStream) : Prop := ∀ t ∈ s.rest, t.Folded

theorem Folded.peek (h : s.Folded) : s.peek.Folded := by
  obtain ⟨rest, ending⟩ := s
  cases rest with
  | nil => intro hk; cases hk
  | cons t ts => exact h t (by simp)

theorem Folded.of_spans (h : s.Folded) (hs : s.Spans ts s') : s'.Folded := by
  obtain ⟨us, rfl, -⟩ := hs
  exact fun t ht => h t (List.mem_append_right us ht)

end TokenStream

namespace Reading
open TokenStream
variable {α β : Type} {s s' s'' : TokenStream}

@[simp] theorem bind_eq_ok {x : Reading α} {f : α → Reading β} {b : β} :
    (x >>= f) s = .ok b s'' ↔ ∃ a s', x s = .ok a s' ∧ f a s' = .ok b s'' := by
  refine ⟨ok_of_bind, ?_⟩
  rintro ⟨a, s', h, h'⟩
  show EStateM.bind x f s = _
  rw [EStateM.bind, h]
  exact h'

@[simp] theorem pure_eq_ok {a b : α} : (pure a : Reading α) s = .ok b s' ↔ a = b ∧ s = s' := by
  constructor
  · intro h
    cases h
    exact ⟨rfl, rfl⟩
  · rintro ⟨rfl, rfl⟩
    rfl

@[simp] theorem map_eq_ok {x : Reading α} {f : α → β} {b : β} :
    (f <$> x) s = .ok b s' ↔ ∃ a, x s = .ok a s' ∧ f a = b := by
  rw [← bind_pure_comp]
  simp only [bind_eq_ok, pure_eq_ok, existsAndEq, and_true]

@[simp] theorem peek_eq_ok {t : Token} : peek s = .ok t s' ↔ s.peek = t ∧ s = s' := by
  constructor
  · intro h
    cases h
    exact ⟨rfl, rfl⟩
  · rintro ⟨rfl, rfl⟩
    rfl

@[simp] theorem next_eq_ok {t : Token} : next s = .ok t s' ↔ s.peek = t ∧ s.drop = s' := by
  constructor
  · intro h
    cases h
    exact ⟨rfl, rfl⟩
  · rintro ⟨rfl, rfl⟩
    rfl

@[simp] theorem ahead_eq_ok {kinds : List Kind} {t : Token} :
    ahead kinds s = .ok t s' ↔ s.peek.kind ∈ kinds ∧ s.peek = t ∧ s = s' := by
  simp only [ahead, bind_eq_ok, peek_eq_ok]
  constructor
  · rintro ⟨u, s₁, ⟨rfl, rfl⟩, h⟩
    split at h
    next hk => exact ⟨hk, pure_eq_ok.mp h⟩
    next => cases h
  · rintro ⟨hk, rfl, rfl⟩
    exact ⟨_, _, ⟨rfl, rfl⟩, by rw [if_pos hk]; rfl⟩

@[simp] theorem expect_eq_ok {kinds : List Kind} {t : Token} :
    expect kinds s = .ok t s' ↔ s.peek.kind ∈ kinds ∧ s.peek = t ∧ s.drop = s' := by
  simp only [expect, bind_eq_ok, ahead_eq_ok, next_eq_ok]
  constructor
  · rintro ⟨_, _, ⟨hk, rfl, rfl⟩, h⟩
    exact ⟨hk, h⟩
  · rintro ⟨hk, h⟩
    exact ⟨_, _, ⟨hk, rfl, rfl⟩, h⟩

/-! ### Operands -/

/-- The kinds of tokens that stand in a program as they are spelled. -/
def operandKinds : List Kind := [.accumulator, .register, .label, .number, .string]

theorem spans_token {kind : Kind} (hk : kind ∈ operandKinds) {l : Lexeme} :
    s.Spans [l.token kind] s' ↔ s.peek = l.token kind ∧ s.drop = s' := by
  have hm : kind.isMark = false ∧ kind.isDirective = false ∧ kind ≠ .endOfFile := by
    revert hk
    revert kind
    decide
  have kept_iff : s.peek.kept = l.token kind ↔ s.peek = l.token kind := by
    constructor
    · intro h
      have hkind : s.peek.kind = kind := by rw [← Token.kind_kept, h]; rfl
      rwa [Token.kept_eq_self (hkind ▸ hm.1) (hkind ▸ hm.2.1)] at h
    · intro h
      rw [h]
      exact Token.kept_eq_self hm.1 hm.2.1
  rw [spans_singleton hm.2.2, kept_iff]

theorem lexeme_eq_ok {kind : Kind} (hk : kind ∈ operandKinds) {l : Lexeme} :
    lexeme kind s = .ok l s' ↔ s.Spans [l.token kind] s' := by
  rw [spans_token hk]
  simp only [lexeme, bind_eq_ok, expect_eq_ok, pure_eq_ok, List.mem_singleton, existsAndEq, and_true]
  constructor
  · rintro ⟨rfl, rfl, hd⟩
    exact ⟨rfl, hd⟩
  · rintro ⟨ht, hd⟩
    rw [ht]
    exact ⟨rfl, rfl, hd⟩

theorem expect_mark {k : Kind} (hk : k.isMark = true) :
    (∃ t, expect [k] s = .ok t s') ↔ s.Spans [.mark k] s' := by
  rw [spans_mark hk]
  simp only [expect_eq_ok, List.mem_singleton]
  constructor
  · rintro ⟨_, h, rfl, h'⟩
    exact ⟨h, h'⟩
  · rintro ⟨h, h'⟩
    exact ⟨_, h, rfl, h'⟩

theorem exists_expect_mark {k : Kind} (hk : k.isMark = true) {p : TokenStream → Prop} :
    (∃ t s', expect [k] s = .ok t s' ∧ p s') ↔ ∃ s', s.Spans [.mark k] s' ∧ p s' := by
  simp only [← expect_mark hk]
  constructor
  · rintro ⟨t, s', h, h'⟩
    exact ⟨s', ⟨t, h⟩, h'⟩
  · rintro ⟨s', ⟨t, h⟩, h'⟩
    exact ⟨t, s', h, h'⟩

@[simp] theorem comma_eq_ok {u : Unit} : comma s = .ok u s' ↔ s.Spans [.mark .comma] s' := by
  simp only [comma, bind_eq_ok, pure_eq_ok]
  rw [exists_expect_mark rfl]
  simp

@[simp] theorem number_eq_ok {l : Lexeme} : number s = .ok l s' ↔ s.Spans [l.token .number] s' :=
  lexeme_eq_ok (by decide)

@[simp] theorem string_eq_ok {l : Lexeme} : string s = .ok l s' ↔ s.Spans [l.token .string] s' :=
  lexeme_eq_ok (by decide)

@[simp] theorem label_eq_ok {l : Lexeme} : label s = .ok l s' ↔ s.Spans [l.token .label] s' :=
  lexeme_eq_ok (by decide)

@[simp] theorem accumulator_eq_ok {l : Lexeme} : accumulator s = .ok l s' ↔ s.Spans [l.token .accumulator] s' :=
  lexeme_eq_ok (by decide)

@[simp] theorem register_eq_ok {l : Lexeme} : register s = .ok l s' ↔ s.Spans [l.token .register] s' :=
  lexeme_eq_ok (by decide)

@[simp] theorem registerPair_eq_ok {p : Lexeme × Lexeme} :
    registerPair s = .ok p s' ↔ s.Spans (Lexeme.pair p.1 p.2) s' := by
  obtain ⟨a, b⟩ := p
  simp [registerPair, Lexeme.pair]

@[simp] theorem mixedPair_eq_ok {p : Lexeme × Lexeme} :
    mixedPair s = .ok p s' ↔ s.Spans (Lexeme.mixed p.1 p.2) s' := by
  obtain ⟨a, b⟩ := p
  simp [mixedPair, Lexeme.mixed]

@[simp] theorem operands_eq_ok {format : Format} {o : Operands} :
    operands format s = .ok o s' ↔ o.format = format ∧ s.Spans o.tokens s' := by
  constructor
  · intro h
    cases format <;> simp [operands] at h
    case n =>
      obtain ⟨rfl, rfl⟩ := h
      exact ⟨rfl, spans_nil.mpr rfl⟩
    case r =>
      obtain ⟨ac, s₁, h₁, s₂, h₂, rf₁, rf₂, h₃, rfl⟩ := h
      exact ⟨rfl, h₁.trans (h₂.trans h₃)⟩
    case i =>
      obtain ⟨ac, s₁, h₁, s₂, h₂, imm, h₃, rfl⟩ := h
      exact ⟨rfl, h₁.trans (h₂.trans h₃)⟩
    case s =>
      obtain ⟨ac, rf, s₁, h₁, s₂, h₂, imm, h₃, rfl⟩ := h
      exact ⟨rfl, h₁.trans (h₂.trans h₃)⟩
    case e1 =>
      obtain ⟨ac, rf, h₁, rfl⟩ := h
      exact ⟨rfl, h₁⟩
    all_goals
      obtain ⟨l, h₁, rfl⟩ := h
      exact ⟨rfl, h₁⟩
  · rintro ⟨rfl, h⟩
    cases o <;> simpa [operands, Operands.tokens, Operands.format, Lexeme.pair] using h

@[simp] theorem memoryOperands_eq_ok {p : Lexeme × Lexeme × Lexeme} :
    memoryOperands s = .ok p s' ↔ s.Spans (Lexeme.memory p.1 p.2.1 p.2.2) s' := by
  obtain ⟨ac, name, offset⟩ := p
  simp [memoryOperands, Lexeme.memory, -expect_eq_ok, exists_expect_mark (k := .leftParen) rfl,
    expect_mark (k := .rightParen) rfl]

@[simp] theorem jumpTarget_eq_ok {t : JumpTarget} :
    jumpTarget s = .ok t s' ↔ t.Formed ∧ s.Spans t.tokens s' := by
  simp only [jumpTarget, bind_eq_ok, expect_eq_ok, pure_eq_ok, existsAndEq, and_true, List.mem_cons,
    List.not_mem_nil, or_false]
  constructor
  · rintro ⟨hk, rfl, hd⟩
    split
    next hl =>
      refine ⟨trivial, (spans_token (by decide)).mpr ⟨?_, hd⟩⟩
      rw [← hl]
      rfl
    next hl =>
      refine ⟨trivial, (spans_token (by decide)).mpr ⟨?_, hd⟩⟩
      rw [← hk.resolve_right hl]
      rfl
  · rintro ⟨hf, h⟩
    cases t with
    | number n =>
      obtain ⟨ht, hd⟩ := (spans_token (by decide)).mp h
      rw [ht]
      exact ⟨.inl rfl, rfl, hd⟩
    | label name =>
      obtain ⟨ht, hd⟩ := (spans_token (by decide)).mp h
      rw [ht]
      exact ⟨.inr rfl, rfl, hd⟩
    | other part => exact hf.elim

theorem pseudo?_name (p : Pseudo) :
    ∃ x, pseudo? p.name = some x ∧ ∀ s s', p.Formed → s.Spans p.tokens s' → x s = .ok p s' := by
  cases p
  all_goals
    refine ⟨_, rfl, fun s s' hf h => ?_⟩
    simpa [Pseudo.Formed, Pseudo.tokens] using And.intro hf h

theorem of_pseudo? {name : Text} {x : Reading Pseudo} {p : Pseudo} (hx : pseudo? name = some x)
    (h : x s = .ok p s') : p.name = name ∧ p.Formed ∧ s.Spans p.tokens s' := by
  unfold pseudo? at hx
  split at hx
  next hn =>
    cases hx
    simp only [bind_eq_ok, jumpTarget_eq_ok, pure_eq_ok] at h
    obtain ⟨t, s₁, ⟨hf, h⟩, rfl, rfl⟩ := h
    exact ⟨hn.symm, hf, h⟩
  split at hx
  next hn =>
    cases hx
    simp only [bind_eq_ok, registerPair_eq_ok, pure_eq_ok] at h
    obtain ⟨p, s₁, h, rfl, rfl⟩ := h
    exact ⟨hn.symm, trivial, h⟩
  split at hx
  next hn =>
    cases hx
    simp only [bind_eq_ok, registerPair_eq_ok, pure_eq_ok] at h
    obtain ⟨p, s₁, h, rfl, rfl⟩ := h
    exact ⟨hn.symm, trivial, h⟩
  split at hx
  next hn =>
    cases hx
    simp only [bind_eq_ok, registerPair_eq_ok, pure_eq_ok] at h
    obtain ⟨p, s₁, h, rfl, rfl⟩ := h
    exact ⟨hn.symm, trivial, h⟩
  split at hx
  next hn =>
    cases hx
    simp only [bind_eq_ok, memoryOperands_eq_ok, pure_eq_ok] at h
    obtain ⟨p, s₁, h, rfl, rfl⟩ := h
    exact ⟨hn.symm, trivial, h⟩
  split at hx
  next hn =>
    cases hx
    simp only [bind_eq_ok, memoryOperands_eq_ok, pure_eq_ok] at h
    obtain ⟨p, s₁, h, rfl, rfl⟩ := h
    exact ⟨hn.symm, trivial, h⟩
  cases hx

/-- What follows a mnemonic in lower case makes one item of code, the mnemonic being its first
token. -/
theorem instruction_eq_ok {table : InstructionTable} {t : Token} {i : Item} (hk : t.kind = .mnemonic)
    (hf : t.Folded) :
    instruction table t s = .ok i s' ↔
      i.IsCode table ∧ ∃ ts, i.tokens = t :: ts ∧ s.Spans ts s' := by
  constructor
  · intro h
    cases hx : pseudo? t.value with
    | some x =>
      simp only [instruction, hx, bind_eq_ok, pure_eq_ok] at h
      obtain ⟨p, s₁, h, rfl, rfl⟩ := h
      obtain ⟨hn, hp, h⟩ := of_pseudo? hx h
      exact ⟨.pseudo _ hp, p.tokens, by rw [Item.tokens, hn, ← hk], h⟩
    | none =>
      cases hr : table.find? t.value with
      | none =>
        simp only [instruction, hx, hr] at h
        cases h
      | some row =>
        obtain ⟨mnemonic, format, opcode⟩ := row
        cases format with
        | none =>
          simp only [instruction, hx, hr] at h
          cases h
        | some format =>
          simp only [instruction, hx, hr, bind_eq_ok, operands_eq_ok, pure_eq_ok] at h
          obtain ⟨o, s₁, ⟨rfl, h⟩, rfl, rfl⟩ := h
          have hm : mnemonic = t.value := by
            have := List.find?_some hr
            rw [hf hk] at this
            exact eq_of_beq this
          subst hm
          exact ⟨.instruction _ hx hr, o.tokens, by rw [Item.tokens, ← hk], h⟩
  · rintro ⟨hi, ts, hts, h⟩
    cases hi with
    | instruction position hp hr =>
      cases hts
      simp only [instruction, hp, hr, bind_eq_ok, operands_eq_ok, pure_eq_ok]
      exact ⟨_, _, ⟨rfl, h⟩, rfl, rfl⟩
    | @pseudo position p hp =>
      cases hts
      obtain ⟨x, hx, hread⟩ := pseudo?_name p
      simp only [instruction, hx, bind_eq_ok, pure_eq_ok]
      exact ⟨_, _, hread _ _ hp h, rfl, rfl⟩

/-! ### Repetition -/

/-- From `s` on, `step` yields `as` one after the other, and then nothing, at `s'`. -/
inductive Run (step : Reading (Option α)) : TokenStream → List α → TokenStream → Prop
  | stop {s s' : TokenStream} (h : step s = .ok none s') : Run step s [] s'
  | more {s s₁ s' : TokenStream} {a : α} {as : List α} (h : step s = .ok (some a) s₁)
      (hr : Run step s₁ as s') : Run step s (a :: as) s'

theorem manyFrom_eq_ok {step : Reading (Option α)} {hc : Consumes step} {done as : List α} :
    manyFrom step hc done s = .ok as s' ↔ ∃ bs, as = done.reverse ++ bs ∧ Run step s bs s' := by
  constructor
  · intro h
    fun_induction manyFrom step hc done s with
    | case1 done s a s₁ hs _ ih =>
      obtain ⟨bs, rfl, hr⟩ := ih h
      exact ⟨a :: bs, by simp, .more hs hr⟩
    | case2 done s s₁ hs => cases h; exact ⟨[], by simp, .stop hs⟩
    | case3 => cases h
  · rintro ⟨bs, rfl, hr⟩
    induction hr generalizing done with
    | stop hs =>
      unfold manyFrom
      split <;> simp_all
    | @more s s₁ s' a as hs hr ih =>
      have := @ih (a :: done)
      unfold manyFrom
      split <;> simp_all

@[simp] theorem many_eq_ok {step : Reading (Option α)} {hc : Consumes step} {as : List α} :
    many step hc s = .ok as s' ↔ Run step s as s' := by
  rw [many, manyFrom_eq_ok]
  simp

/-! ### Data -/

theorem anotherNumber_eq_none : anotherNumber s = .ok none s' ↔ s.peek.kind ≠ .comma ∧ s = s' := by
  simp only [anotherNumber, bind_eq_ok, peek_eq_ok, existsAndEq, true_and]
  split
  next hk => simp [hk]
  next hk => simp [hk]

theorem anotherNumber_eq_some {n : Lexeme} :
    anotherNumber s = .ok (some n) s' ↔ s.Spans [.mark .comma, n.token .number] s' := by
  simp only [anotherNumber, bind_eq_ok, peek_eq_ok, spans_cons_cons, spans_mark (k := .comma) rfl,
    existsAndEq, true_and]
  split
  next hk => simp [hk]
  next hk => simp [hk]

theorem run_anotherNumber {ns : List Lexeme} :
    Run anotherNumber s ns s' ↔ s.Spans (Lexeme.moreNumbers ns) s' ∧ s'.peek.kind ≠ .comma := by
  constructor
  · intro h
    induction h with
    | stop h =>
      obtain ⟨hk, rfl⟩ := anotherNumber_eq_none.mp h
      exact ⟨spans_nil.mpr rfl, hk⟩
    | more h _ ih => exact ⟨(anotherNumber_eq_some.mp h).trans ih.1, ih.2⟩
  · rintro ⟨h, hk⟩
    induction ns generalizing s with
    | nil =>
      obtain rfl := spans_nil.mp h
      exact .stop (anotherNumber_eq_none.mpr ⟨hk, rfl⟩)
    | cons n ns ih =>
      obtain ⟨s₁, h₁, h₂⟩ := spans_append.mp h
      exact .more (anotherNumber_eq_some.mpr h₁) (ih h₂)

theorem numbers_eq_ok {ns : List Lexeme} :
    numbers s = .ok ns s' ↔ ns ≠ [] ∧ s.Spans (Lexeme.numbers ns) s' ∧ s'.peek.kind ≠ .comma := by
  simp only [numbers, bind_eq_ok, number_eq_ok, many_eq_ok, run_anotherNumber, pure_eq_ok]
  constructor
  · rintro ⟨n, s₁, h, ns, s₂, ⟨h', hk⟩, rfl, rfl⟩
    exact ⟨by simp, h.trans h', hk⟩
  · rintro ⟨hn, h, hk⟩
    cases ns with
    | nil => exact absurd rfl hn
    | cons n ns =>
      obtain ⟨s₁, h₁, h₂⟩ := spans_cons.mp h
      exact ⟨n, s₁, h₁, ns, s', ⟨h₂, hk⟩, rfl, rfl⟩

theorem of_data {kind : Kind} {d : Data} (hk : kind ∈ dataKinds) (h : data kind s = .ok d s') :
    d.kind = kind ∧ d.Formed ∧ s.Spans d.tokens s' := by
  simp only [dataKinds, List.mem_cons, List.not_mem_nil, or_false] at hk
  rcases hk with rfl | rfl | rfl | rfl <;>
    simp only [data, bind_eq_ok, number_eq_ok, string_eq_ok, numbers_eq_ok, pure_eq_ok] at h
  · obtain ⟨n, s₁, h, rfl, rfl⟩ := h
    exact ⟨rfl, trivial, h⟩
  · obtain ⟨ns, s₁, ⟨hn, h, -⟩, rfl, rfl⟩ := h
    exact ⟨rfl, hn, h⟩
  · obtain ⟨ns, s₁, ⟨hn, h, -⟩, rfl, rfl⟩ := h
    exact ⟨rfl, hn, h⟩
  · obtain ⟨t, s₁, h, rfl, rfl⟩ := h
    exact ⟨rfl, trivial, h⟩

/-- Data is read from its tokens, unless a comma goes on with a list of numbers. -/
theorem data_eq_ok {d : Data} (hf : d.Formed) (h : s.Spans d.tokens s') (hc : s'.peek.kind ≠ .comma) :
    data d.kind s = .ok d s' := by
  cases d with
  | space n => simpa [data, Data.kind, Data.tokens] using h
  | words ns => simpa [data, Data.kind, numbers_eq_ok] using ⟨hf, h, hc⟩
  | bytes ns => simpa [data, Data.kind, numbers_eq_ok] using ⟨hf, h, hc⟩
  | ascii t => simpa [data, Data.kind, Data.tokens] using h

/-! ### Items -/

/-- `body` reads the items `P`, which start with a token of one of `kinds` and may not have a comma
behind them. -/
structure ReadsItems (kinds : List Kind) (body : Token → Reading Item) (P : Item → Prop) : Prop where
  sound : ∀ {t : Token} {i : Item} {s s' : TokenStream}, t.kind ∈ kinds → t.Folded →
    body t s = .ok i s' → P i ∧ ∃ ts, i.tokens = t.kept :: ts ∧ s.Spans ts s'
  complete : ∀ {t : Token} {i : Item} {ts : List Token} {s s' : TokenStream}, t.Folded → P i →
    i.tokens = t.kept :: ts → s.Spans ts s' → s'.peek.kind ≠ .comma → body t s = .ok i s'
  starts : ∀ {i : Item}, P i → ∃ t ts, i.tokens = t :: ts ∧ t.kind ∈ kinds
  /-- None of the kinds starts something else. -/
  proper : .label ∉ kinds ∧ .comma ∉ kinds ∧ .endOfFile ∉ kinds

theorem readsItems_data : ReadsItems dataKinds dataItem Item.IsData where
  sound {t i s s'} hk _ h := by
    simp only [dataItem, bind_eq_ok, pure_eq_ok] at h
    obtain ⟨d, s₁, h, rfl, rfl⟩ := h
    obtain ⟨hd, hf, h⟩ := of_data hk h
    refine ⟨.data _ hf, d.tokens, ?_, h⟩
    rw [Item.tokens, (Token.kept_eq_directive _).mpr ⟨hd.symm, rfl⟩]
    cases d <;> rfl
  complete {t i ts s s'} _ hi hts h hc := by
    cases hi with
    | @data position d hf =>
      obtain ⟨ht, rfl⟩ := List.cons.inj hts
      obtain ⟨hk, rfl⟩ := (Token.kept_eq_directive (by cases d <;> rfl)).mp ht.symm
      simp only [dataItem, bind_eq_ok, pure_eq_ok, hk, data_eq_ok hf h hc]
      exact ⟨_, _, rfl, rfl, rfl⟩
  starts hi := by
    cases hi with
    | @data position d hf => exact ⟨_, _, rfl, by cases d <;> simp [dataKinds, Data.kind]⟩
  proper := by decide

theorem readsItems_code (table : InstructionTable) :
    ReadsItems [.mnemonic] (instruction table) (Item.IsCode table) where
  sound {t i s s'} hk hf h := by
    rw [List.mem_singleton] at hk
    rw [Token.kept_eq_self (by rw [hk]; rfl) (by rw [hk]; rfl)]
    exact (instruction_eq_ok hk hf).mp h
  complete {t i ts s s'} hf hi hts h _ := by
    have hk : t.kind = .mnemonic := by
      rw [← Token.kind_kept]
      cases hi <;> (rw [← (List.cons.inj hts).1])
    rw [Token.kept_eq_self (by rw [hk]; rfl) (by rw [hk]; rfl)] at hts
    exact (instruction_eq_ok hk hf).mpr ⟨hi, ts, hts, h⟩
  starts hi := by cases hi <;> exact ⟨_, _, rfl, by simp⟩
  proper := by decide

section
variable {kinds : List Kind} {body : Token → Reading Item} {P : Item → Prop} {i : Item} {items : List Item}

theorem itemOf_eq_none :
    itemOf kinds body s = .ok none s' ↔ (s.peek.kind ≠ .label ∧ s.peek.kind ∉ kinds) ∧ s = s' := by
  simp only [itemOf, bind_eq_ok, peek_eq_ok, existsAndEq, true_and]
  split
  next hl => simp [hl]
  next hl =>
    split
    next hk => simp [hk]
    next hk => simp [hk, hl]

theorem labelDec_eq_ok {t : Token} :
    labelDec t kinds s = .ok i s' ↔
      i = .label ⟨t.position, t.value⟩ ∧ s.Spans [.mark .colon] s' ∧ s'.peek.kind ∈ kinds := by
  simp only [labelDec, bind_eq_ok, ahead_eq_ok, pure_eq_ok]
  constructor
  · rintro ⟨u, s₁, h, _, _, ⟨hk, rfl, rfl⟩, rfl, rfl⟩
    exact ⟨rfl, (expect_mark rfl).mp ⟨u, h⟩, hk⟩
  · rintro ⟨rfl, h, hk⟩
    obtain ⟨u, h⟩ := (expect_mark rfl).mpr h
    exact ⟨u, s', h, _, _, ⟨hk, rfl, rfl⟩, rfl, rfl⟩

theorem itemOf_label {name : Lexeme} (h : s.Spans (Item.label name).tokens s') (hk : s'.peek.kind ∈ kinds) :
    itemOf kinds body s = .ok (some (.label name)) s' := by
  obtain ⟨s₁, h₁, h₂⟩ := spans_cons.mp h
  obtain ⟨hp, rfl⟩ := (spans_token (by decide)).mp h₁
  have hl : s.peek.kind = .label := by rw [hp]; rfl
  refine bind_eq_ok.mpr ⟨s.peek, s, rfl, ?_⟩
  rw [if_pos hl]
  refine bind_eq_ok.mpr ⟨s.peek, s.drop, rfl, bind_eq_ok.mpr ⟨_, s', labelDec_eq_ok.mpr ⟨rfl, h₂, hk⟩, ?_⟩⟩
  rw [hp]
  rfl

theorem itemOf_body (hr : ReadsItems kinds body P) (hk : s.peek.kind ∈ kinds)
    (h : body s.peek s.drop = .ok i s') : itemOf kinds body s = .ok (some i) s' := by
  have hl : s.peek.kind ≠ .label := fun hl => hr.proper.1 (hl ▸ hk)
  refine bind_eq_ok.mpr ⟨s.peek, s, rfl, ?_⟩
  rw [if_neg hl, if_pos hk]
  exact bind_eq_ok.mpr ⟨s.peek, s.drop, rfl, bind_eq_ok.mpr ⟨i, s', h, rfl⟩⟩

/-- An item is a label before an item of the field, or an item of the field. -/
theorem of_itemOf (h : itemOf kinds body s = .ok (some i) s') :
    (∃ name, i = .label name ∧ s.Spans i.tokens s' ∧ s'.peek.kind ∈ kinds) ∨
      (s.peek.kind ∈ kinds ∧ body s.peek s.drop = .ok i s') := by
  obtain ⟨_, _, hp, h⟩ := bind_eq_ok.mp h
  obtain ⟨rfl, rfl⟩ := peek_eq_ok.mp hp
  split at h
  next hl =>
    obtain ⟨_, _, hn, h⟩ := bind_eq_ok.mp h
    obtain ⟨rfl, rfl⟩ := next_eq_ok.mp hn
    obtain ⟨j, s₁, h, he⟩ := bind_eq_ok.mp h
    cases he
    obtain ⟨rfl, h, hk⟩ := labelDec_eq_ok.mp h
    refine .inl ⟨_, rfl, spans_cons.mpr ⟨s.drop, (spans_token (by decide)).mpr ⟨?_, rfl⟩, h⟩, hk⟩
    rw [← hl]
    rfl
  next hl =>
    split at h
    next hk =>
      obtain ⟨_, _, hn, h⟩ := bind_eq_ok.mp h
      obtain ⟨rfl, rfl⟩ := next_eq_ok.mp hn
      obtain ⟨j, s₁, h, he⟩ := bind_eq_ok.mp h
      cases he
      exact .inr ⟨hk, h⟩
    next => cases h

theorem ReadsItems.step (hr : ReadsItems kinds body P) (hf : s.Folded) (hk : s.peek.kind ∈ kinds)
    (h : body s.peek s.drop = .ok i s') : P i ∧ s.Spans i.tokens s' := by
  obtain ⟨hi, ts, hts, h⟩ := hr.sound hk hf.peek h
  rw [hts]
  refine ⟨hi, spans_cons.mpr ⟨s.drop, (spans_singleton ?_).mpr ⟨rfl, rfl⟩, h⟩⟩
  rw [Token.kind_kept]
  exact fun he => hr.proper.2.2 (he ▸ hk)

/-- Items that were read are listed, and one of them comes first where its first token does. -/
theorem of_run_itemOf (hr : ReadsItems kinds body P) (hf : s.Folded) (h : Run (itemOf kinds body) s items s') :
    Item.Listed P items ∧ s.Spans (items.flatMap Item.tokens) s' ∧
      (s.peek.kind ∈ kinds → ∃ i rest, items = i :: rest ∧ P i ∧ Item.Listed P rest) := by
  induction h with
  | stop h =>
    obtain ⟨⟨-, hk⟩, rfl⟩ := itemOf_eq_none.mp h
    exact ⟨.nil, spans_nil.mpr rfl, fun hk' => absurd hk' hk⟩
  | more h _ ih =>
    rcases of_itemOf h with ⟨name, rfl, hs, hk⟩ | ⟨hk, hb⟩
    · obtain ⟨-, hs', hfirst⟩ := ih (hf.of_spans hs)
      obtain ⟨i, rest, rfl, hi, hrest⟩ := hfirst hk
      refine ⟨.labelled name hi hrest, hs.trans hs', fun hk' => absurd ?_ hr.proper.1⟩
      rwa [hs.peek_kind] at hk'
    · obtain ⟨hi, hs⟩ := hr.step hf hk hb
      obtain ⟨hl, hs', -⟩ := ih (hf.of_spans hs)
      exact ⟨.item hi hl, hs.trans hs', fun _ => ⟨_, _, rfl, hi, hl⟩⟩

theorem ReadsItems.peek_kind (hr : ReadsItems kinds body P) (hi : P i) {ts : List Token}
    (h : s.Spans (i.tokens ++ ts) s') : s.peek.kind ∈ kinds := by
  obtain ⟨t, us, hts, hk⟩ := hr.starts hi
  rw [hts] at h
  rwa [h.peek_kind]

theorem ReadsItems.itemOf_eq_ok (hr : ReadsItems kinds body P) (hf : s.Folded) (hi : P i)
    (h : s.Spans i.tokens s') (hc : s'.peek.kind ≠ .comma) :
    itemOf kinds body s = .ok (some i) s' := by
  obtain ⟨t, ts, hts, hk⟩ := hr.starts hi
  rw [hts] at h
  have hp := h.peek_kept
  obtain ⟨s₁, h₁, h₂⟩ := spans_cons.mp h
  obtain ⟨-, rfl⟩ := (spans_singleton fun he => hr.proper.2.2 (he ▸ hk)).mp h₁
  exact itemOf_body hr (h.peek_kind ▸ hk) (hr.complete hf.peek hi (by rw [hts, hp]) h₂ hc)

/-- No comma stands before listed items, or behind them unless it was there. -/
theorem ReadsItems.peek_ne_comma (hr : ReadsItems kinds body P) (hl : Item.Listed P items)
    (h : s.Spans (items.flatMap Item.tokens) s') (hc : s'.peek.kind ≠ .comma) :
    s.peek.kind ≠ .comma := by
  cases hl with
  | nil =>
    obtain rfl := spans_nil.mp h
    exact hc
  | item hi _ => exact fun he => hr.proper.2.1 (he ▸ hr.peek_kind hi h)
  | labelled name _ _ =>
    rw [h.peek_kind]
    exact Kind.noConfusion

/-- Listed items are read from their tokens, unless what follows goes on with them. -/
theorem run_itemOf (hr : ReadsItems kinds body P) (hf : s.Folded) (hl : Item.Listed P items)
    (h : s.Spans (items.flatMap Item.tokens) s') (hc : s'.peek.kind ≠ .comma)
    (hk : s'.peek.kind ≠ .label ∧ s'.peek.kind ∉ kinds) : Run (itemOf kinds body) s items s' := by
  induction hl generalizing s with
  | nil => exact .stop (itemOf_eq_none.mpr ⟨spans_nil.mp h ▸ hk, spans_nil.mp h⟩)
  | item hi hrest ih =>
    obtain ⟨s₁, h₁, h₂⟩ := spans_append.mp h
    exact .more (hr.itemOf_eq_ok hf hi h₁ (hr.peek_ne_comma hrest h₂ hc)) (ih (hf.of_spans h₁) h₂)
  | labelled name hi hrest ih =>
    obtain ⟨s₁, h₁, h₂⟩ := spans_append.mp h
    obtain ⟨s₂, h₂, h₃⟩ := spans_append.mp (show s₁.Spans (_ ++ _) s' from h₂)
    have hf₁ := hf.of_spans h₁
    have hkind := hr.peek_kind hi (show s₁.Spans (_ ++ []) s₂ by rwa [List.append_nil])
    exact .more (itemOf_label h₁ hkind)
      (.more (hr.itemOf_eq_ok hf₁ hi h₂ (hr.peek_ne_comma hrest h₃ hc)) (ih (hf₁.of_spans h₂) h₃))

end

/-! ### Fields -/

variable {table : InstructionTable} {f : Field} {fields : List Field}

theorem field_eq_none : field table s = .ok none s' ↔ s.peek.kind = .endOfFile ∧ s = s' := by
  simp only [field, bind_eq_ok, peek_eq_ok, existsAndEq, true_and]
  generalize s.peek.kind = k
  unfold fieldOf
  split <;> simp_all [refuse]

theorem of_field (hf : s.Folded) (h : field table s = .ok (some f) s') :
    f.Formed table ∧ s.Spans f.tokens s' := by
  obtain ⟨_, _, hp, h⟩ := bind_eq_ok.mp h
  obtain ⟨rfl, rfl⟩ := peek_eq_ok.mp hp
  have first {k : Kind} (hd : k.isDirective = true) (hk : s.peek.kind = k) :
      s.Spans [⟨k, s.peek.position, []⟩] s.drop := (spans_directive hd).mpr ⟨⟨hk, rfl⟩, rfl⟩
  generalize hk : s.peek.kind = k at h
  unfold fieldOf at h
  split at h
  · cases h
  · obtain ⟨_, _, hn, h⟩ := bind_eq_ok.mp h
    obtain ⟨rfl, rfl⟩ := next_eq_ok.mp hn
    obtain ⟨items, s₁, h, he⟩ := bind_eq_ok.mp h
    cases he
    have h₁ := first rfl hk
    obtain ⟨hl, hs, -⟩ := of_run_itemOf readsItems_data (hf.of_spans h₁) (many_eq_ok.mp h)
    exact ⟨hl, h₁.trans hs⟩
  · obtain ⟨_, _, hn, h⟩ := bind_eq_ok.mp h
    obtain ⟨rfl, rfl⟩ := next_eq_ok.mp hn
    obtain ⟨items, s₁, h, he⟩ := bind_eq_ok.mp h
    cases he
    have h₁ := first rfl hk
    obtain ⟨hl, hs, -⟩ := of_run_itemOf (readsItems_code table) (hf.of_spans h₁) (many_eq_ok.mp h)
    exact ⟨hl, h₁.trans hs⟩
  · obtain ⟨_, _, hn, h⟩ := bind_eq_ok.mp h
    obtain ⟨rfl, rfl⟩ := next_eq_ok.mp hn
    obtain ⟨path, s₁, h, he⟩ := bind_eq_ok.mp h
    cases he
    exact ⟨trivial, (first rfl hk).trans (string_eq_ok.mp h)⟩
  · cases h

/-- A field that the grammar allows is read from its tokens, if another one or the end follows. -/
theorem field_eq_ok (hf : s.Folded) (hform : f.Formed table) (h : s.Spans f.tokens s')
    (hk : s'.peek.kind ∈ fieldStarts) : field table s = .ok (some f) s' := by
  have hc : s'.peek.kind ≠ .comma := fun he => absurd (he ▸ hk) (by decide)
  have hl : s'.peek.kind ≠ .label := fun he => absurd (he ▸ hk) (by decide)
  cases f with
  | data position items =>
    obtain ⟨s₁, h₁, h₂⟩ := spans_cons.mp h
    obtain ⟨⟨hkind, rfl⟩, rfl⟩ := (spans_directive rfl).mp h₁
    refine bind_eq_ok.mpr ⟨s.peek, s, rfl, ?_⟩
    rw [hkind]
    have hd : s'.peek.kind ∉ dataKinds := fun hd => by
      revert hk hd
      generalize s'.peek.kind = k
      revert k
      decide
    exact bind_eq_ok.mpr ⟨s.peek, s.drop, rfl, bind_eq_ok.mpr ⟨items, s', many_eq_ok.mpr
      (run_itemOf readsItems_data (hf.of_spans h₁) hform h₂ hc ⟨hl, hd⟩), rfl⟩⟩
  | code position items =>
    obtain ⟨s₁, h₁, h₂⟩ := spans_cons.mp h
    obtain ⟨⟨hkind, rfl⟩, rfl⟩ := (spans_directive rfl).mp h₁
    refine bind_eq_ok.mpr ⟨s.peek, s, rfl, ?_⟩
    rw [hkind]
    have hm : s'.peek.kind ∉ [Kind.mnemonic] := fun hm =>
      absurd (List.mem_singleton.mp hm ▸ hk) (by decide)
    exact bind_eq_ok.mpr ⟨s.peek, s.drop, rfl, bind_eq_ok.mpr ⟨items, s', many_eq_ok.mpr
      (run_itemOf (readsItems_code table) (hf.of_spans h₁) hform h₂ hc ⟨hl, hm⟩), rfl⟩⟩
  | inclusion position path =>
    obtain ⟨s₁, h₁, h₂⟩ := spans_cons.mp h
    obtain ⟨⟨hkind, rfl⟩, rfl⟩ := (spans_directive rfl).mp h₁
    refine bind_eq_ok.mpr ⟨s.peek, s, rfl, ?_⟩
    rw [hkind]
    exact bind_eq_ok.mpr ⟨s.peek, s.drop, rfl, bind_eq_ok.mpr ⟨path, s', string_eq_ok.mpr h₂, rfl⟩⟩

theorem peek_fields (h : s.Spans (fields.flatMap Field.tokens) s') (hk : s'.peek.kind ∈ fieldStarts) :
    s.peek.kind ∈ fieldStarts := by
  cases fields with
  | nil =>
    obtain rfl := spans_nil.mp h
    exact hk
  | cons f fields => cases f <;> (rw [Spans.peek_kind h]; simp [fieldStarts])

/-- Fields are read from exactly the tokens that spell fields of the grammar before an end. -/
theorem run_field (hf : s.Folded) :
    Run (field table) s fields s' ↔
      (∀ f ∈ fields, f.Formed table) ∧ s.Spans (fields.flatMap Field.tokens) s' ∧
        s'.peek.kind = .endOfFile := by
  constructor
  · intro h
    induction h with
    | stop h =>
      obtain ⟨hk, rfl⟩ := field_eq_none.mp h
      exact ⟨by simp, spans_nil.mpr rfl, hk⟩
    | more h _ ih =>
      obtain ⟨hform, hs⟩ := of_field hf h
      obtain ⟨hforms, hs', hk⟩ := ih (hf.of_spans hs)
      exact ⟨List.forall_mem_cons.mpr ⟨hform, hforms⟩, hs.trans hs', hk⟩
  · rintro ⟨hforms, h, hk⟩
    have hk' : s'.peek.kind ∈ fieldStarts := by rw [hk]; decide
    induction fields generalizing s with
    | nil =>
      obtain rfl := spans_nil.mp h
      exact .stop (field_eq_none.mpr ⟨hk, rfl⟩)
    | cons f fields ih =>
      obtain ⟨hform, hforms⟩ := List.forall_mem_cons.mp hforms
      obtain ⟨s₁, h₁, h₂⟩ := spans_append.mp h
      exact .more (field_eq_ok hf hform h₁ (peek_fields h₂ hk')) (ih (hf.of_spans h₁) hforms h₂)

end Reading

/-! ### Programs -/

/-- What stands between a list of tokens and its end. -/
theorem TokenStream.spans_end {ts us : List Token} (hu : ∀ u ∈ us, u.kind ≠ .endOfFile) :
    (∃ s', (ofList ts).Spans us s' ∧ s'.peek.kind = .endOfFile) ↔
      (Token.beforeEnd ts).map Token.kept = us := by
  constructor
  · rintro ⟨⟨rest, ending⟩, ⟨vs, hs, rfl⟩, hk⟩
    obtain rfl : ts = vs ++ rest := congrArg TokenStream.rest hs
    have hv : ∀ v ∈ vs, decide (v.kind ≠ .endOfFile) = true := fun v hv =>
      decide_eq_true (by rw [← Token.kind_kept]; exact hu _ (List.mem_map_of_mem hv))
    rw [Token.beforeEnd, List.takeWhile_append_of_pos hv]
    cases rest with
    | nil => rw [List.takeWhile_nil, List.append_nil]
    | cons t rest =>
      have ht : t.kind = .endOfFile := hk
      rw [List.takeWhile_cons_of_neg (by simp [ht]), List.append_nil]
  · rintro rfl
    refine ⟨⟨ts.dropWhile (·.kind ≠ .endOfFile), (ofList ts).ending⟩, ⟨Token.beforeEnd ts, ?_, rfl⟩, ?_⟩
    · rw [Token.beforeEnd, List.takeWhile_append_dropWhile]
      rfl
    · cases hd : ts.dropWhile (·.kind ≠ .endOfFile) with
      | nil => rfl
      | cons t rest =>
        have ht := List.head?_dropWhile_not (fun t : Token => decide (t.kind ≠ .endOfFile)) ts
        rw [hd] at ht
        show t.kind = .endOfFile
        simpa using ht

namespace Program
variable {table : InstructionTable} {ts : List Token}

/-- A list of tokens forms a program exactly if its tokens up to the end spell fields of the
grammar. -/
theorem ofTokens_eq_ok {p : Program} (hf : ∀ t ∈ ts, t.Folded) :
    ofTokens table ts = .ok p ↔
      p.position = (TokenStream.ofList ts).peek.position ∧ (∀ f ∈ p.fields, f.Formed table) ∧
        (Token.beforeEnd ts).map Token.kept = p.tokens := by
  have hrun : ofTokens table ts = .ok p ↔
      p.position = (TokenStream.ofList ts).peek.position ∧
        ∃ s', Reading.Run (Reading.field table) (.ofList ts) p.fields s' := by
    have hread {s' : TokenStream} : Reading.program table (.ofList ts) = .ok p s' ↔
        p.position = (TokenStream.ofList ts).peek.position ∧
          Reading.Run (Reading.field table) (.ofList ts) p.fields s' := by
      obtain ⟨position, fields⟩ := p
      simp only [Reading.program, Reading.bind_eq_ok, Reading.peek_eq_ok, Reading.many_eq_ok,
        Reading.pure_eq_ok, Program.mk.injEq, existsAndEq, true_and, and_true]
      rw [and_comm, eq_comm]
    simp only [← exists_and_left, ← hread]
    unfold ofTokens
    split
    next q s' hq => simp [hq]
    next e s' hq => simp [hq]
  have hf : (TokenStream.ofList ts).Folded := hf
  rw [hrun, ← TokenStream.spans_end p.kind_tokens]
  simp only [Reading.run_field hf, exists_and_left]
  rfl

end Program
end AccAsm
