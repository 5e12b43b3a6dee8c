import AccAsm.Proofs.Program.Automaton
import AccAsm.Proofs.Program.Reading

/-! # Programs and their flattenings

The flattening of a program is what its tokens say without their places. A list of tokens is read as
a program exactly if it says the same, except for the values of its directives, which nothing looks
at (`ofTokens_exact`). So no token is lost or counted twice, and no list has two trees. Trees are
compared without the places in them (`unplaced`). That places do not matter is seen on the automaton,
which never looks at them. -/

namespace AccAsm
open Text (lit)

/-! ### Tokens without places -/

namespace Token

/-- The kind and the value of a token, except that of a mark. -/
def pair (t : Token) : Kind × Text := (t.kind, if t.kind.isMark then [] else t.value)

/-- The kind and the value of a token, except that of a mark or a directive. -/
def reading (t : Token) : Kind × Text :=
  (t.kind, if t.kind.isMark || t.kind.isDirective then [] else t.value)

/-- The pair of a token in which a directive is spelled as its kind is named. -/
def written (t : Token) : Kind × Text :=
  if t.kind.isDirective then (t.kind, t.kind.name?.getD []) else t.pair

def unplaced (t : Token) : Token := { t with position := {} }

/-- What is kept of a token, without its place. -/
def bare (t : Token) : Token := t.kept.unplaced

/-- A token as trees have them: of a mark or a directive no more than is kept, a mnemonic in lower
case. -/
def Settled (t : Token) : Prop := t.kept = t ∧ t.Folded

variable (t : Token)

@[simp] theorem kind_bare : t.bare.kind = t.kind := t.kind_kept

theorem value_bare (hm : t.kind.isMark = false) (hd : t.kind.isDirective = false) :
    t.bare.value = t.value := by
  rw [bare, kept_eq_self hm hd, unplaced]

theorem kept_bare : t.bare.kept = t.bare := by
  cases hm : t.kind.isMark with
  | true => simp [bare, kept, unplaced, hm]
  | false => cases hd : t.kind.isDirective <;> simp [bare, kept, unplaced, hm, hd]

theorem folded_bare (h : t.Folded) : t.bare.Folded := by
  intro hk
  rw [kind_bare] at hk
  rw [value_bare t (by rw [hk]; rfl) (by rw [hk]; rfl)]
  exact h hk

theorem fst_written : t.written.1 = t.kind := by
  unfold written
  split <;> rfl

theorem written_kept : t.kept.written = t.written := by
  cases hm : t.kind.isMark with
  | true => simp [written, pair, kept, hm]
  | false => cases hd : t.kind.isDirective <;> simp [written, pair, kept, hm, hd]

theorem written_eq_pair (h : t.kind.isDirective → t.kind.name? = some t.value) : t.written = t.pair := by
  unfold written
  split
  next hd =>
    have hm : t.kind.isMark = false := by
      revert hd
      cases t.kind <;> simp [Kind.isDirective, Kind.isMark]
    simp [pair, hm, h hd]
  next => rfl

/-- What is kept of a token depends on its kind and on what counts of its value. -/
theorem bare_eq : t.bare = bare ⟨t.reading.1, {}, t.reading.2⟩ := by
  cases hm : t.kind.isMark <;> cases hd : t.kind.isDirective <;>
    simp [bare, kept, unplaced, reading, hm, hd]

theorem written_eq : t.written = written ⟨t.reading.1, {}, t.reading.2⟩ := by
  cases hm : t.kind.isMark <;> cases hd : t.kind.isDirective <;> simp [written, pair, reading, hm, hd]

theorem reading_eq : t.reading = reading ⟨t.written.1, {}, t.written.2⟩ := by
  cases hm : t.kind.isMark <;> cases hd : t.kind.isDirective <;> simp [written, pair, reading, hm, hd]

/-- Of lists of tokens, `g` says no more than `f` does if it can be told from what `f` says. -/
theorem map_eq_map_of {β : Type} {f : Token → Kind × Text} {g : Token → β}
    (hg : ∀ t, g t = g ⟨(f t).1, {}, (f t).2⟩) {ts us : List Token} (h : ts.map f = us.map f) :
    ts.map g = us.map g := by
  have hmap (ts : List Token) : ts.map g = (ts.map f).map fun r => g ⟨r.1, {}, r.2⟩ := by
    rw [List.map_map]
    exact List.map_congr_left fun t _ => hg t
  rw [hmap, hmap, h]

theorem map_bare_eq {ts us : List Token} (h : ts.map reading = us.map reading) : ts.map bare = us.map bare :=
  map_eq_map_of bare_eq h

theorem map_reading_eq_iff {ts us : List Token} :
    ts.map reading = us.map reading ↔ ts.map written = us.map written :=
  ⟨map_eq_map_of written_eq, map_eq_map_of reading_eq⟩

theorem beforeEnd_map_bare (ts : List Token) : beforeEnd (ts.map bare) = (beforeEnd ts).map bare := by
  rw [beforeEnd, beforeEnd, List.takeWhile_map]
  simp only [Function.comp_def, kind_bare]

end Token

namespace Automaton

variable {table : InstructionTable} {q : State} {t u : Token} {o : Option State}

theorem State.step_congr (hk : t.kind = u.kind) (hv : t.kind = .mnemonic → t.value = u.value) :
    q.step table t = .ok o ↔ q.step table u = .ok o := by
  have field : nextField t = .ok o ↔ nextField u = .ok o := by
    unfold nextField
    rw [hk]
    split <;> simp
  have directive : afterDirective t = afterDirective u := by
    unfold afterDirective
    rw [hk]
  have mnemonic (ht : t.kind = .mnemonic) :
      afterMnemonic table t = .ok o ↔ afterMnemonic table u = .ok o := by
    unfold afterMnemonic
    rw [hv ht]
    split <;> simp
  have item {kinds : List Kind} {labelled : Spot} {body : Token → Step}
      (hb : t.kind ∈ kinds → (body t = .ok o ↔ body u = .ok o)) :
      nextItem kinds labelled body t = .ok o ↔ nextItem kinds labelled body u = .ok o := by
    unfold nextItem
    rw [← hk]
    split
    · rfl
    split
    next h => exact hb h
    next => exact field
  have behind {kinds : List Kind} {body : Token → Step}
      (hb : t.kind ∈ kinds → (body t = .ok o ↔ body u = .ok o)) :
      nextLabelled kinds body t = .ok o ↔ nextLabelled kinds body u = .ok o := by
    unfold nextLabelled
    rw [← hk]
    split
    next h => exact hb h
    next => simp
  have code (ht : t.kind ∈ [Kind.mnemonic]) := mnemonic (List.mem_singleton.mp ht)
  obtain ⟨awaited, spot⟩ := q
  cases awaited with
  | cons slot more =>
    rw [State.step, State.step, ← hk]
    split <;> simp
  | nil =>
    cases spot with
    | fields => exact field
    | data => exact item fun _ => by rw [directive]
    | numbers =>
      rw [State.step, State.step, Spot.step, Spot.step, ← hk]
      split
      · rfl
      · exact item fun _ => by rw [directive]
    | labelledData => exact behind fun _ => by rw [directive]
    | code => exact item code
    | labelledCode => exact behind code

theorem run_nil_eq_ok {ending : Position} :
    run table ending q [] = .ok () ↔ ∃ o, q.step table { kind := .endOfFile, position := ending } = .ok o := by
  rw [run]
  split <;> simp_all

theorem run_cons_eq_ok {ending : Position} {ts : List Token} :
    run table ending q (t :: ts) = .ok () ↔
      ∃ o, q.step table t = .ok o ∧ ∀ q', o = some q' → run table ending q' ts = .ok () := by
  rw [run]
  split <;> simp_all

/-- Acceptance depends on the kinds of tokens and on their mnemonics, wherever they stand. -/
theorem run_map_eq_ok {f : Token → Token} {ending ending' : Position} {ts : List Token}
    (hk : ∀ t, (f t).kind = t.kind) (hv : ∀ t, t.kind = .mnemonic → (f t).value = t.value) :
    run table ending q (ts.map f) = .ok () ↔ run table ending' q ts = .ok () := by
  induction ts generalizing q with
  | nil =>
    rw [List.map_nil, run_nil_eq_ok, run_nil_eq_ok]
    exact exists_congr fun o => State.step_congr rfl fun _ => rfl
  | cons t ts ih =>
    rw [List.map_cons, run_cons_eq_ok, run_cons_eq_ok]
    simp only [ih, State.step_congr (hk t) fun h => hv t (hk t ▸ h)]

end Automaton

/-! ### Trees without places -/

def Lexeme.unplaced (l : Lexeme) : Lexeme := { l with position := {} }

def Operands.unplaced : Operands → Operands
  | n => n
  | r ac rf₁ rf₂ => r ac.unplaced rf₁.unplaced rf₂.unplaced
  | i ac imm => i ac.unplaced imm.unplaced
  | s ac rf imm => s ac.unplaced rf.unplaced imm.unplaced
  | j imm => j imm.unplaced
  | e1 ac rf => e1 ac.unplaced rf.unplaced
  | e2 rf => e2 rf.unplaced
  | e3 ac => e3 ac.unplaced
  | e4 rf => e4 rf.unplaced

def JumpTarget.unplaced : JumpTarget → JumpTarget
  | number n => number n.unplaced
  | label name => label name.unplaced
  | other part => other part

def Pseudo.unplaced : Pseudo → Pseudo
  | jump target => jump target.unplaced
  | mul a b => mul a.unplaced b.unplaced
  | div a b => div a.unplaced b.unplaced
  | swap a b => swap a.unplaced b.unplaced
  | load ac label offset => load ac.unplaced label.unplaced offset.unplaced
  | store ac label offset => store ac.unplaced label.unplaced offset.unplaced

def Data.unplaced : Data → Data
  | space count => space count.unplaced
  | words values => words (values.map Lexeme.unplaced)
  | bytes values => bytes (values.map Lexeme.unplaced)
  | ascii text => ascii text.unplaced

def Item.unplaced : Item → Item
  | label name => label name.unplaced
  | data _ d => data {} d.unplaced
  | instruction _ mnemonic operands => instruction {} mnemonic operands.unplaced
  | pseudo _ p => pseudo {} p.unplaced

def Field.unplaced : Field → Field
  | data _ items => data {} (items.map Item.unplaced)
  | code _ items => code {} (items.map Item.unplaced)
  | inclusion _ path => inclusion {} path.unplaced

/-- The tree of a program without the places in it. -/
def Program.unplaced (p : Program) : Program := ⟨{}, p.fields.map Field.unplaced⟩

theorem Operands.tokens_unplaced (o : Operands) : o.unplaced.tokens = o.tokens.map Token.unplaced := by
  cases o <;> rfl

theorem Operands.format_unplaced (o : Operands) : o.unplaced.format = o.format := by
  cases o <;> rfl

theorem Lexeme.numbers_unplaced (ns : List Lexeme) :
    numbers (ns.map unplaced) = (numbers ns).map Token.unplaced := by
  cases ns with
  | nil => rfl
  | cons n ns =>
    simp only [List.map_cons, numbers, moreNumbers, List.flatMap_map, List.map_flatMap]
    rfl

theorem Data.tokens_unplaced (d : Data) : d.unplaced.tokens = d.tokens.map Token.unplaced := by
  cases d with
  | space n | ascii text => rfl
  | words ns | bytes ns => exact Lexeme.numbers_unplaced ns

theorem Pseudo.tokens_unplaced (p : Pseudo) : p.unplaced.tokens = p.tokens.map Token.unplaced := by
  cases p with
  | jump target => cases target <;> rfl
  | _ => rfl

theorem Pseudo.name_unplaced (p : Pseudo) : p.unplaced.name = p.name := by
  cases p <;> rfl

theorem Item.tokens_unplaced (i : Item) : i.unplaced.tokens = i.tokens.map Token.unplaced := by
  cases i with
  | label name => rfl
  | data position d =>
    have hk : d.unplaced.kind = d.kind := by cases d <;> rfl
    rw [unplaced, tokens, tokens, d.tokens_unplaced, hk]
    rfl
  | instruction position mnemonic o => rw [unplaced, tokens, tokens, o.tokens_unplaced]; rfl
  | pseudo position p => rw [unplaced, tokens, tokens, p.tokens_unplaced, p.name_unplaced]; rfl

theorem Field.tokens_unplaced (f : Field) : f.unplaced.tokens = f.tokens.map Token.unplaced := by
  have hitems (items : List Item) : (items.map Item.unplaced).flatMap Item.tokens =
      (items.flatMap Item.tokens).map Token.unplaced := by
    rw [List.flatMap_map, List.map_flatMap]
    simp only [Item.tokens_unplaced]
  cases f with
  | data position items | code position items =>
    rw [unplaced, tokens, tokens, hitems]
    rfl
  | inclusion position path => rfl

theorem Program.tokens_unplaced (p : Program) : p.unplaced.tokens = p.tokens.map Token.unplaced := by
  rw [tokens, tokens, unplaced, List.flatMap_map, List.map_flatMap]
  simp only [Field.tokens_unplaced]

/-! ### Trees that the grammar allows -/

theorem Data.formed_unplaced (d : Data) : d.unplaced.Formed ↔ d.Formed := by
  cases d <;> simp [unplaced, Formed]

theorem Pseudo.formed_unplaced (p : Pseudo) : p.unplaced.Formed ↔ p.Formed := by
  cases p with
  | jump target => cases target <;> rfl
  | _ => rfl

theorem Item.isData_unplaced (i : Item) : i.unplaced.IsData ↔ i.IsData := by
  constructor
  · intro h
    cases i with
    | data position d =>
      cases h with
      | data _ h => exact .data position (d.formed_unplaced.mp h)
    | label name | instruction position mnemonic o | pseudo position p => cases h
  · rintro (⟨position, h⟩)
    exact .data {} ((Data.formed_unplaced _).mpr h)

theorem Item.isCode_unplaced {table : InstructionTable} (i : Item) :
    i.unplaced.IsCode table ↔ i.IsCode table := by
  constructor
  · intro h
    cases i with
    | instruction position mnemonic o =>
      cases h with
      | instruction _ hp ht => exact .instruction position hp (by rwa [o.format_unplaced] at ht)
    | pseudo position p =>
      cases h with
      | pseudo _ h => exact .pseudo position (p.formed_unplaced.mp h)
    | label name | data position d => cases h
  · intro h
    cases h with
    | @instruction position mnemonic o opcode hp ht =>
      exact .instruction {} hp (by rwa [o.format_unplaced])
    | pseudo position h => exact .pseudo {} ((Pseudo.formed_unplaced _).mpr h)

theorem Item.listed_unplaced {P : Item → Prop} (hP : ∀ i, P (unplaced i) ↔ P i) {items : List Item} :
    Listed P (items.map unplaced) ↔ Listed P items := by
  constructor
  · intro h
    generalize hm : items.map unplaced = us at h
    induction h generalizing items with
    | nil =>
      obtain rfl := List.map_eq_nil_iff.mp hm
      exact .nil
    | item hi _ ih =>
      obtain ⟨i, rest, rfl, rfl, hrest⟩ := List.map_eq_cons_iff.mp hm
      exact .item ((hP i).mp hi) (ih hrest)
    | labelled name hi _ ih =>
      obtain ⟨l, behind, rfl, hl, hbehind⟩ := List.map_eq_cons_iff.mp hm
      obtain ⟨i, rest, rfl, rfl, hrest⟩ := List.map_eq_cons_iff.mp hbehind
      cases l with
      | label name => exact .labelled name ((hP i).mp hi) (ih hrest)
      | data position d | instruction position mnemonic o | pseudo position p => cases hl
  · intro h
    induction h with
    | nil => exact .nil
    | item hi _ ih => exact .item ((hP _).mpr hi) ih
    | labelled name hi _ ih => exact .labelled name.unplaced ((hP _).mpr hi) ih

theorem Field.formed_unplaced {table : InstructionTable} (f : Field) :
    f.unplaced.Formed table ↔ f.Formed table := by
  cases f with
  | data position items => exact Item.listed_unplaced Item.isData_unplaced
  | code position items => exact Item.listed_unplaced Item.isCode_unplaced
  | inclusion position path => rfl

/-! ### Tokens of trees -/

theorem Lexeme.settled_numbers (ns : List Lexeme) : ∀ t ∈ numbers ns, t.Settled := by
  cases ns <;> simp +contextual [numbers, moreNumbers, token, Token.mark, Token.Settled, Token.kept,
    Token.Folded, Kind.isMark, Kind.isDirective, or_imp]

theorem Operands.settled_tokens (o : Operands) : ∀ t ∈ o.tokens, t.Settled := by
  cases o <;> simp [tokens, Lexeme.pair, Lexeme.mixed, Lexeme.token, Token.mark, Token.Settled, Token.kept,
    Token.Folded, Kind.isMark, Kind.isDirective]

theorem Data.settled_tokens (d : Data) : ∀ t ∈ d.tokens, t.Settled := by
  cases d with
  | words ns | bytes ns => exact Lexeme.settled_numbers ns
  | space n | ascii text =>
    simp [tokens, Lexeme.token, Token.Settled, Token.kept, Token.Folded, Kind.isMark, Kind.isDirective]

theorem Pseudo.settled_tokens (p : Pseudo) : ∀ t ∈ p.tokens, t.Settled := by
  cases p with
  | jump target =>
    cases target <;> simp [tokens, JumpTarget.tokens, Lexeme.token, Token.Settled, Token.kept, Token.Folded,
      Kind.isMark, Kind.isDirective]
  | _ =>
    simp [tokens, Lexeme.pair, Lexeme.memory, Lexeme.token, Token.mark, Token.Settled, Token.kept,
      Token.Folded, Kind.isMark, Kind.isDirective]

theorem Item.IsData.settled {i : Item} (h : i.IsData) : ∀ t ∈ i.tokens, t.Settled := by
  cases h with
  | @data position d _ =>
    refine List.forall_mem_cons.mpr ⟨?_, d.settled_tokens⟩
    cases d <;> exact ⟨rfl, by rintro ⟨⟩⟩

/-- The table has its mnemonics in lower case. -/
theorem Item.IsCode.settled {table : InstructionTable} {i : Item} (h : i.IsCode table) :
    ∀ t ∈ i.tokens, t.Settled := by
  cases h with
  | @instruction position mnemonic o opcode _ ht =>
    have hm := List.find?_some ht
    exact List.forall_mem_cons.mpr ⟨⟨rfl, fun _ => (eq_of_beq hm).symm⟩, o.settled_tokens⟩
  | @pseudo position p _ =>
    have names : ∀ name ∈ [lit "jump", lit "mul", lit "div", lit "swap", lit "lw", lit "sw"],
        LowerCase.lower name = name := by decide +kernel
    have hname := names p.name (by cases p <;> simp [Pseudo.name])
    exact List.forall_mem_cons.mpr ⟨⟨rfl, fun _ => hname⟩, p.settled_tokens⟩

theorem Field.Formed.settled {table : InstructionTable} {f : Field} (h : f.Formed table) :
    ∀ t ∈ f.tokens, t.Settled := by
  have hlabel (name : Lexeme) : ∀ t ∈ (Item.label name).tokens, t.Settled := by
    simp [Item.tokens, Lexeme.token, Token.mark, Token.Settled, Token.kept, Token.Folded, Kind.isMark,
      Kind.isDirective]
  have hitems {P : Item → Prop} (hP : ∀ i, P i → ∀ t ∈ i.tokens, t.Settled) {items : List Item}
      (hl : Item.Listed P items) : ∀ t ∈ items.flatMap Item.tokens, t.Settled := by
    intro t ht
    obtain ⟨i, hi, ht⟩ := List.mem_flatMap.mp ht
    exact hl.forall_mem hlabel hP i hi t ht
  cases f with
  | data position items =>
    exact List.forall_mem_cons.mpr ⟨⟨rfl, by rintro ⟨⟩⟩, hitems (fun _ h => h.settled) h⟩
  | code position items =>
    exact List.forall_mem_cons.mpr ⟨⟨rfl, by rintro ⟨⟩⟩, hitems (fun _ h => h.settled) h⟩
  | inclusion position path =>
    simp [tokens, Lexeme.token, Token.Settled, Token.kept, Token.Folded, Kind.isMark, Kind.isDirective]

namespace Program
variable {table : InstructionTable} {p q : Program} {ts : List Token}

/-- The tree is one that the grammar allows. -/
def Formed (table : InstructionTable) (p : Program) : Prop := ∀ f ∈ p.fields, f.Formed table

/-- What the tokens of a program say, one after the other. -/
def flattening (p : Program) : List (Kind × Text) := p.tokens.map Token.written

theorem formed_unplaced : p.unplaced.Formed table ↔ p.Formed table := by
  simp only [Formed, unplaced, List.forall_mem_map, Field.formed_unplaced]

theorem Formed.settled (h : p.Formed table) : ∀ t ∈ p.tokens, t.Settled := by
  intro t ht
  obtain ⟨f, hf, ht⟩ := List.mem_flatMap.mp ht
  exact (h f hf).settled t ht

theorem Formed.map_bare (h : p.Formed table) : p.tokens.map Token.bare = p.unplaced.tokens := by
  rw [tokens_unplaced]
  exact List.map_congr_left fun t ht => by rw [Token.bare, (h.settled t ht).1]

theorem flattening_unplaced : p.unplaced.flattening = p.flattening := by
  rw [flattening, flattening, tokens_unplaced, List.map_map]
  rfl

/-- The tokens of a tree that the grammar allows are read as that tree. -/
theorem ofTokens_tokens (h : p.Formed table) :
    ofTokens table p.tokens = .ok ⟨(TokenStream.ofList p.tokens).peek.position, p.fields⟩ := by
  have hend : Token.beforeEnd p.tokens = p.tokens :=
    List.takeWhile_eq_self_iff.mpr fun t ht => decide_eq_true (p.kind_tokens t ht)
  refine (ofTokens_eq_ok fun t ht => (h.settled t ht).2).mpr ⟨rfl, h, ?_⟩
  rw [hend]
  exact (List.map_congr_left fun t ht => (h.settled t ht).1).trans (List.map_id _)

/-- No two trees have the same flattening. -/
theorem unplaced_eq_of_flattening (hp : p.Formed table) (hq : q.Formed table)
    (h : p.flattening = q.flattening) : p.unplaced = q.unplaced := by
  have htok : p.unplaced.tokens = q.unplaced.tokens := by
    rw [← hp.map_bare, ← hq.map_bare]
    exact Token.map_bare_eq (Token.map_reading_eq_iff.mpr h)
  have hp' := ofTokens_tokens (formed_unplaced.mpr hp)
  have hq' := ofTokens_tokens (formed_unplaced.mpr hq)
  rw [htok, hq'] at hp'
  have hfields : q.unplaced.fields = p.unplaced.fields := (Program.mk.inj (Except.ok.inj hp')).2
  exact congrArg (Program.mk {}) hfields.symm

theorem flattening_eq_of_ofTokens (hf : ∀ t ∈ ts, t.Folded) (h : ofTokens table ts = .ok p) :
    p.Formed table ∧ (Token.beforeEnd ts).map Token.written = p.flattening := by
  obtain ⟨-, hform, htok⟩ := (ofTokens_eq_ok hf).mp h
  refine ⟨hform, ?_⟩
  rw [flattening, ← htok, List.map_map]
  exact List.map_congr_left fun t _ => t.written_kept.symm

/-- Tokens that say what some tree does form a program. Without their places they are read as the
tree without its places, and reading them where they stand cannot fail either. -/
theorem exists_ofTokens_of_flattening (hf : ∀ t ∈ ts, t.Folded) (hp : p.Formed table)
    (h : (Token.beforeEnd ts).map Token.written = p.flattening) : ∃ q, ofTokens table ts = .ok q := by
  have hbare : ofTokens table (ts.map Token.bare) =
      .ok ⟨(TokenStream.ofList (ts.map Token.bare)).peek.position, p.unplaced.fields⟩ := by
    have hfold : ∀ t ∈ ts.map Token.bare, t.Folded := by
      intro t ht
      obtain ⟨u, hu, rfl⟩ := List.mem_map.mp ht
      exact u.folded_bare (hf u hu)
    refine (ofTokens_eq_ok hfold).mpr ⟨rfl, formed_unplaced.mpr hp, ?_⟩
    calc (Token.beforeEnd (ts.map Token.bare)).map Token.kept
        = ((Token.beforeEnd ts).map Token.bare).map Token.kept := by rw [Token.beforeEnd_map_bare]
      _ = (Token.beforeEnd ts).map Token.bare := by
        rw [List.map_map]
        exact List.map_congr_left fun t _ => t.kept_bare
      _ = p.tokens.map Token.bare := Token.map_bare_eq (Token.map_reading_eq_iff.mpr h)
      _ = p.unplaced.tokens := hp.map_bare
  have hrun := exists_ofTokens_eq_ok.mp ⟨_, hbare⟩
  refine exists_ofTokens_eq_ok.mpr ((Automaton.run_map_eq_ok Token.kind_bare fun t ht => ?_).mp hrun)
  exact t.value_bare (by rw [ht]; rfl) (by rw [ht]; rfl)

theorem exists_ofTokens_iff (hf : ∀ t ∈ ts, t.Folded) :
    (∃ q, ofTokens table ts = .ok q ∧ q.unplaced = p.unplaced) ↔
      p.Formed table ∧ (Token.beforeEnd ts).map Token.written = p.flattening := by
  constructor
  · rintro ⟨q, hq, he⟩
    obtain ⟨hform, hread⟩ := flattening_eq_of_ofTokens hf hq
    refine ⟨formed_unplaced.mp (he ▸ formed_unplaced.mpr hform), ?_⟩
    rw [hread, ← flattening_unplaced, he, flattening_unplaced]
  · rintro ⟨hp, h⟩
    obtain ⟨q, hq⟩ := exists_ofTokens_of_flattening hf hp h
    obtain ⟨hform, hread⟩ := flattening_eq_of_ofTokens hf hq
    exact ⟨q, hq, unplaced_eq_of_flattening hform hp (hread.symm.trans h)⟩

/-- A list of tokens is read as a program exactly if its tokens up to the end are those of a tree that the
grammar allows, where the values of marks and directives do not count. This is so with the places, which
the tree takes from the tokens, and without them. There is then one tree only, and a tree is read back from
its own tokens. Where the directives are spelled as their kinds are named, their values may count as well. -/
theorem ofTokens_exact (table : InstructionTable) (ts : List Token) (hf : ∀ t ∈ ts, t.Folded) (p : Program) :
    ((∃ q, ofTokens table ts = .ok q ∧ q.unplaced = p.unplaced) ↔
        p.Formed table ∧ (Token.beforeEnd ts).map Token.reading = p.tokens.map Token.reading) ∧
      (ofTokens table ts = .ok p ↔
        p.position = (TokenStream.ofList ts).peek.position ∧ p.Formed table ∧
          (Token.beforeEnd ts).map Token.kept = p.tokens) ∧
      (∀ q : Program, p.Formed table → q.Formed table → q.flattening = p.flattening → q.unplaced = p.unplaced) ∧
      (p.Formed table →
        ofTokens table p.tokens = .ok { p with position := (TokenStream.ofList p.tokens).peek.position }) ∧
      ((∀ t ∈ Token.beforeEnd ts, t.kind.isDirective → t.kind.name? = some t.value) →
        ((∃ q, ofTokens table ts = .ok q ∧ q.unplaced = p.unplaced) ↔
          p.Formed table ∧ (Token.beforeEnd ts).map Token.pair = p.flattening)) := by
  refine ⟨?_, ofTokens_eq_ok hf, fun q hp hq h => unplaced_eq_of_flattening hq hp h, ofTokens_tokens, fun h => ?_⟩
  · rw [exists_ofTokens_iff hf, Token.map_reading_eq_iff]
    rfl
  · have hpair : (Token.beforeEnd ts).map Token.pair = (Token.beforeEnd ts).map Token.written :=
      List.map_congr_left fun t ht => (t.written_eq_pair (h t ht)).symm
    rw [exists_ofTokens_iff hf, hpair]

theorem ofTokens_exact_loop :
    let ts : List Token := [{ kind := .inst }, { kind := .label, value := lit "_a" }, { kind := .colon },
      { kind := .mnemonic, value := lit "jump" }, { kind := .label, value := lit "_a" },
      { kind := .endOfFile }, { kind := .comma }]
    (∀ t ∈ ts, t.Folded) ∧ ofTokens .empty ts = .ok ⟨{}, [.code {} [.label ⟨{}, lit "_a"⟩,
      .pseudo {} (.jump (.label ⟨{}, lit "_a"⟩))]]⟩ := by
  intro ts
  have hf : ∀ t ∈ ts, t.Folded := by
    intro t ht
    simp only [ts, List.mem_cons, List.not_mem_nil, or_false] at ht
    rcases ht with rfl | rfl | rfl | rfl | rfl | rfl | rfl
    case inr.inr.inr.inl => exact fun _ => by decide +kernel
    all_goals exact nofun
  have hform : Field.Formed .empty (.code {} [.label ⟨{}, lit "_a"⟩,
      .pseudo {} (.jump (.label ⟨{}, lit "_a"⟩))]) := .labelled _ (.pseudo _ trivial) .nil
  exact ⟨hf, (ofTokens_exact .empty ts hf _).2.1.mpr ⟨rfl, List.forall_mem_singleton.mpr hform, rfl⟩⟩

/-- A field is opened by its directive whatever value that has, so that tokens are read as a program which are
the flattening of none. -/
theorem ofTokens_misspelled :
    let ts : List Token := [{ kind := .data, value := lit "junk" }]
    (∀ t ∈ ts, t.Folded) ∧ ofTokens .empty ts = .ok ⟨{}, [.data {} []]⟩ ∧
      ¬ ∃ p : Program, (Token.beforeEnd ts).map Token.pair = p.flattening := by
  intro ts
  have hf : ∀ t ∈ ts, t.Folded := List.forall_mem_singleton.mpr (by rintro ⟨⟩)
  have hform : Field.Formed .empty (.data {} []) := .nil
  refine ⟨hf, (ofTokens_eq_ok hf).mpr ⟨rfl, List.forall_mem_singleton.mpr hform, rfl⟩, ?_⟩
  rintro ⟨p, hp⟩
  have hmem : (.data, lit "junk") ∈ p.flattening := by
    rw [← hp]
    exact List.mem_singleton_self _
  obtain ⟨t, -, ht⟩ := List.mem_map.mp hmem
  -- a directive is written as nothing but its name
  have hkind : t.kind = .data := t.fst_written.symm.trans (congrArg Prod.fst ht)
  rw [Token.written, hkind, if_pos (by decide)] at ht
  exact absurd (Prod.mk.inj ht).2 (by decide)

end Program
end AccAsm
