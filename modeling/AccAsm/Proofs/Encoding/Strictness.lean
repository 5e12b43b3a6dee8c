import AccAsm.Proofs.Encoding.Labels

/-! # Strict encoding

Strict encoding checks the register operands of a program once more, and does nothing else differently.
`Tightens ops x y` says so of a computation `x` and its strict variant `y` that go through the operands
`ops`: without a register of a fixed role among them the two are the same, and with one `y` is refused.
The relation follows a computation step by step up to the encoding of a program (`encode_tightens`);
registers that a lowered sequence uses on its own account are no operands and are never refused.

The cells of an encoded program carry its labels in the order of their declarations
(`labels_encode`). -/

namespace AccAsm

/-- A general register that has a role of its own. -/
def Operand.IsFixed : Operand → Prop
  | register reg => reg.index ∈ [0, 1, 14, 15]
  | _ => False

def EncodeError.IsReserved : EncodeError → Prop
  | reservedRegister .. => True
  | _ => False

/-- The operands of all items, in order. -/
def Program.operands (p : Program) : List Operand := p.items.flatMap Item.operands

namespace Encoding
variable {α β : Type} {ops ops' : List Operand} {x y : Encoding α} {context : Text}

/-- Going through the operands, `y` refuses registers of a fixed role, and is otherwise the same as
`x`. -/
structure Tightens (ops : List Operand) (x y : Encoding α) : Prop where
  same : (∀ o ∈ ops, ¬ o.IsFixed) → y = x
  /-- Something else may have been refused before, but then `x` fails too. -/
  refused : (∃ o ∈ ops, o.IsFixed) →
    ∃ f, y = .error f ∧ ∀ a, x = .ok a → ∃ e, f = .error e ∧ e.IsReserved

theorem tightens_self (h : ∀ o ∈ ops, ¬ o.IsFixed) (x : Encoding α) : Tightens ops x x where
  same _ := rfl
  refused := by
    rintro ⟨o, ho, hf⟩
    exact absurd hf (h o ho)

theorem tightens_nil (x : Encoding α) : Tightens [] x x := tightens_self (by simp) x

theorem Tightens.bind {f g : α → Encoding β} (hx : Tightens ops x y)
    (hf : ∀ a, Tightens ops' (f a) (g a)) : Tightens (ops ++ ops') (x >>= f) (y >>= g) where
  same h := by
    obtain ⟨h, h'⟩ := List.forall_mem_append.mp h
    rw [hx.same h, funext fun a => (hf a).same h']
  refused h := by
    by_cases hops : ∃ o ∈ ops, o.IsFixed
    · obtain ⟨failure, rfl, hreserved⟩ := hx.refused hops
      refine ⟨failure, rfl, fun b hb => ?_⟩
      obtain ⟨a, ha, -⟩ := except_bind_eq_ok.mp hb
      exact hreserved a ha
    · have hnone : ∀ o ∈ ops, ¬ o.IsFixed := fun o ho hf => hops ⟨o, ho, hf⟩
      have hops' : ∃ o ∈ ops', o.IsFixed := by
        obtain ⟨o, ho, hf⟩ := h
        exact ⟨o, (List.mem_append.mp ho).resolve_left fun ho => hnone o ho hf, hf⟩
      rw [hx.same hnone]
      cases x with
      | error failure => exact ⟨failure, rfl, fun b hb => nomatch hb⟩
      | ok a => exact (hf a).refused hops'

theorem Tightens.map (hx : Tightens ops x y) (f : α → Encoding β) :
    Tightens ops (x >>= f) (y >>= f) := by
  have h := hx.bind fun a => tightens_nil (f a)
  rwa [List.append_nil] at h

theorem Tightens.foldlM {γ : Type} {g : γ → List Operand} {f f' : β → γ → Encoding β} {l : List γ}
    (h : ∀ c ∈ l, ∀ b, Tightens (g c) (f b c) (f' b c)) (b : β) :
    Tightens (l.flatMap g) (l.foldlM f b) (l.foldlM f' b) := by
  induction l generalizing b with
  | nil => exact tightens_nil _
  | cons c l ih =>
    obtain ⟨hc, hl⟩ := List.forall_mem_cons.mp h
    rw [List.foldlM_cons, List.foldlM_cons, List.flatMap_cons]
    exact (hc b).bind fun b' => ih hl b'

/-! ### Operands -/

theorem register_tightens {reg : Lexeme} (hs : Kind.register.Spells reg.text) :
    Tightens [.register reg] (register false reg context) (register true reg context) := by
  obtain ⟨ds, ht, hd⟩ := hs
  unfold register
  rw [registerIndex_eq ht hd (by decide)]
  by_cases hle : reg.index ≤ 15
  · have hbind (f : Nat → Encoding UInt16) : (Except.ok reg.index >>= f) = f reg.index := rfl
    rw [if_pos hle, hbind, hbind]
    cases hrole : fixedRole? reg.index with
    | none =>
      have hfixed : ¬ (Operand.register reg).IsFixed := fixedRole?_eq_none.mp hrole
      exact tightens_self (List.forall_mem_singleton.mpr hfixed) _
    | some role =>
      have hfixed : (Operand.register reg).IsFixed := by
        by_contra hn
        rw [fixedRole?_eq_none.mpr hn] at hrole
        cases hrole
      refine ⟨fun h => absurd hfixed (h _ (.head _)), fun _ => ⟨_, rfl, fun _ _ => ⟨_, rfl, trivial⟩⟩⟩
  · have hfixed : ¬ (Operand.register reg).IsFixed := by
      simp only [Operand.IsFixed, List.mem_cons, List.not_mem_nil, or_false]
      omega
    rw [if_neg hle]
    exact tightens_self (List.forall_mem_singleton.mpr hfixed) _

theorem accumulator_tightens (reg : Lexeme) :
    Tightens [.accumulator reg] (accumulator reg context) (accumulator reg context) :=
  tightens_self (List.forall_mem_singleton.mpr id) _

theorem number_tightens (n : Lexeme) (width : Nat) :
    Tightens [.number width n] (number n width context) (number n width context) :=
  tightens_self (List.forall_mem_singleton.mpr id) _

/-! ### Items -/

theorem fields_tightens {operands : Operands} (hs : ∀ t ∈ operands.tokens, t.Legible) (mnemonic : Text) :
    Tightens operands.list (fields false mnemonic operands) (fields true mnemonic operands) := by
  cases operands with simp only [Operands.tokens, Lexeme.pair, Lexeme.mixed, List.cons_append,
    List.nil_append, List.forall_mem_cons] at hs
  | n => exact tightens_nil _
  | r ac rf₁ rf₂ =>
    obtain ⟨-, -, hrf₁, -, hrf₂, -⟩ := hs
    exact (accumulator_tightens ac).bind fun _ => (register_tightens (hrf₁ rfl rfl)).bind fun _ =>
      (register_tightens (hrf₂ rfl rfl)).map _
  | i ac imm => exact (accumulator_tightens ac).bind fun _ => (number_tightens imm 8).map _
  | s ac rf imm =>
    obtain ⟨-, -, hrf, -⟩ := hs
    exact (accumulator_tightens ac).bind fun _ => (register_tightens (hrf rfl rfl)).bind fun _ =>
      (number_tightens imm 4).map _
  | j imm => exact (number_tightens imm 10).map _
  | e1 ac rf =>
    obtain ⟨-, -, hrf, -⟩ := hs
    exact (accumulator_tightens ac).bind fun _ => (register_tightens (hrf rfl rfl)).map _
  | e2 rf => exact (register_tightens (hs.1 rfl rfl)).map _
  | e3 ac => exact (accumulator_tightens ac).map _
  | e4 rf => exact (register_tightens (hs.1 rfl rfl)).map _

theorem lower_tightens {p : Pseudo} (hs : ∀ t ∈ p.tokens, t.Legible) (position : Position) :
    Tightens p.operands (lower false position p) (lower true position p) := by
  have pair {a b : Lexeme} (hs : ∀ t ∈ Lexeme.pair a b, t.Legible) {context : Text} :
      Tightens [.register a, .register b] (registerOperands false context a b)
        (registerOperands true context a b) :=
    (register_tightens (hs _ (.head _) rfl rfl)).bind fun _ =>
      (register_tightens (hs _ (.tail _ (.tail _ (.head _))) rfl rfl)).map _
  cases p with
  | jump target =>
    cases target with
    | number n => exact (number_tightens n 16).map _
    | label name | other part => exact tightens_nil _
  | mul a b | div a b | swap a b => exact (pair hs).map _
  | load ac label offset | store ac label offset =>
    exact (accumulator_tightens ac).bind fun _ => (number_tightens offset 8).map _

theorem not_isFixed_data (d : Data) : ∀ o ∈ d.operands, ¬ o.IsFixed := by
  cases d <;> simp [Data.operands, Operand.IsFixed]

theorem item_tightens {table : InstructionTable} {i : Item} (hi : i.Sound table) :
    Tightens i.operands (item table false i) (item table true i) := by
  obtain ⟨⟨name, rfl⟩ | hdata | hcode, htok⟩ := hi
  · exact tightens_nil _
  · obtain ⟨position, -⟩ := hdata
    exact tightens_self (not_isFixed_data _) _
  · cases hcode with
    | @instruction position mnemonic operands _ _ _ =>
      have hfields := fields_tightens (fun t h => htok t (.tail _ h)) mnemonic
      exact (tightens_nil (opcodeField table position mnemonic operands.format)).bind fun _ => hfields.map _
    | pseudo position hp => exact (lower_tightens (fun t h => htok t (.tail _ h)) position).map _

end Encoding

open Encoding (Tightens tightens_nil)

/-- Strict encoding of a program refuses registers of a fixed role, and is otherwise the same. -/
theorem Program.encode_tightens {table : InstructionTable} {p : Program}
    (hp : ∀ f ∈ p.fields, f.Sound table ∧ f.isInclusion = false) :
    Tightens p.operands (p.encode table false) (p.encode table true) := by
  have hn : ∀ f ∈ p.fields, f.isInclusion = false := fun f hf => (hp f hf).2
  have hitem : ∀ i ∈ p.items, ∀ e : Emission, Tightens i.operands (e.item table false i) (e.item table true i) := by
    intro i hi e
    obtain ⟨f, hf, hif⟩ := List.mem_flatMap.mp hi
    cases hl : i.isLabel with
    | true =>
      cases i with
      | label name => exact tightens_nil _
      | data position d | instruction position mnemonic o | pseudo position q => cases hl
    | false =>
      rw [Emission.item_eq hl, Emission.item_eq hl]
      exact (Encoding.item_tightens ((hp f hf).1.items i hif)).map _
  rw [encode_eq hn, encode_eq hn]
  exact (Tightens.foldlM hitem {}).map _

/-! ### Labels -/

/-- The cells of a program carry the labels that it declares, in order. -/
theorem Program.labels_encode {table : InstructionTable} {p : Program} {strict : Bool} {cells : List Cell}
    (hp : ∀ f ∈ p.fields, f.Sound table ∧ f.isInclusion = false) (h : p.encode table strict = .ok cells) :
    (cells.map Cell.label).filter (· ≠ []) = p.declared := by
  have hitems : ∀ i ∈ p.items, i.Sound table := by
    intro i hi
    obtain ⟨f, hf, hi⟩ := List.mem_flatMap.mp hi
    exact (hp f hf).1.items i hi
  have hnames : p.declared.filter (· ≠ []) = p.declared := by
    rw [List.filter_eq_self]
    intro label hl
    obtain ⟨i, hi, hlabel⟩ := List.mem_filterMap.mp hl
    cases i with
    | label name =>
      cases hlabel
      obtain ⟨rest, hname, -⟩ := (hitems _ hi).2 (name.token .label) (.head _) rfl rfl
      have hname : name.text = Text.byte '_' :: rest := hname
      simp [hname]
    | data position d | instruction position mnemonic o | pseudo position q => cases hlabel
  have hplaces := congrArg (List.map Prod.fst) (labelled_encode (fun f hf => (hp f hf).2) h)
  rw [Cell.map_fst_labelled] at hplaces
  rw [hplaces, ← hnames, declared, ← Item.map_fst_places table strict 0, List.filter_map]
  rfl

end AccAsm
