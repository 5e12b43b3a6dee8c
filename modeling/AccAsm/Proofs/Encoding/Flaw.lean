import AccAsm.Proofs.Encoding.Item

/-! # Operands that do not fit

Every operand has a condition of its own (`Operand.Fits`) and an error for it (`Operand.error`). Encoding
an item checks its operands from left to right: the first one that does not fit is blamed, and if all fit
the item is encoded (`item_judged`). -/

namespace AccAsm
open Text (lit)

/-- An operand, and what it is for. -/
inductive Operand where
  | accumulator (reg : Lexeme)
  | register (reg : Lexeme)
  /-- A number for a field of `width` bits. -/
  | number (width : Nat) (n : Lexeme)
  /-- The size of some space. -/
  | count (n : Lexeme)
  | character (literal : Lexeme) (c : Char)

namespace Operand

/-- What is asked of an operand. -/
def Fits (strict : Bool) : Operand → Prop
  | accumulator reg => reg.index ∈ [0, 2, 3]
  | register reg => reg.index ≤ 15 ∧ (strict → reg.index ∉ [0, 1, 14, 15])
  | number width n => (Numeral.value n.text).natAbs < 2 ^ width
  | count n => 0 ≤ Numeral.value n.text ∧ Numeral.value n.text ≤ 65536
  | character _ c => c.toNat ≤ 0xFF

instance decidableFits (strict : Bool) : (o : Operand) → Decidable (o.Fits strict)
  | accumulator reg => inferInstanceAs (Decidable (reg.index ∈ [0, 2, 3]))
  | register reg =>
    inferInstanceAs (Decidable (reg.index ≤ 15 ∧ (strict → reg.index ∉ [0, 1, 14, 15])))
  | number width n => inferInstanceAs (Decidable ((Numeral.value n.text).natAbs < 2 ^ width))
  | count n => inferInstanceAs (Decidable (0 ≤ Numeral.value n.text ∧ Numeral.value n.text ≤ 65536))
  | character _ c => inferInstanceAs (Decidable (c.toNat ≤ 0xFF))

/-- The error of an operand that does not fit. -/
def error (context : Text) : Operand → EncodeError
  | accumulator reg =>
    if reg.index = 1 then
      .reservedRegister reg.position context reg.text (lit "reserved for the assembler")
    else .registerOutOfRange reg.position context reg.text 3
  | register reg =>
    match Encoding.fixedRole? reg.index with
    | some role => .reservedRegister reg.position context reg.text role
    | none => .registerOutOfRange reg.position context reg.text 15
  | number width n => .numberOutOfBounds n.position context width n.text
  | count n => .numberOutOfBounds n.position context 16 n.text
  | character literal c => .numberOutOfBounds literal.position context 8 (Quoted.quoteChar c)

def flaw? (strict : Bool) (context : Text) (o : Operand) : Option EncodeError :=
  if o.Fits strict then none else some (o.error context)

end Operand

/-! ### Operands of items -/

def Operands.list : Operands → List Operand
  | n => []
  | r ac rf₁ rf₂ => [.accumulator ac, .register rf₁, .register rf₂]
  | i ac imm => [.accumulator ac, .number 8 imm]
  | s ac rf imm => [.accumulator ac, .register rf, .number 4 imm]
  | j imm => [.number 10 imm]
  | e1 ac rf => [.accumulator ac, .register rf]
  | e2 rf => [.register rf]
  | e3 ac => [.accumulator ac]
  | e4 rf => [.register rf]

def Pseudo.operands : Pseudo → List Operand
  | jump (.number n) => [.number 16 n]
  | jump _ => []
  | mul a b | div a b | swap a b => [.register a, .register b]
  | load ac _ offset | store ac _ offset => [.accumulator ac, .number 8 offset]

def Data.operands : Data → List Operand
  | space count => [.count count]
  | words values => values.map (.number 16)
  | bytes values => values.map (.number 8)
  | ascii literal => ((Quoted.unquote? literal.text).map Utf8.chars).getD [] |>.map (.character literal)

/-- The directive of some data. -/
def Data.context : Data → Text
  | space _ => lit ".space"
  | words _ => lit ".word"
  | bytes _ => lit ".byte"
  | ascii _ => lit ".ascii"

def Item.operands : Item → List Operand
  | label _ => []
  | data _ d => d.operands
  | instruction _ _ operands => operands.list
  | pseudo _ p => p.operands

/-- What errors of an item's operands refer to. -/
def Item.context : Item → Text
  | label name => name.text
  | data _ d => d.context
  | instruction _ mnemonic _ => mnemonic
  | pseudo _ p => p.name

/-- The error of the first operand that does not fit. -/
def Item.flaw? (strict : Bool) (i : Item) : Option EncodeError :=
  i.operands.findSome? (Operand.flaw? strict i.context)

theorem Item.flaw?_eq_none {strict : Bool} {i : Item} :
    i.flaw? strict = none ↔ ∀ o ∈ i.operands, o.Fits strict := by
  simp [flaw?, Operand.flaw?, List.findSome?_eq_none_iff]

theorem Item.flaw?_eq_some {strict : Bool} {i : Item} {e : EncodeError} :
    i.flaw? strict = some e ↔ ∃ ops o rest, i.operands = ops ++ o :: rest ∧ (∀ o' ∈ ops, o'.Fits strict) ∧
      ¬ o.Fits strict ∧ e = o.error i.context := by
  have none_iff (o : Operand) : o.flaw? strict i.context = none ↔ o.Fits strict := by simp [Operand.flaw?]
  have some_iff (o : Operand) :
      o.flaw? strict i.context = some e ↔ ¬ o.Fits strict ∧ e = o.error i.context := by
    simp [Operand.flaw?, eq_comm]
  simp only [flaw?, List.findSome?_eq_some_iff, none_iff, some_iff]
  constructor
  · rintro ⟨ops, o, rest, hl, ⟨ho, he⟩, hops⟩
    exact ⟨ops, o, rest, hl, hops, ho, he⟩
  · rintro ⟨ops, o, rest, hl, hops, ho, he⟩
    exact ⟨ops, o, rest, hl, ⟨ho, he⟩, hops⟩

namespace Encoding
open Failure (Meets)
variable {α β γ : Type} {flaw? : Option EncodeError}

/-- `x` fails with the given error and only then. -/
def Judged (flaw? : Option EncodeError) (x : Encoding α) : Prop :=
  match flaw? with
  | none => ∃ a, x = .ok a
  | some e => x = .error (.error e)

theorem judged_ok (a : α) : Judged none (.ok a : Encoding α) := ⟨a, rfl⟩

theorem Judged.bind {x : Encoding α} {f : α → Encoding β} (hx : Judged flaw? x)
    {rest : Option EncodeError} (hf : ∀ a, x = .ok a → Judged rest (f a)) :
    Judged (flaw?.or rest) (x >>= f) := by
  cases flaw? with
  | none =>
    obtain ⟨a, rfl⟩ := hx
    exact hf a rfl
  | some e =>
    have hx : x = .error (.error e) := hx
    rw [hx]
    exact rfl

/-- What follows is known to end without a fault, and has no error of its own. -/
theorem Judged.bind_of_meets {x : Encoding α} {f : α → Encoding β} {P : EncodeError → Prop} {Q : β → Prop}
    (hx : Judged flaw? x) (hm : Meets P Q (x >>= f)) (hf : ∀ a e, f a ≠ .error (.error e)) :
    Judged flaw? (x >>= f) := by
  cases flaw? with
  | none =>
    obtain ⟨a, rfl⟩ := hx
    cases hfa : f a with
    | ok b => exact ⟨b, hfa⟩
    | error g =>
      obtain ⟨e, rfl, -⟩ := hm.only g hfa
      exact absurd hfa (hf a e)
  | some e =>
    have hx : x = .error (.error e) := hx
    rw [hx]
    exact rfl

theorem Judged.cons {g : γ → Option EncodeError} {c : γ} {rest : List γ} {x : Encoding α} {f : α → Encoding β}
    (hx : Judged (g c) x) (hf : ∀ a, Judged (rest.findSome? g) (f a)) :
    Judged ((c :: rest).findSome? g) (x >>= f) := by
  have h := hx.bind fun a _ => hf a
  rw [List.findSome?_cons]
  cases hg : g c with
  | none => rwa [hg, Option.none_or] at h
  | some e => rwa [hg, Option.some_or] at h

theorem Judged.map {x : Encoding α} (hx : Judged flaw? x) (f : α → β) :
    Judged flaw? (x >>= fun a => pure (f a)) := by
  have h := hx.bind fun a _ => judged_ok (f a)
  rwa [Option.or_none] at h

theorem Judged.mapM {g : γ → Option EncodeError} {f : γ → Encoding α} {l : List γ}
    (h : ∀ c ∈ l, Judged (g c) (f c)) : Judged (l.findSome? g) (l.mapM f) := by
  induction l with
  | nil => exact judged_ok _
  | cons c l ih =>
    obtain ⟨hc, hl⟩ := List.forall_mem_cons.mp h
    rw [List.mapM_cons]
    exact hc.cons fun b => (ih hl).map _

theorem judged_operand {o : Operand} {strict : Bool} {context : Text} {x : Encoding α}
    (hok : o.Fits strict → ∃ a, x = .ok a) (herr : ¬ o.Fits strict → x = fail (o.error context)) :
    Judged (o.flaw? strict context) x := by
  unfold Operand.flaw?
  split
  next h => exact hok h
  next h => exact herr h

/-! ### Single operands -/

section Operands
variable {strict : Bool} {context : Text}

theorem number_judged {n : Lexeme} (hs : Kind.number.Spells n.text) {width : Nat} (h₁ : 1 ≤ width)
    (h₁₆ : width ≤ 16) : Judged ((Operand.number width n).flaw? strict context) (number n width context) := by
  rw [number_eq hs]
  exact judged_operand (fun hf => ⟨_, if_pos ⟨h₁, h₁₆, hf⟩⟩) fun hf => if_neg fun h => hf h.2.2

theorem space_judged {count : Lexeme} (hs : Kind.number.Spells count.text) (position : Position) :
    Judged ((Operand.count count).flaw? strict (lit ".space")) (space position count) := by
  rw [space_eq hs]
  exact judged_operand (fun hf => ⟨_, if_pos hf⟩) fun hf => if_neg hf

theorem accumulator_judged {reg : Lexeme} (hs : Kind.accumulator.Spells reg.text) :
    Judged ((Operand.accumulator reg).flaw? strict context) (accumulator reg context) := by
  obtain ⟨ds, ht, hd⟩ := hs
  unfold accumulator
  rw [registerIndex_eq ht hd (by decide)]
  refine judged_operand (fun hf => ?_) (fun hf => ?_)
  · have hf : reg.index ∈ [0, 2, 3] := hf
    simp only [List.mem_cons, List.not_mem_nil, or_false] at hf
    rw [if_pos (by omega)]
    exact ⟨_, if_neg (by simp only [scratch]; omega)⟩
  · have hf : reg.index ∉ [0, 2, 3] := hf
    simp only [List.mem_cons, List.not_mem_nil, or_false] at hf
    by_cases hr : reg.index = 1
    · rw [if_pos (by omega), Operand.error, if_pos hr]
      exact if_pos hr
    · rw [if_neg (by omega), Operand.error, if_neg hr]
      rfl

theorem fixedRole?_eq_none {index : Nat} : fixedRole? index = none ↔ index ∉ [0, 1, 14, 15] := by
  unfold fixedRole?
  split <;> simp_all

theorem register_judged {reg : Lexeme} (hs : Kind.register.Spells reg.text) :
    Judged ((Operand.register reg).flaw? strict context) (register strict reg context) := by
  obtain ⟨ds, ht, hd⟩ := hs
  unfold register
  rw [registerIndex_eq ht hd (by decide)]
  by_cases hle : reg.index ≤ 15
  · have hbind (f : Nat → Encoding UInt16) : (Except.ok reg.index >>= f) = f reg.index := rfl
    rw [if_pos hle, hbind]
    cases hrole : fixedRole? reg.index with
    | none =>
      refine judged_operand (fun _ => ⟨_, rfl⟩) fun hf => absurd ?_ hf
      exact ⟨hle, fun _ => fixedRole?_eq_none.mp hrole⟩
    | some role =>
      have hfixed : reg.index ∈ [0, 1, 14, 15] := by
        by_contra hn
        rw [fixedRole?_eq_none.mpr hn] at hrole
        cases hrole
      cases strict with
      | false => exact judged_operand (fun _ => ⟨_, rfl⟩) fun hf => absurd ⟨hle, nofun⟩ hf
      | true =>
        refine judged_operand (fun hf => absurd hfixed (hf.2 rfl)) fun _ => ?_
        simp only [Operand.error, hrole]
        rfl
  · have hrole : fixedRole? reg.index = none := fixedRole?_eq_none.mpr (by simp; omega)
    refine judged_operand (fun hf => absurd hf.1 hle) fun _ => ?_
    rw [if_neg hle, Operand.error, hrole]
    rfl

end Operands

/-! ### Items -/

section Items
variable {strict : Bool}

theorem fields_judged {operands : Operands} (hs : ∀ t ∈ operands.tokens, t.Legible) (mnemonic : Text) :
    Judged (operands.list.findSome? (Operand.flaw? strict mnemonic)) (fields strict mnemonic operands) := by
  cases operands with simp only [Operands.tokens, Lexeme.pair, Lexeme.mixed, List.cons_append,
    List.nil_append, List.forall_mem_cons] at hs
  | n => exact judged_ok _
  | r ac rf₁ rf₂ =>
    obtain ⟨hac, -, hrf₁, -, hrf₂, -⟩ := hs
    exact (accumulator_judged (hac rfl rfl)).cons fun _ => (register_judged (hrf₁ rfl rfl)).cons fun _ =>
      (register_judged (hrf₂ rfl rfl)).cons fun _ => judged_ok _
  | i ac imm =>
    obtain ⟨hac, -, himm, -⟩ := hs
    exact (accumulator_judged (hac rfl rfl)).cons fun _ =>
      (number_judged (himm rfl rfl) (by decide) (by decide)).cons fun _ => judged_ok _
  | s ac rf imm =>
    obtain ⟨hac, -, hrf, -, himm, -⟩ := hs
    exact (accumulator_judged (hac rfl rfl)).cons fun _ => (register_judged (hrf rfl rfl)).cons fun _ =>
      (number_judged (himm rfl rfl) (by decide) (by decide)).cons fun _ => judged_ok _
  | j imm => exact (number_judged (hs.1 rfl rfl) (by decide) (by decide)).cons fun _ => judged_ok _
  | e1 ac rf =>
    obtain ⟨hac, -, hrf, -⟩ := hs
    exact (accumulator_judged (hac rfl rfl)).cons fun _ => (register_judged (hrf rfl rfl)).cons fun _ =>
      judged_ok _
  | e2 rf => exact (register_judged (hs.1 rfl rfl)).cons fun _ => judged_ok _
  | e3 ac => exact (accumulator_judged (hs.1 rfl rfl)).cons fun _ => judged_ok _
  | e4 rf => exact (register_judged (hs.1 rfl rfl)).cons fun _ => judged_ok _

theorem lower_judged {p : Pseudo} (hp : p.Formed) (hs : ∀ t ∈ p.tokens, t.Legible) (position : Position) :
    Judged (p.operands.findSome? (Operand.flaw? strict p.name)) (lower strict position p) := by
  have pair {a b : Lexeme} (hs : ∀ t ∈ Lexeme.pair a b, t.Legible) {context : Text} :
      Judged ([Operand.register a, .register b].findSome? (Operand.flaw? strict context))
        (registerOperands strict context a b) :=
    (register_judged (hs _ (.head _) rfl rfl)).cons fun _ =>
      (register_judged (hs _ (.tail _ (.tail _ (.head _))) rfl rfl)).cons fun _ => judged_ok _
  have memory {ac label offset : Lexeme} (hs : ∀ t ∈ Lexeme.memory ac label offset, t.Legible)
      {context access : Text} :
      Judged ([Operand.accumulator ac, .number 8 offset].findSome? (Operand.flaw? strict context))
        (memoryAccess context access ac label offset) :=
    (accumulator_judged (hs _ (.head _) rfl rfl)).cons fun _ =>
      (number_judged (hs (offset.token .number) (by simp [Lexeme.memory]) rfl rfl) (by decide)
        (by decide)).cons fun _ => judged_ok _
  cases p with
  | jump target =>
    cases target with
    | number n =>
      exact (number_judged (hs _ (.head _) rfl rfl) (by decide) (by decide)).cons fun _ => judged_ok _
    | label name => exact judged_ok _
    | other part => exact hp.elim
  | mul a b | div a b | swap a b => exact (pair hs).map _
  | load ac label offset | store ac label offset => exact memory hs

theorem pack_ne_error {position : Position} {ss : List Segment} {e : EncodeError} :
    pack position ss ≠ .error (.error e) := by
  intro h
  unfold pack ofFault at h
  cases hc : (Packer.ofList ss).cells position with
  | ok cells => rw [hc] at h; cases h
  | error f => rw [hc] at h; cases h

theorem numberFields_judged {values : List Lexeme} (hs : ∀ n ∈ values, Kind.number.Spells n.text)
    {width : UInt8} (h₁ : 1 ≤ width.toNat) (h₁₆ : width.toNat ≤ 16) {context : Text} :
    Judged (values.findSome? fun n => (Operand.number width.toNat n).flaw? strict context)
      (numberFields context width values) :=
  Judged.mapM fun n hn => (number_judged (hs n hn) h₁ h₁₆).map _

theorem data_judged {d : Data} (hs : ∀ t ∈ d.tokens, t.Legible) (position : Position) :
    Judged (d.operands.findSome? (Operand.flaw? strict d.context)) (data position d) := by
  have hmeets : Meets EncodeError.IsOperand (Encodes .builtin (.data position d)) (data position d) :=
    data_meets hs
  cases d with
  | space count =>
    rw [Data.operands, List.findSome?_singleton]
    exact space_judged (hs _ (.head _) rfl rfl) position
  | words values =>
    rw [Data.operands, List.findSome?_map]
    exact (numberFields_judged (spells_numbers hs) (by decide) (by decide)).bind_of_meets hmeets
      fun _ _ => pack_ne_error
  | bytes values =>
    rw [Data.operands, List.findSome?_map]
    exact (numberFields_judged (spells_numbers hs) (by decide) (by decide)).bind_of_meets hmeets
      fun _ _ => pack_ne_error
  | ascii literal =>
    obtain ⟨text, ht⟩ := Option.isSome_iff_exists.mp (hs _ (.head _) rfl rfl).2
    have ht : Quoted.unquote? literal.text = some text := ht
    simp only [Data.operands, data, ascii, ht, Option.map_some, Option.getD_some, List.findSome?_map] at hmeets ⊢
    refine Judged.bind_of_meets (Judged.mapM fun c _ => ?_) hmeets fun _ _ => pack_ne_error
    unfold charField
    refine judged_operand (fun hf => ?_) (fun hf => ?_)
    · exact ⟨_, if_pos hf⟩
    · exact if_neg hf

theorem instruction_judged {mnemonic : Text} {operands : Operands} {opcode : UInt8} {table : InstructionTable}
    (ht : table.find? mnemonic = some ⟨mnemonic, some operands.format, opcode⟩)
    (hs : ∀ t ∈ operands.tokens, t.Legible) (position : Position) :
    Judged (operands.list.findSome? (Operand.flaw? strict mnemonic))
      (instruction table strict position mnemonic operands) := by
  have hmeets : Meets EncodeError.IsOperand (Encodes table (.instruction position mnemonic operands))
      (instruction table strict position mnemonic operands) := instruction_meets ht hs strict
  have hop : opcodeField table position mnemonic operands.format = .ok (.ofValue opcode.toUInt16 6) := by
    rw [opcodeField, ht]
    exact if_pos rfl
  have hinst : instruction table strict position mnemonic operands =
      fields strict mnemonic operands >>= fun rest => pack position (.ofValue opcode.toUInt16 6 :: rest) := by
    rw [instruction, hop]
    rfl
  rw [hinst] at hmeets ⊢
  exact (fields_judged hs mnemonic).bind_of_meets hmeets fun _ _ => pack_ne_error

/-- The built-in table never lacks an instruction of a lowered sequence. -/
theorem pseudo_judged {p : Pseudo} (hp : p.Formed) (hs : ∀ t ∈ p.tokens, t.Legible) (position : Position) :
    Judged (p.operands.findSome? (Operand.flaw? strict p.name)) (pseudo .builtin strict position p) := by
  rw [← Option.or_none (o := p.operands.findSome? _)]
  refine (lower_judged hp hs position).bind fun sequence hseq => ?_
  have hlow := (lower_meets hp hs strict position).ok sequence hseq
  obtain ⟨_, -, hwidth⟩ := hlow.shows (fun _ => some 0) fun _ _ => rfl
  have hprim : ∀ q ∈ sequence, Failure.Only (fun _ => False) (primitive .builtin position q) := by
    intro q hq
    obtain ⟨_, -, -, hform⟩ := exists_of_forall₂ hwidth hq
    refine (primitive_meets hform).only.mono ?_
    rintro e ⟨found, -, hfound, hne⟩
    have hmem : (q.mnemonic, q.format) ∈ p.primitives :=
      hlow.primitives ▸ List.mem_map.mpr ⟨q, hq, rfl⟩
    exact hne (hfound.symm.trans (InstructionTable.builtin_primitives p _ hmem))
  obtain ⟨pieces, hpieces⟩ := (Failure.Only.mapM hprim).exists_ok
  exact ⟨pieces.flatten, by rw [hpieces]; rfl⟩

/-- A sound item is encoded if its operands fit, and otherwise refused for the first one that does
not. -/
theorem item_judged {i : Item} (hi : i.Sound .builtin) : Judged (i.flaw? strict) (item .builtin strict i) := by
  obtain ⟨⟨name, rfl⟩ | hdata | hcode, htok⟩ := hi
  · exact judged_ok _
  · obtain ⟨position, hform⟩ := hdata
    exact data_judged (fun t ht => htok t (.tail _ ht)) position
  · cases hcode with
    | instruction position _ ht => exact instruction_judged ht (fun t h => htok t (.tail _ h)) position
    | pseudo position hp => exact pseudo_judged hp (fun t h => htok t (.tail _ h)) position

end Items

end Encoding
end AccAsm
