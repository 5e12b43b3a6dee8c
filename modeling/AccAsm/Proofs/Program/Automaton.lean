import AccAsm.Proofs.Program.Grammar

/-! # Reading as an automaton

The grammar has no nesting, so a finite automaton reads it too: a state is what must still come of
the operands at hand (`awaited`) and where in a field reading stands once they are complete
(`spot`). `ofTokens_eq_error` and `exists_ofTokens_eq_ok` say that the automaton and the readers
agree: they accept the same lists and blame the same token for the same reason. A statement about
how far reading gets is then one about single steps. -/

namespace AccAsm
open Text (lit)

namespace Automaton

/-- A token that must come next. -/
inductive Slot where
  | number
  | string
  | label
  | accumulator
  | register
  | comma
  | colon
  | leftParen
  | rightParen
  /-- Where a jump goes. -/
  | target
deriving DecidableEq, Repr

def Slot.kinds : Slot → List Kind
  | number => [.number]
  | string => [.string]
  | label => [.label]
  | accumulator => [.accumulator]
  | register => [.register]
  | comma => [.comma]
  | colon => [.colon]
  | leftParen => [.leftParen]
  | rightParen => [.rightParen]
  | target => [.number, .label]

/-- Where reading stands when no token is awaited. -/
inductive Spot where
  /-- Between fields. -/
  | fields
  | data
  /-- In a data field, behind a number of a list. -/
  | numbers
  /-- In a data field, behind the declaration of a label. -/
  | labelledData
  | code
  /-- In a code field, behind the declaration of a label. -/
  | labelledCode
deriving DecidableEq, Repr

structure State where
  awaited : List Slot
  spot : Spot
deriving DecidableEq, Repr

def start : State := ⟨[], .fields⟩

def formatSlots : Format → List Slot
  | .n => []
  | .r => [.accumulator, .comma, .register, .comma, .register]
  | .i => [.accumulator, .comma, .number]
  | .s => [.accumulator, .comma, .register, .comma, .number]
  | .j => [.number]
  | .e1 => [.accumulator, .comma, .register]
  | .e2 => [.register]
  | .e3 => [.accumulator]
  | .e4 => [.register]

def pairSlots : List Slot := [.register, .comma, .register]

def memorySlots : List Slot := [.accumulator, .comma, .label, .leftParen, .number, .rightParen]

def pseudoSlots? (name : Text) : Option (List Slot) :=
  if name = lit "jump" then some [.target]
  else if name = lit "mul" then some pairSlots
  else if name = lit "div" then some pairSlots
  else if name = lit "swap" then some pairSlots
  else if name = lit "lw" then some memorySlots
  else if name = lit "sw" then some memorySlots
  else none

/-- The operands that a mnemonic asks for. -/
def operandSlots? (table : InstructionTable) (name : Text) : Option (List Slot) :=
  match pseudoSlots? name with
  | some slots => some slots
  | none =>
    match table.find? name with
    | some ⟨_, some format, _⟩ => some (formatSlots format)
    | _ => none

/-- The error that blames `t`. -/
def refusal (t : Token) (kinds : List Kind) : GrammarError :=
  .unexpected t.position kinds t.kind t.value

/-- The state behind a token, unless it ends the program. -/
abbrev Step := Except GrammarError (Option State)

/-- Behind the token that starts some data. -/
def afterDirective (t : Token) : Step :=
  match t.kind with
  | .space => .ok (some ⟨[.number], .data⟩)
  | .word | .byte => .ok (some ⟨[.number], .numbers⟩)
  | _ => .ok (some ⟨[.string], .data⟩)

def afterMnemonic (table : InstructionTable) (t : Token) : Step :=
  match operandSlots? table t.value with
  | some slots => .ok (some ⟨slots, .code⟩)
  | none => .error (.unknownMnemonic t.position t.value)

def nextField (t : Token) : Step :=
  match t.kind with
  | .endOfFile => .ok none
  | .data => .ok (some ⟨[], .data⟩)
  | .inst => .ok (some ⟨[], .code⟩)
  | .inclusion => .ok (some ⟨[.string], .fields⟩)
  | _ => .error (refusal t Reading.fieldStarts)

/-- In a field whose items start with one of `kinds`, which `body` goes on with. -/
def nextItem (kinds : List Kind) (labelled : Spot) (body : Token → Step) (t : Token) : Step :=
  if t.kind = .label then .ok (some ⟨[.colon], labelled⟩)
  else if t.kind ∈ kinds then body t
  else nextField t

/-- Behind the declaration of a label. -/
def nextLabelled (kinds : List Kind) (body : Token → Step) (t : Token) : Step :=
  if t.kind ∈ kinds then body t else .error (refusal t kinds)

def Spot.step (table : InstructionTable) : Spot → Token → Step
  | fields, t => nextField t
  | data, t => nextItem Reading.dataKinds .labelledData afterDirective t
  | numbers, t =>
    if t.kind = .comma then .ok (some ⟨[.number], .numbers⟩)
    else nextItem Reading.dataKinds .labelledData afterDirective t
  | labelledData, t => nextLabelled Reading.dataKinds afterDirective t
  | code, t => nextItem [.mnemonic] .labelledCode (afterMnemonic table) t
  | labelledCode, t => nextLabelled [.mnemonic] (afterMnemonic table) t

def State.step (table : InstructionTable) : State → Token → Step
  | ⟨slot :: more, spot⟩, t =>
    if t.kind ∈ slot.kinds then .ok (some ⟨more, spot⟩) else .error (refusal t slot.kinds)
  | ⟨[], spot⟩, t => spot.step table t

/-- Reads tokens up to the end of the program; past the last one stands an end at `ending`. -/
def run (table : InstructionTable) (ending : Position) : State → List Token → Except GrammarError Unit
  | q, [] =>
    match q.step table { kind := .endOfFile, position := ending } with
    | .error e => .error e
    | .ok _ => .ok ()
  | q, t :: ts =>
    match q.step table t with
    | .error e => .error e
    | .ok none => .ok ()
    | .ok (some q') => run table ending q' ts

variable {α β : Type} {table : InstructionTable} {q : State} {s : TokenStream} {t : Token}

/-! ### Single steps -/

theorem Slot.endOfFile_not_mem (slot : Slot) : Kind.endOfFile ∉ slot.kinds := by
  cases slot <;> decide

theorem nextItem_end {kinds : List Kind} {labelled : Spot} {body : Token → Step}
    (hk : .endOfFile ∉ kinds) (ht : t.kind = .endOfFile) : nextItem kinds labelled body t = .ok none := by
  rw [nextItem, ht, if_neg (by decide), if_neg hk, nextField, ht]

/-- Nothing goes on behind the end. -/
theorem State.step_end (ht : t.kind = .endOfFile) {q' : State} : q.step table t ≠ .ok (some q') := by
  intro h
  obtain ⟨awaited, spot⟩ := q
  cases awaited with
  | cons slot more =>
    rw [State.step, if_neg (by rw [ht]; exact slot.endOfFile_not_mem)] at h
    cases h
  | nil =>
    cases spot with
    | fields =>
      simp only [State.step, Spot.step, nextField, ht] at h
      cases h
    | data =>
      rw [State.step, Spot.step, nextItem_end (by decide) ht] at h
      cases h
    | numbers =>
      rw [State.step, Spot.step, if_neg (by rw [ht]; decide), nextItem_end (by decide) ht] at h
      cases h
    | code =>
      rw [State.step, Spot.step, nextItem_end (by decide) ht] at h
      cases h
    | labelledData | labelledCode =>
      rw [State.step, Spot.step, nextLabelled, if_neg (by rw [ht]; decide)] at h
      cases h

def reads (table : InstructionTable) (q : State) (s : TokenStream) : Except GrammarError Unit :=
  run table s.ending q s.rest

/-- Goes on behind a step. -/
def resume (table : InstructionTable) : Step → TokenStream → Except GrammarError Unit
  | .error e, _ => .error e
  | .ok none, _ => .ok ()
  | .ok (some q), s => reads table q s

theorem reads_eq : reads table q s = resume table (q.step table s.peek) s.drop := by
  obtain ⟨rest, ending⟩ := s
  cases rest with
  | nil =>
    show run table ending q [] = resume table (q.step table { kind := .endOfFile, position := ending }) _
    rw [run]
    rcases hs : q.step table { kind := .endOfFile, position := ending } with e | o
    · rfl
    · cases o with
      | none => rfl
      | some q' => exact absurd hs (State.step_end rfl)
  | cons t ts =>
    show run table ending q (t :: ts) = resume table (q.step table t) ⟨ts, ending⟩
    rw [run]
    rcases q.step table t with e | o
    · rfl
    · cases o <;> rfl

/-! ### Readers as paths -/

/-- What a reading comes to if `k` goes on behind it. -/
def follow (r : EStateM.Result GrammarError TokenStream α) (k : α → TokenStream → Except GrammarError Unit) :
    Except GrammarError Unit :=
  match r with
  | .ok a s => k a s
  | .error e _ => .error e

theorem follow_bind {x : Reading α} {f : α → Reading β} {k : β → TokenStream → Except GrammarError Unit} :
    follow ((x >>= f) s) k = follow (x s) fun a s' => follow (f a s') k := by
  show follow (EStateM.bind x f s) k = _
  rw [EStateM.bind]
  cases x s <;> rfl

theorem follow_pure {a : α} {k : α → TokenStream → Except GrammarError Unit} :
    follow ((pure a : Reading α) s) k = k a s := rfl

theorem follow_peek {k : Token → TokenStream → Except GrammarError Unit} :
    follow (Reading.peek s) k = k s.peek s := rfl

theorem follow_next {k : Token → TokenStream → Except GrammarError Unit} :
    follow (Reading.next s) k = k s.peek s.drop := rfl

theorem follow_ite {c : Prop} [Decidable c] {x y : Reading α}
    {k : α → TokenStream → Except GrammarError Unit} :
    follow ((if c then x else y) s) k = if c then follow (x s) k else follow (y s) k := by
  split <;> rfl

theorem follow_ahead {kinds : List Kind} {k : Token → TokenStream → Except GrammarError Unit} :
    follow (Reading.ahead kinds s) k =
      if s.peek.kind ∈ kinds then k s.peek s else .error (refusal s.peek kinds) := by
  rw [Reading.ahead, follow_bind, follow_peek, follow_ite]
  rfl

/-- `x` takes a token for each of the slots. -/
def Awaits (x : Reading α) (slots : List Slot) : Prop :=
  ∀ (table : InstructionTable) (more : List Slot) (spot : Spot) (s : TokenStream),
    reads table ⟨slots ++ more, spot⟩ s = follow (x s) fun _ s' => reads table ⟨more, spot⟩ s'

theorem awaits_pure (a : α) : Awaits (pure a : Reading α) [] := fun _ _ _ _ => rfl

theorem Awaits.bind {x : Reading α} {f : α → Reading β} {slots slots' : List Slot} (hx : Awaits x slots)
    (hf : ∀ a, Awaits (f a) slots') : Awaits (x >>= f) (slots ++ slots') := by
  intro table more spot s
  rw [List.append_assoc, hx, follow_bind]
  congr 1
  funext a s'
  exact hf a table more spot s'

theorem Awaits.map {x : Reading α} {slots : List Slot} (hx : Awaits x slots) (f : α → β) :
    Awaits (x >>= fun a => pure (f a)) slots := by
  have h := hx.bind fun a => awaits_pure (f a)
  rwa [List.append_nil] at h

theorem awaits_expect (slot : Slot) : Awaits (Reading.expect slot.kinds) [slot] := by
  intro table more spot s
  rw [Reading.expect, follow_bind, follow_ahead, follow_next, reads_eq]
  show resume table (if s.peek.kind ∈ slot.kinds then _ else _) s.drop = _
  split <;> rfl

theorem awaits_number : Awaits Reading.number [.number] := (awaits_expect .number).map _
theorem awaits_string : Awaits Reading.string [.string] := (awaits_expect .string).map _
theorem awaits_label : Awaits Reading.label [.label] := (awaits_expect .label).map _
theorem awaits_accumulator : Awaits Reading.accumulator [.accumulator] := (awaits_expect .accumulator).map _
theorem awaits_register : Awaits Reading.register [.register] := (awaits_expect .register).map _
theorem awaits_comma : Awaits Reading.comma [.comma] := (awaits_expect .comma).map _

theorem awaits_registerPair : Awaits Reading.registerPair pairSlots :=
  awaits_register.bind fun _ => awaits_comma.bind fun _ => awaits_register.map _

theorem awaits_mixedPair : Awaits Reading.mixedPair [.accumulator, .comma, .register] :=
  awaits_accumulator.bind fun _ => awaits_comma.bind fun _ => awaits_register.map _

theorem awaits_operands (format : Format) : Awaits (Reading.operands format) (formatSlots format) := by
  cases format with
  | n => exact awaits_pure _
  | r => exact awaits_accumulator.bind fun _ => awaits_comma.bind fun _ => awaits_registerPair.map _
  | i => exact awaits_accumulator.bind fun _ => awaits_comma.bind fun _ => awaits_number.map _
  | s => exact awaits_mixedPair.bind fun _ => awaits_comma.bind fun _ => awaits_number.map _
  | j => exact awaits_number.map _
  | e1 => exact awaits_mixedPair.map _
  | e2 | e4 => exact awaits_register.map _
  | e3 => exact awaits_accumulator.map _

theorem awaits_memoryOperands : Awaits Reading.memoryOperands memorySlots :=
  awaits_accumulator.bind fun _ => awaits_comma.bind fun _ => awaits_label.bind fun _ =>
    (awaits_expect .leftParen).bind fun _ => awaits_number.bind fun _ => (awaits_expect .rightParen).map _

theorem awaits_jumpTarget : Awaits Reading.jumpTarget [.target] := (awaits_expect .target).map _

theorem awaits_pseudo (name : Text) : Option.Rel Awaits (Reading.pseudo? name) (pseudoSlots? name) := by
  unfold Reading.pseudo? pseudoSlots?
  split
  · exact .some (awaits_jumpTarget.map _)
  split
  · exact .some (awaits_registerPair.map _)
  split
  · exact .some (awaits_registerPair.map _)
  split
  · exact .some (awaits_registerPair.map _)
  split
  · exact .some (awaits_memoryOperands.map _)
  split
  · exact .some (awaits_memoryOperands.map _)
  · exact .none

theorem resume_afterMnemonic :
    resume table (afterMnemonic table t) s =
      follow (Reading.instruction table t s) fun _ s' => reads table ⟨[], .code⟩ s' := by
  have hpath {x : Reading Item} {slots : List Slot} (hx : Awaits x slots) :
      reads table ⟨slots, .code⟩ s = follow (x s) fun _ s' => reads table ⟨[], .code⟩ s' := by
    have h := hx table [] .code s
    rwa [List.append_nil] at h
  have hp := awaits_pseudo t.value
  unfold afterMnemonic operandSlots? Reading.instruction
  cases hx : Reading.pseudo? t.value with
  | some x =>
    rw [hx] at hp
    cases hs : pseudoSlots? t.value with
    | none => rw [hs] at hp; cases hp
    | some slots =>
      rw [hs] at hp
      cases hp with
      | some hp => exact hpath (hp.map _)
  | none =>
    rw [hx] at hp
    cases hs : pseudoSlots? t.value with
    | some slots => rw [hs] at hp; cases hp
    | none =>
      rcases table.find? t.value with _ | ⟨mnemonic, format, opcode⟩
      · rfl
      · cases format with
        | none => rfl
        | some format => exact hpath ((awaits_operands format).map _)

/-! ### Repetition -/

/-- Where the automaton follows `step` back to the same state, it follows its repetition. -/
theorem reads_many {step : Reading (Option α)} {hc : Reading.Consumes step}
    {k : TokenStream → Except GrammarError Unit}
    (h : ∀ s, reads table q s = follow (step s) fun o s' => o.elim (k s') fun _ => reads table q s')
    (s : TokenStream) : reads table q s = follow (Reading.many step hc s) fun _ s' => k s' := by
  unfold Reading.many
  fun_induction Reading.manyFrom step hc [] s with
  | case1 done s a s₁ hs _ ih => rw [h, hs]; exact ih
  | case2 done s s₁ hs => rw [h, hs]; rfl
  | case3 done s e s₁ hs => rw [h, hs]; rfl

theorem reads_numbers (s : TokenStream) :
    reads table ⟨[.number], .numbers⟩ s =
      follow (Reading.numbers s) fun _ s' => reads table ⟨[], .data⟩ s' := by
  have another (s : TokenStream) : reads table ⟨[], .numbers⟩ s =
      follow (Reading.anotherNumber s) fun o s' =>
        o.elim (reads table ⟨[], .data⟩ s') fun _ => reads table ⟨[], .numbers⟩ s' := by
    simp only [Reading.anotherNumber, follow_bind, follow_peek, follow_ite, follow_next, follow_pure]
    rw [reads_eq]
    show resume table (if s.peek.kind = .comma then _ else _) s.drop = _
    split
    · exact awaits_number table [] .numbers s.drop
    · exact (reads_eq (q := ⟨[], .data⟩)).symm
  rw [Reading.numbers, follow_bind]
  refine (awaits_number table [] .numbers s).trans ?_
  congr 1
  funext n s'
  rw [follow_bind]
  exact reads_many another s'

theorem resume_afterDirective (ht : t.kind ∈ Reading.dataKinds) :
    resume table (afterDirective t) s =
      follow (Reading.dataItem t s) fun _ s' => reads table ⟨[], .data⟩ s' := by
  simp only [Reading.dataKinds, List.mem_cons, List.not_mem_nil, or_false] at ht
  unfold afterDirective Reading.dataItem
  rcases ht with ht | ht | ht | ht <;>
    (rw [ht]; simp only [Reading.data, follow_bind, follow_pure])
  · exact awaits_number table [] .data s
  · exact reads_numbers s
  · exact reads_numbers s
  · exact awaits_string table [] .data s

/-- The items of a field, if the automaton follows each item of it. -/
theorem reads_itemOf {kinds : List Kind} {body : Token → Reading Item} {after : Token → Step}
    {inside labelled : Spot} (hlabel : .label ∉ kinds)
    (hin : ∀ t, inside.step table t = nextItem kinds labelled after t)
    (hlab : ∀ t, labelled.step table t = nextLabelled kinds after t)
    (hbody : ∀ t s, t.kind ∈ kinds →
      resume table (after t) s = follow (body t s) fun _ s' => reads table ⟨[], inside⟩ s')
    (s : TokenStream) :
    reads table ⟨[], inside⟩ s = follow (Reading.itemOf kinds body s) fun o s' =>
      o.elim (reads table start s') fun _ => reads table ⟨[], inside⟩ s' := by
  -- the look-ahead behind a label is what the state behind it asks for
  have behind (s : TokenStream) : reads table ⟨[], labelled⟩ s =
      follow (Reading.ahead kinds s) fun _ s' => reads table ⟨[], inside⟩ s' := by
    rw [follow_ahead, reads_eq]
    show resume table (labelled.step table s.peek) s.drop = _
    rw [hlab, nextLabelled]
    split
    next hk =>
      rw [reads_eq]
      show _ = resume table (inside.step table s.peek) s.drop
      rw [hin, nextItem, if_neg (fun hl : s.peek.kind = .label => hlabel (hl ▸ hk)), if_pos hk]
    next => rfl
  simp only [Reading.itemOf, Reading.labelDec, follow_bind, follow_peek, follow_ite, follow_next, follow_pure]
  rw [reads_eq]
  show resume table (inside.step table s.peek) s.drop = _
  rw [hin, nextItem]
  split
  next =>
    refine (awaits_expect .colon table [] labelled s.drop).trans ?_
    congr 1
    funext u s'
    exact behind s'
  next =>
    split
    next hk => exact hbody s.peek s.drop hk
    next => exact (reads_eq (q := start)).symm

theorem reads_field (s : TokenStream) :
    reads table start s = follow (Reading.field table s) fun o s' =>
      o.elim (.ok ()) fun _ => reads table start s' := by
  rw [Reading.field, follow_bind, follow_peek, reads_eq]
  show resume table (nextField s.peek) s.drop = _
  unfold nextField
  cases s.peek.kind with
  | endOfFile => rfl
  | data =>
    simp only [Reading.fieldOf, follow_bind, follow_next, follow_pure]
    exact reads_many (reads_itemOf (by decide) (fun _ => rfl) (fun _ => rfl)
      fun _ _ ht => resume_afterDirective ht) s.drop
  | inst =>
    simp only [Reading.fieldOf, follow_bind, follow_next, follow_pure]
    exact reads_many (reads_itemOf (by decide) (fun _ => rfl) (fun _ => rfl)
      fun _ _ _ => resume_afterMnemonic) s.drop
  | inclusion =>
    simp only [Reading.fieldOf, follow_bind, follow_next, follow_pure]
    exact awaits_string table [] .fields s.drop
  | _ => rfl

theorem reads_program (s : TokenStream) :
    reads table start s = follow (Reading.program table s) fun _ _ => .ok () := by
  simp only [Reading.program, follow_bind, follow_peek, follow_pure]
  exact reads_many reads_field s

end Automaton

namespace Program
variable {table : InstructionTable} {ts : List Token}

theorem ofTokens_eq_error {e : GrammarError} :
    ofTokens table ts = .error e ↔ Automaton.reads table Automaton.start (.ofList ts) = .error e := by
  rw [Automaton.reads_program, ofTokens]
  cases Reading.program table (.ofList ts) <;> simp [Automaton.follow]

theorem exists_ofTokens_eq_ok :
    (∃ p, ofTokens table ts = .ok p) ↔ Automaton.reads table Automaton.start (.ofList ts) = .ok () := by
  rw [Automaton.reads_program, ofTokens]
  cases Reading.program table (.ofList ts) <;> simp [Automaton.follow]

end Program
end AccAsm
