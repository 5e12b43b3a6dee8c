import AccAsm.Program
import AccAsm.Program.Stream

/-! # Reading programs

The grammar, with the operands of an instruction chosen by its mnemonic:

    program     = (dataField | instField | inclusion)* endOfFile
    inclusion   = ".include" string
    dataField   = ".data" (labelDec? data)*
    data        = ".space" number | ".word" numbers | ".byte" numbers | ".ascii" string
    instField   = ".inst" (labelDec? instruction)*
    labelDec    = label ":"
    instruction = mnemonic operands
    numbers     = number ("," number)*

Pseudo-instructions come before the instruction table, so that they hide instructions of the same
name. One token decides how reading goes on, and the first token that does not fit is blamed. -/

namespace AccAsm
open Text (lit)

namespace Reading

/-- A token of the given kind, as it is spelled. -/
def lexeme (kind : Kind) : Reading Lexeme := do
  let t ← expect [kind]
  return ⟨t.position, t.value⟩

def number : Reading Lexeme := lexeme .number
def string : Reading Lexeme := lexeme .string
def label : Reading Lexeme := lexeme .label
def accumulator : Reading Lexeme := lexeme .accumulator
def register : Reading Lexeme := lexeme .register

def comma : Reading Unit := do
  let _ ← expect [.comma]

theorem forward_lexeme (kind : Kind) : Forward (lexeme kind) :=
  (forward_expect _).bind fun _ => forward_pure _

theorem forward_comma : Forward comma := (forward_expect _).bind fun _ => forward_pure _

/-! ### Data -/

/-- A comma and a number, if a comma comes next. -/
def anotherNumber : Reading (Option Lexeme) := do
  let t ← peek
  if t.kind = .comma then
    let _ ← next
    return some (← number)
  else return none

theorem consumes_anotherNumber : Consumes anotherNumber := by
  intro s a s' h
  obtain ⟨t, s₁, h₁, h⟩ := ok_of_bind h
  cases h₁
  split at h
  next hk =>
    obtain ⟨_, s₂, h₂, h⟩ := ok_of_bind h
    have h₃ := length_lt_of_next h₂ (by rw [hk]; decide)
    exact Nat.lt_of_le_of_lt (((forward_lexeme _).bind fun _ => forward_pure _) _ _ _ h) h₃
  next => cases h

theorem forward_anotherNumber : Forward anotherNumber :=
  forward_peek.bind fun _ =>
    (forward_next.bind fun _ => (forward_lexeme _).bind fun _ => forward_pure _).ite (forward_pure _)

/-- Numbers between commas, at least one. -/
def numbers : Reading (List Lexeme) := do
  let first ← number
  return first :: (← many anotherNumber consumes_anotherNumber)

theorem forward_numbers : Forward numbers :=
  (forward_lexeme _).bind fun _ => (forward_many forward_anotherNumber).bind fun _ => forward_pure _

/-- The kinds of tokens that start data. -/
def dataKinds : List Kind := [.space, .word, .byte, .ascii]

/-- What follows the directive of some data. -/
def data (kind : Kind) : Reading Data :=
  match kind with
  | .space => do return .space (← number)
  | .word => do return .words (← numbers)
  | .byte => do return .bytes (← numbers)
  | _ => do return .ascii (← string)

theorem forward_data (kind : Kind) : Forward (data kind) := by
  unfold data
  split
  · exact (forward_lexeme _).bind fun _ => forward_pure _
  · exact forward_numbers.bind fun _ => forward_pure _
  · exact forward_numbers.bind fun _ => forward_pure _
  · exact (forward_lexeme _).bind fun _ => forward_pure _

/-! ### Instructions -/

/-- Two registers with a comma between them. -/
def registerPair : Reading (Lexeme × Lexeme) := do
  let a ← register
  comma
  return (a, ← register)

/-- An accumulator and a register with a comma between them. -/
def mixedPair : Reading (Lexeme × Lexeme) := do
  let a ← accumulator
  comma
  return (a, ← register)

theorem forward_registerPair : Forward registerPair :=
  (forward_lexeme _).bind fun _ => forward_comma.bind fun _ =>
    (forward_lexeme _).bind fun _ => forward_pure _

theorem forward_mixedPair : Forward mixedPair :=
  (forward_lexeme _).bind fun _ => forward_comma.bind fun _ =>
    (forward_lexeme _).bind fun _ => forward_pure _

/-- The operands of an instruction of the given format. -/
def operands : Format → Reading Operands
  | .n => return .n
  | .r => do
    let ac ← accumulator
    comma
    let (rf₁, rf₂) ← registerPair
    return .r ac rf₁ rf₂
  | .i => do
    let ac ← accumulator
    comma
    return .i ac (← number)
  | .s => do
    let (ac, rf) ← mixedPair
    comma
    return .s ac rf (← number)
  | .j => do return .j (← number)
  | .e1 => do
    let (ac, rf) ← mixedPair
    return .e1 ac rf
  | .e2 => do return .e2 (← register)
  | .e3 => do return .e3 (← accumulator)
  | .e4 => do return .e4 (← register)

theorem forward_operands (format : Format) : Forward (operands format) := by
  cases format with
  | n => exact forward_pure _
  | r => exact (forward_lexeme _).bind fun _ => forward_comma.bind fun _ =>
      forward_registerPair.bind fun _ => forward_pure _
  | i => exact (forward_lexeme _).bind fun _ => forward_comma.bind fun _ =>
      (forward_lexeme _).bind fun _ => forward_pure _
  | s => exact forward_mixedPair.bind fun _ => forward_comma.bind fun _ =>
      (forward_lexeme _).bind fun _ => forward_pure _
  | e1 => exact forward_mixedPair.bind fun _ => forward_pure _
  | j | e2 | e3 | e4 => exact (forward_lexeme _).bind fun _ => forward_pure _

/-- An accumulator, a label and a number in parentheses: `&0, _label(1)`. -/
def memoryOperands : Reading (Lexeme × Lexeme × Lexeme) := do
  let ac ← accumulator
  comma
  let name ← label
  let _ ← expect [.leftParen]
  let offset ← number
  let _ ← expect [.rightParen]
  return (ac, name, offset)

theorem forward_memoryOperands : Forward memoryOperands :=
  (forward_lexeme _).bind fun _ => forward_comma.bind fun _ => (forward_lexeme _).bind fun _ =>
    (forward_expect _).bind fun _ => (forward_lexeme _).bind fun _ =>
      (forward_expect _).bind fun _ => forward_pure _

/-- The target of a jump. -/
def jumpTarget : Reading JumpTarget := do
  let t ← expect [.number, .label]
  return if t.kind = .label then .label ⟨t.position, t.value⟩ else .number ⟨t.position, t.value⟩

theorem forward_jumpTarget : Forward jumpTarget := (forward_expect _).bind fun _ => forward_pure _

/-- The operands of the pseudo-instruction of the given name, if there is one. -/
def pseudo? (name : Text) : Option (Reading Pseudo) :=
  if name = lit "jump" then some do return .jump (← jumpTarget)
  else if name = lit "mul" then some do
    let (a, b) ← registerPair
    return .mul a b
  else if name = lit "div" then some do
    let (a, b) ← registerPair
    return .div a b
  else if name = lit "swap" then some do
    let (a, b) ← registerPair
    return .swap a b
  else if name = lit "lw" then some do
    let (ac, name, offset) ← memoryOperands
    return .load ac name offset
  else if name = lit "sw" then some do
    let (ac, name, offset) ← memoryOperands
    return .store ac name offset
  else none

theorem forward_pseudo {name : Text} {x : Reading Pseudo} (h : pseudo? name = some x) :
    Forward x := by
  unfold pseudo? at h
  have pair (f : Lexeme × Lexeme → Pseudo) : Forward (registerPair >>= fun p => pure (f p)) :=
    forward_registerPair.bind fun _ => forward_pure _
  have memory (f : Lexeme × Lexeme × Lexeme → Pseudo) :
      Forward (memoryOperands >>= fun p => pure (f p)) :=
    forward_memoryOperands.bind fun _ => forward_pure _
  split at h
  · cases h; exact forward_jumpTarget.bind fun _ => forward_pure _
  · split at h
    · cases h; exact pair _
    · split at h
      · cases h; exact pair _
      · split at h
        · cases h; exact pair _
        · split at h
          · cases h; exact memory _
          · split at h
            · cases h; exact memory _
            · cases h

/-- What follows the mnemonic token `t`. -/
def instruction (table : InstructionTable) (t : Token) : Reading Item :=
  match pseudo? t.value with
  | some x => do return .pseudo t.position (← x)
  | none =>
    match table.find? t.value with
    | some ⟨mnemonic, some format, _⟩ => do
      return .instruction t.position mnemonic (← operands format)
    | _ => throw (.unknownMnemonic t.position t.value)

theorem forward_instruction (table : InstructionTable) (t : Token) :
    Forward (instruction table t) := by
  unfold instruction
  split
  next x hx => exact (forward_pseudo hx).bind fun _ => forward_pure _
  next =>
    split
    · exact (forward_operands _).bind fun _ => forward_pure _
    · exact forward_throw _

/-! ### Fields -/

/-- What follows the label token `t` of a declaration, which must stand before one of `kinds`. -/
def labelDec (t : Token) (kinds : List Kind) : Reading Item := do
  let _ ← expect [.colon]
  let _ ← ahead kinds
  return .label ⟨t.position, t.value⟩

theorem forward_labelDec (t : Token) (kinds : List Kind) : Forward (labelDec t kinds) :=
  (forward_expect _).bind fun _ => (forward_ahead _).bind fun _ => forward_pure _

/-- The next item of a field whose items start with one of `kinds`, if one comes next. -/
def itemOf (kinds : List Kind) (body : Token → Reading Item) : Reading (Option Item) := do
  let t ← peek
  if t.kind = .label then
    let t ← next
    return some (← labelDec t kinds)
  else if t.kind ∈ kinds then
    let t ← next
    return some (← body t)
  else return none

theorem consumes_itemOf {kinds : List Kind} {body : Token → Reading Item}
    (hk : .endOfFile ∉ kinds) (hb : ∀ t, Forward (body t)) : Consumes (itemOf kinds body) := by
  intro s a s' h
  obtain ⟨t, s₁, h₁, h⟩ := ok_of_bind h
  cases h₁
  split at h
  next hl =>
    obtain ⟨_, s₂, h₂, h⟩ := ok_of_bind h
    have h₃ := length_lt_of_next h₂ (by rw [hl]; decide)
    exact Nat.lt_of_le_of_lt (((forward_labelDec _ _).bind fun _ => forward_pure _) _ _ _ h) h₃
  next =>
    split at h
    next hm =>
      obtain ⟨_, s₂, h₂, h⟩ := ok_of_bind h
      have h₃ := length_lt_of_next h₂ (fun he => hk (he ▸ hm))
      exact Nat.lt_of_le_of_lt (((hb _).bind fun _ => forward_pure _) _ _ _ h) h₃
    next => cases h

theorem forward_itemOf {kinds : List Kind} {body : Token → Reading Item}
    (hb : ∀ t, Forward (body t)) : Forward (itemOf kinds body) :=
  forward_peek.bind fun _ =>
    (forward_next.bind fun _ => (forward_labelDec _ _).bind fun _ => forward_pure _).ite
      ((forward_next.bind fun _ => (hb _).bind fun _ => forward_pure _).ite (forward_pure _))

/-- The data that starts with the token `t`. -/
def dataItem (t : Token) : Reading Item := do return .data t.position (← data t.kind)

theorem forward_dataItem (t : Token) : Forward (dataItem t) :=
  (forward_data _).bind fun _ => forward_pure _

def dataItems : Reading (List Item) :=
  many (itemOf dataKinds dataItem) (consumes_itemOf (by decide) forward_dataItem)

def instItems (table : InstructionTable) : Reading (List Item) :=
  many (itemOf [.mnemonic] (instruction table))
    (consumes_itemOf (by decide) (forward_instruction table))

theorem forward_dataItems : Forward dataItems := forward_many (forward_itemOf forward_dataItem)

theorem forward_instItems (table : InstructionTable) : Forward (instItems table) :=
  forward_many (forward_itemOf (forward_instruction table))

/-- The field whose first token is of the given kind, unless the stream ends there. -/
def fieldOf (table : InstructionTable) : Kind → Reading (Option Field)
  | .endOfFile => return none
  | .data => do
    let t ← next
    return some (.data t.position (← dataItems))
  | .inst => do
    let t ← next
    return some (.code t.position (← instItems table))
  | .inclusion => do
    let t ← next
    return some (.inclusion t.position (← string))
  | _ => refuse [.data, .inst, .inclusion, .endOfFile]

/-- The next field, unless the stream ends. -/
def field (table : InstructionTable) : Reading (Option Field) := do
  let t ← peek
  fieldOf table t.kind

theorem consumes_field (table : InstructionTable) : Consumes (field table) := by
  intro s a s' h
  obtain ⟨t, s₁, h₁, h⟩ := ok_of_bind h
  cases h₁
  have taken {x : Token → Reading (Option Field)} (hx : ∀ t, Forward (x t))
      (h : (next >>= x) s = .ok (some a) s') (hk : s.peek.kind ≠ .endOfFile) :
      s'.rest.length < s.rest.length := by
    obtain ⟨t, s₂, h₂, h⟩ := ok_of_bind h
    exact Nat.lt_of_le_of_lt (hx t _ _ _ h) (length_lt_of_next h₂ hk)
  generalize hk : s.peek.kind = kind at h
  unfold fieldOf at h
  split at h
  · cases h
  · exact taken (fun _ => forward_dataItems.bind fun _ => forward_pure _) h (by rw [hk]; decide)
  · exact taken (fun _ => (forward_instItems _).bind fun _ => forward_pure _) h
      (by rw [hk]; decide)
  · exact taken (fun _ => (forward_lexeme _).bind fun _ => forward_pure _) h (by rw [hk]; decide)
  · cases h

/-- A program, up to the end of the stream. -/
def program (table : InstructionTable) : Reading Program := do
  let first ← peek
  return ⟨first.position, ← many (field table) (consumes_field table)⟩

end Reading

/-- The program that a list of tokens forms. -/
def Program.ofTokens (table : InstructionTable) (tokens : List Token) : Except GrammarError Program :=
  match Reading.program table (TokenStream.ofList tokens) with
  | .ok p _ => .ok p
  | .error e _ => .error e

end AccAsm
