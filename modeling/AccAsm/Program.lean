import AccAsm.Outline

/-! # Programs

A program is a list of fields; data and instruction fields hold items. A label declaration is an
item of its own and belongs to the item after it. -/

namespace AccAsm

/-- A piece of source as it is spelled. -/
structure Lexeme where
  position : Position
  text : Text
deriving DecidableEq, Repr, Inhabited

/-- The operands of an instruction, by format. -/
inductive Operands where
  | n
  | r (ac rf₁ rf₂ : Lexeme)
  | i (ac imm : Lexeme)
  | s (ac rf imm : Lexeme)
  | j (imm : Lexeme)
  | e1 (ac rf : Lexeme)
  | e2 (rf : Lexeme)
  | e3 (ac : Lexeme)
  | e4 (rf : Lexeme)
deriving DecidableEq, Repr

def Operands.format : Operands → Format
  | n => .n
  | r .. => .r
  | i .. => .i
  | s .. => .s
  | j .. => .j
  | e1 .. => .e1
  | e2 .. => .e2
  | e3 .. => .e3
  | e4 .. => .e4

/-- Where a jump goes. Trees that were not read from source may hold any other part there. -/
inductive JumpTarget where
  | number (n : Lexeme)
  | label (name : Lexeme)
  | other (part : Outline)
deriving Repr

/-- Pseudo-instructions, which stand for sequences of instructions. -/
inductive Pseudo where
  | jump (target : JumpTarget)
  | mul (a b : Lexeme)
  | div (a b : Lexeme)
  | swap (a b : Lexeme)
  | load (ac label offset : Lexeme)
  | store (ac label offset : Lexeme)
deriving Repr

inductive Data where
  | space (count : Lexeme)
  | words (values : List Lexeme)
  | bytes (values : List Lexeme)
  | ascii (text : Lexeme)
deriving DecidableEq, Repr

inductive Item where
  | label (name : Lexeme)
  | data (position : Position) (data : Data)
  | instruction (position : Position) (mnemonic : Text) (operands : Operands)
  | pseudo (position : Position) (pseudo : Pseudo)
deriving Repr

inductive Field where
  | data (position : Position) (items : List Item)
  | code (position : Position) (items : List Item)
  /-- Stands for the fields of another file. -/
  | inclusion (position : Position) (path : Lexeme)
deriving Repr

structure Program where
  position : Position
  fields : List Field
deriving Repr

/-! ### Views -/

/-- A part without children, spelled as it stands. -/
def Lexeme.outline (l : Lexeme) (kind : NodeKind) : Outline := .node kind l.position l.text []

def Operands.outlines : Operands → List Outline
  | n => []
  | r ac rf₁ rf₂ => [ac.outline .accumulator, rf₁.outline .register, rf₂.outline .register]
  | i ac imm => [ac.outline .accumulator, imm.outline .number]
  | s ac rf imm => [ac.outline .accumulator, rf.outline .register, imm.outline .number]
  | j imm => [imm.outline .number]
  | e1 ac rf => [ac.outline .accumulator, rf.outline .register]
  | e2 rf => [rf.outline .register]
  | e3 ac => [ac.outline .accumulator]
  | e4 rf => [rf.outline .register]

def JumpTarget.outline : JumpTarget → Outline
  | number n => n.outline .number
  | label l => l.outline .labelRef
  | other o => o

def Pseudo.outline (position : Position) : Pseudo → Outline
  | jump target => .node .jump position [] [target.outline]
  | mul a b => .node .mul position [] [a.outline .register, b.outline .register]
  | div a b => .node .div position [] [a.outline .register, b.outline .register]
  | swap a b => .node .swap position [] [a.outline .register, b.outline .register]
  | load ac label offset =>
    .node .load position [] [ac.outline .accumulator, label.outline .labelRef, offset.outline .number]
  | store ac label offset =>
    .node .store position [] [ac.outline .accumulator, label.outline .labelRef, offset.outline .number]

def Data.outline (position : Position) : Data → Outline
  | space count => .node .space position [] [count.outline .number]
  | words values => .node .word position [] (values.map (·.outline .number))
  | bytes values => .node .byte position [] (values.map (·.outline .number))
  | ascii text => .node .ascii position [] [text.outline .string]

def Item.outline : Item → Outline
  | label name => name.outline .labelDec
  | data position d => d.outline position
  | instruction position mnemonic operands =>
    .node (.instruction operands.format) position mnemonic operands.outlines
  | pseudo position p => p.outline position

def Field.outline : Field → Outline
  | data position items => .node .dataField position [] (items.map Item.outline)
  | code position items => .node .instField position [] (items.map Item.outline)
  | inclusion position path => .node .inclusion position [] [path.outline .string]

def Program.outline (p : Program) : Outline :=
  .node .program p.position [] (p.fields.map Field.outline)

/-! ### Programs from outlines -/

/-- The spelled part of the given kind that an outline shows. -/
def Outline.lexeme? (kind : NodeKind) : Outline → Option Lexeme
  | .node k position text _ => if k = kind then some ⟨position, text⟩ else none
  | .absent => none

def Operands.ofOutlines? : Format → List Outline → Option Operands
  | .n, [] => some .n
  | .r, [a, b, c] => do
    return .r (← a.lexeme? .accumulator) (← b.lexeme? .register) (← c.lexeme? .register)
  | .i, [a, b] => do return .i (← a.lexeme? .accumulator) (← b.lexeme? .number)
  | .s, [a, b, c] => do
    return .s (← a.lexeme? .accumulator) (← b.lexeme? .register) (← c.lexeme? .number)
  | .j, [a] => do return .j (← a.lexeme? .number)
  | .e1, [a, b] => do return .e1 (← a.lexeme? .accumulator) (← b.lexeme? .register)
  | .e2, [a] => do return .e2 (← a.lexeme? .register)
  | .e3, [a] => do return .e3 (← a.lexeme? .accumulator)
  | .e4, [a] => do return .e4 (← a.lexeme? .register)
  | _, _ => none

def JumpTarget.ofOutline : Outline → JumpTarget
  | .node .number position text _ => .number ⟨position, text⟩
  | .node .labelRef position text _ => .label ⟨position, text⟩
  | o => .other o

def Pseudo.ofOutlines? : NodeKind → List Outline → Option Pseudo
  | .jump, [a] => some (.jump (.ofOutline a))
  | .mul, [a, b] => do return .mul (← a.lexeme? .register) (← b.lexeme? .register)
  | .div, [a, b] => do return .div (← a.lexeme? .register) (← b.lexeme? .register)
  | .swap, [a, b] => do return .swap (← a.lexeme? .register) (← b.lexeme? .register)
  | .load, [a, b, c] => do
    return .load (← a.lexeme? .accumulator) (← b.lexeme? .labelRef) (← c.lexeme? .number)
  | .store, [a, b, c] => do
    return .store (← a.lexeme? .accumulator) (← b.lexeme? .labelRef) (← c.lexeme? .number)
  | _, _ => none

def Data.ofOutlines? : NodeKind → List Outline → Option Data
  | .space, [a] => do return .space (← a.lexeme? .number)
  | .word, as => do return .words (← as.mapM (Outline.lexeme? .number))
  | .byte, as => do return .bytes (← as.mapM (Outline.lexeme? .number))
  | .ascii, [a] => do return .ascii (← a.lexeme? .string)
  | _, _ => none

def Item.ofOutline? : Outline → Option Item
  | .absent => none
  | .node kind position text children =>
    match kind with
    | .labelDec => some (.label ⟨position, text⟩)
    | .instruction format => do
      return .instruction position text (← Operands.ofOutlines? format children)
    | _ =>
      match Data.ofOutlines? kind children with
      | some d => some (.data position d)
      | none => (Pseudo.ofOutlines? kind children).map (.pseudo position)

def Field.ofOutline? : Outline → Option Field
  | .node .dataField position _ children => do
    return .data position (← children.mapM Item.ofOutline?)
  | .node .instField position _ children => do
    return .code position (← children.mapM Item.ofOutline?)
  | .node .inclusion position _ [path] => do
    return .inclusion position (← path.lexeme? .string)
  | _ => none

/-- The program an outline shows. -/
def Program.ofOutline? : Outline → Option Program
  | .node .program position _ children => do
    return ⟨position, ← children.mapM Field.ofOutline?⟩
  | _ => none

end AccAsm
