import AccAsm.Proofs.Program.Grammar
import AccAsm.Proofs.Text.Numeral
import AccAsm.Proofs.Traversal
import Mathlib.Algebra.BigOperators.Group.List.Basic
import Mathlib.Tactic.Ring

/-! # Assembly in one shot

What the image of a program should be, said directly: every item has a size, a label stands for the
sum of the sizes before its first declaration, and every item is spelled out as bytes with these
numbers in the place of labels. An instruction is the word `opcode * 1024 + low`, where `low` is made of
its operands; a pseudo-instruction is a list of such instructions. Operands that do not fit have no
encoding. The size of an item is the number of its bytes (`Item.length_bytes?`). -/

namespace AccAsm
open Text (lit)

/-! ### Operands -/

namespace Lexeme

/-- The number of a register, which stands after its sigil and is at most `limit`. -/
def register? (l : Lexeme) (limit : Nat) : Option Nat :=
  if Numeral.magnitude l.text.tail ≤ limit then some (Numeral.magnitude l.text.tail) else none

/-- The number in `width` bits, a negative one counted down from `2 ^ width`. -/
def field? (l : Lexeme) (width : Nat) : Option Nat :=
  if (Numeral.value l.text).natAbs < 2 ^ width then
    some (Numeral.value l.text % (2 ^ width : Nat)).toNat
  else none

end Lexeme

/-- The ten bits of an instruction after its opcode. -/
def Operands.low? : Operands → Option Nat
  | n => some 0
  | r ac rf₁ rf₂ => do
    return ((← ac.register? 3) * 16 + (← rf₁.register? 15)) * 16 + (← rf₂.register? 15)
  | i ac imm => do return (← ac.register? 3) * 256 + (← imm.field? 8)
  | s ac rf imm => do return ((← ac.register? 3) * 16 + (← rf.register? 15)) * 16 + (← imm.field? 4)
  | j imm => imm.field? 10
  | e1 ac rf => do return ((← ac.register? 3) * 16 + (← rf.register? 15)) * 16
  | e2 rf => do return (← rf.register? 15) * 16
  | e3 ac => do return (← ac.register? 3) * 256
  | e4 rf => rf.register? 15

/-! ### Pseudo-instructions -/

def JumpTarget.address? (address? : Text → Option Nat) : JumpTarget → Option Nat
  | number n => n.field? 16
  | label name => address? name.text
  | other _ => none

/-- One of the instructions that a pseudo-instruction stands for. -/
structure Step where
  mnemonic : Text
  /-- The ten bits after the opcode, made of `&1` or `$1` and the operands in question. -/
  low : Nat
deriving DecidableEq

/-- Loads an address into `&1`. -/
def Step.address (t : Nat) : List Step := [⟨lit "lui", 256 + t / 256⟩, ⟨lit "ori", 256 + t % 256⟩]

/-- A multiplication or division of `$a` by `$b`. -/
def Step.product (step : Text) (a b : Nat) : List Step :=
  [⟨lit "lli", 256⟩, ⟨lit "lui", 256⟩, ⟨lit "mth", 256⟩, ⟨lit "mtl", 256⟩,
    ⟨lit "mtac", 256 + a * 16⟩, ⟨lit "mtl", 256⟩, ⟨lit "lli", 256⟩, ⟨lit "lui", 256⟩] ++
    List.replicate 16 ⟨step, b⟩

/-- An access of `&d` to the memory at the address `t` plus `n`. -/
def Step.memory (access : Text) (d t n : Nat) : List Step :=
  Step.address t ++ [⟨lit "addi", 256 + n⟩, ⟨lit "mfac", 256 + 16⟩, ⟨access, d * 256 + 16⟩]

/-- The exchange of `$a` and `$b` by three exclusive disjunctions. -/
def Step.exchange (a b : Nat) : List Step :=
  [a, b, a].flatMap fun d => [⟨lit "xor", 256 + a * 16 + b⟩, ⟨lit "mfac", 256 + d * 16⟩]

/-- The instructions that a pseudo-instruction stands for. -/
def Pseudo.steps? (address? : Text → Option Nat) : Pseudo → Option (List Step)
  | jump target => do
    return Step.address (← target.address? address?) ++ [⟨lit "mfac", 256 + 16⟩, ⟨lit "jr", 16⟩]
  | mul a b => do return Step.product (lit "tmul") (← a.register? 15) (← b.register? 15)
  | div a b => do return Step.product (lit "tdiv") (← a.register? 15) (← b.register? 15)
  | swap a b => do return Step.exchange (← a.register? 15) (← b.register? 15)
  | load ac label offset => do
    return Step.memory (lit "lwr") (← ac.register? 3) (← address? label.text) (← offset.field? 8)
  | store ac label offset => do
    return Step.memory (lit "swr") (← ac.register? 3) (← address? label.text) (← offset.field? 8)

/-! ### Items -/

/-- A word, high byte first. -/
def wordBytes (w : Nat) : List UInt8 := [(w / 256).toUInt8, (w % 256).toUInt8]

/-- An instruction by its mnemonic and the ten bits after its opcode. -/
def Step.bytes? (table : InstructionTable) (s : Step) : Option (List UInt8) :=
  (table.find? s.mnemonic).map fun i => wordBytes (i.opcode.toNat * 1024 + s.low)

def charByte? (c : Char) : Option UInt8 := if c.toNat ≤ 0xFF then some c.toNat.toUInt8 else none

def Data.bytes? : Data → Option (List UInt8)
  | space count =>
    let n := Numeral.value count.text
    if 0 ≤ n ∧ n ≤ 65536 then some (List.replicate n.toNat 0) else none
  | words values => (values.mapM fun (n : Lexeme) => (n.field? 16).map wordBytes).map List.flatten
  | bytes values => values.mapM fun (n : Lexeme) => (n.field? 8).map Nat.toUInt8
  | ascii text => (Quoted.unquote? text.text).bind fun t => (Utf8.chars t).mapM charByte?

/-- The bytes of an item, given the addresses of labels. -/
def Item.bytes? (table : InstructionTable) (address? : Text → Option Nat) : Item → Option (List UInt8)
  | label _ => some []
  | data _ d => d.bytes?
  | instruction _ mnemonic operands => do Step.bytes? table ⟨mnemonic, ← operands.low?⟩
  | pseudo _ p => do return (← (← p.steps? address?).mapM (Step.bytes? table)).flatten

def Data.size : Data → Nat
  | space count => (Numeral.value count.text).toNat
  | words values => 2 * values.length
  | bytes values => values.length
  | ascii text => ((Quoted.unquote? text.text).map fun t => (Utf8.chars t).length).getD 0

def Pseudo.size : Pseudo → Nat
  | jump _ => 8
  | mul .. | div .. => 48
  | load .. | store .. => 10
  | swap .. => 12

/-- The number of bytes of an item. -/
def Item.size : Item → Nat
  | label _ => 0
  | data _ d => d.size
  | instruction .. => 2
  | pseudo _ p => p.size

theorem Step.length_bytes? {table : InstructionTable} {s : Step} {bs : List UInt8}
    (h : s.bytes? table = some bs) : bs.length = 2 := by
  obtain ⟨i, -, rfl⟩ := Option.map_eq_some_iff.mp h
  rfl

theorem length_flatten_words {α : Type} {f : α → Option (List UInt8)} {l : List α}
    {words : List (List UInt8)} (hf : ∀ a w, f a = some w → w.length = 2)
    (h : l.mapM f = some words) : words.flatten.length = 2 * l.length := by
  have hwords := option_mapM_eq_some.mp h
  induction hwords with
  | nil => rfl
  | cons ha _ ih =>
    rw [List.flatten_cons, List.length_append, hf _ _ ha, ih (option_mapM_eq_some.mpr ‹_›),
      List.length_cons]
    omega

theorem Data.length_bytes? {d : Data} {bs : List UInt8} (h : d.bytes? = some bs) :
    bs.length = d.size := by
  cases d with
  | space count =>
    simp only [bytes?] at h
    split at h
    · cases h
      rw [List.length_replicate, size]
    · cases h
  | words values =>
    obtain ⟨words, hw, rfl⟩ := Option.map_eq_some_iff.mp h
    refine length_flatten_words (fun n w hn => ?_) hw
    obtain ⟨v, -, rfl⟩ := Option.map_eq_some_iff.mp hn
    rfl
  | bytes values => exact (option_mapM_eq_some.mp h).length_eq.symm
  | ascii text =>
    obtain ⟨t, ht, hbs⟩ := Option.bind_eq_some_iff.mp h
    rw [size, ht]
    exact (option_mapM_eq_some.mp hbs).length_eq.symm

theorem Pseudo.length_steps? {address? : Text → Option Nat} {p : Pseudo} {steps : List Step}
    (h : p.steps? address? = some steps) : 2 * steps.length = p.size := by
  cases p with simp only [steps?, Option.bind_eq_bind, Option.bind_eq_some_iff, Option.pure_def,
    Option.some.injEq] at h
  | jump target =>
    obtain ⟨t, -, rfl⟩ := h
    rfl
  | mul a b | div a b | swap a b =>
    obtain ⟨a, -, b, -, rfl⟩ := h
    rfl
  | load ac label offset | store ac label offset =>
    obtain ⟨d, -, t, -, n, -, rfl⟩ := h
    rfl

theorem Item.length_bytes? {table : InstructionTable} {address? : Text → Option Nat} {i : Item}
    {bs : List UInt8} (h : i.bytes? table address? = some bs) : bs.length = i.size := by
  cases i with
  | label name => cases h; rfl
  | data position d => exact d.length_bytes? h
  | instruction position mnemonic operands =>
    obtain ⟨low, -, hbs⟩ := Option.bind_eq_some_iff.mp h
    exact Step.length_bytes? hbs
  | pseudo position p =>
    simp only [bytes?, Option.bind_eq_bind, Option.bind_eq_some_iff, Option.pure_def,
      Option.some.injEq] at h
    obtain ⟨steps, hsteps, words, hwords, rfl⟩ := h
    rw [length_flatten_words (fun _ _ => Step.length_bytes?) hwords]
    exact p.length_steps? hsteps

def Item.totalSize (items : List Item) : Nat := (items.map Item.size).sum

/-! ### Programs -/

def Item.declares (label : Text) : Item → Bool
  | .label name => name.text = label
  | _ => false

/-- The sum of the sizes of the items before the first declaration of the label. -/
def Item.address? (items : List Item) (label : Text) : Option Nat :=
  if items.any (declares label) then
    some (totalSize (items.takeWhile fun i => !i.declares label))
  else none

/-- The items of all fields. -/
def Program.items (p : Program) : List Item := p.fields.flatMap Field.items

/-- Whatever follows the first declaration of a label, its address stays. -/
theorem Item.address?_concat (items : List Item) (i : Item) (label : Text) :
    address? (items ++ [i]) label =
      (address? items label).or (if i.declares label then some (totalSize items) else none) := by
  unfold address?
  by_cases h : items.any (declares label)
  · have hany : (items ++ [i]).any (declares label) := by rw [List.any_append, h, Bool.true_or]
    rw [if_pos h, if_pos hany, Option.some_or]
    obtain ⟨d, hd, hdecl⟩ := List.any_eq_true.mp h
    rw [List.takeWhile_append, if_neg]
    intro hlen
    rw [← (List.takeWhile_prefix _).eq_of_length hlen] at hd
    have := List.mem_takeWhile_imp hd
    simp [hdecl] at this
  · have hall : ∀ d ∈ items, (!d.declares label) = true := by simpa using h
    rw [if_neg h, Option.none_or, List.any_append, List.takeWhile_append_of_pos hall]
    by_cases hi : i.declares label <;> simp [h, hi]

/-- The bytes of a program in which every label stands for its address. -/
def Program.bytes? (table : InstructionTable) (p : Program) : Option (List UInt8) :=
  (p.items.mapM (Item.bytes? table (Item.address? p.items))).map List.flatten

end AccAsm
