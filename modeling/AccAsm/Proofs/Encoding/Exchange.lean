import AccAsm.Proofs.Encoding.Decoding
import AccAsm.Proofs.Encoding.Sequence
import Mathlib.Logic.Function.Basic

/-! # Exchanging registers

What the instructions of a machine do is not up to the assembler. A `Machine` is given by the effects of its
instructions on the registers, and only two effects are known, those of `xor` and `mfac`. On every such machine
the six instructions of a swap, which can be read back from its cells (`InstructionTable.disassemble?`), exchange
two different registers and change nothing else but the scratch accumulator. A register that is swapped with
itself is cleared (`Encoding.swap_exchanges`). -/

namespace AccAsm
open Text (lit)

/-- The instruction with its numbers laid out. -/
def Operation.literal (o : Operation Nat) : Operation Segment := ⟨o.mnemonic, o.arguments.literal⟩

/-! ### Reading instructions back -/

namespace InstructionTable
variable {table : InstructionTable} {position : Position} {o : Operation Nat} {ops : List (Operation Nat)}
  {cells : List Cell} {pieces : List (List Cell)}

/-- The instructions in the given cells, two cells for each. -/
def disassemble? (table : InstructionTable) : List Cell → Option (List (Operation Nat))
  | [] => some []
  | [_] => none
  | c :: d :: rest => do
    let hi ← c.byte?
    let lo ← d.byte?
    let o ← table.decode? (hi.toNat * 256 + lo.toNat).toUInt16
    return o :: (← table.disassemble? rest)

theorem toUInt16_wordBytes (w : UInt16) :
    ((w.toNat / 256).toUInt8.toNat * 256 + (w.toNat % 256).toUInt8.toNat).toUInt16 = w := by
  have hlt := w.toNat_lt
  refine UInt16.toNat_inj.mp ?_
  simp only [Nat.toUInt16_eq, UInt16.toNat_ofNat', Nat.toUInt8_eq, UInt8.toNat_ofNat']
  omega

theorem disassemble?_append (hd : (table.rows.map Instruction.opcode).Nodup) (ha : o.arguments.InRange)
    (h : o.literal.Lays table position cells) (rest : List Cell) :
    table.disassemble? (cells ++ rest) =
      (table.disassemble? rest).map (⟨LowerCase.lower o.mnemonic, o.arguments⟩ :: ·) := by
  obtain ⟨row, hmem, hrow, hf, hbytes⟩ := Operation.Lays.map_byte? h ha
  obtain ⟨c, cells', rfl, hc, hbytes⟩ := List.map_eq_cons_iff.mp hbytes
  obtain ⟨d, cells', rfl, hd', hbytes⟩ := List.map_eq_cons_iff.mp hbytes
  obtain rfl := List.map_eq_nil_iff.mp hbytes
  have hdecode := decode?_word hd hmem hf ha
  rw [mnemonic_of_find? hrow] at hdecode
  show table.disassemble? (c :: d :: rest) = _
  rw [disassemble?, hc, hd', Option.bind_eq_bind, Option.bind_some, Option.bind_eq_bind, Option.bind_some,
    toUInt16_wordBytes, hdecode]
  cases table.disassemble? rest <;> rfl

theorem disassemble?_flatten (hd : (table.rows.map Instruction.opcode).Nodup)
    (hops : ∀ o ∈ ops, o.arguments.InRange ∧ LowerCase.lower o.mnemonic = o.mnemonic)
    (h : List.Forall₂ (fun o piece => o.literal.Lays table position piece) ops pieces) :
    table.disassemble? pieces.flatten = some ops := by
  induction h with
  | nil => rfl
  | @cons o piece ops pieces hlays _ ih =>
    obtain ⟨⟨hrange, hlower⟩, hrest⟩ := List.forall_mem_cons.mp hops
    rw [List.flatten_cons, disassemble?_append hd hrange hlays, ih hrest, hlower]
    rfl

end InstructionTable

/-! ### Machines -/

structure Registers where
  general : Fin 16 → UInt16
  accumulator : Fin 4 → UInt16

namespace Registers
variable {i j : Fin 16} {s : Registers}

/-- The contents of two general registers have changed places, and nothing else has changed but maybe the
scratch accumulator. -/
structure Exchanged (i j : Fin 16) (s s' : Registers) : Prop where
  left : s'.general i = s.general j
  right : s'.general j = s.general i
  others : ∀ k, k ≠ i → k ≠ j → s'.general k = s.general k
  accumulators : ∀ c, c ≠ 1 → s'.accumulator c = s.accumulator c

def setGeneral (s : Registers) (d : Fin 16) (v : UInt16) : Registers :=
  { s with general := Function.update s.general d v }

def setAccumulator (s : Registers) (c : Fin 4) (v : UInt16) : Registers :=
  { s with accumulator := Function.update s.accumulator c v }

/-- Two registers combined in the scratch accumulator and in the register `d`. -/
def combine (i j d : Fin 16) (s : Registers) : Registers :=
  (s.setAccumulator 1 (s.general i ^^^ s.general j)).setGeneral d (s.general i ^^^ s.general j)

/-- What a swap does: three rounds, of which the first and the last one write to `i`. -/
def rounds (i j : Fin 16) (s : Registers) : Registers := ((s.combine i j i).combine i j j).combine i j i

theorem accumulator_setAccumulator (c : Fin 4) (v : UInt16) : (s.setAccumulator c v).accumulator c = v :=
  Function.update_self _ _ _

theorem accumulator_combine (d : Fin 16) {c : Fin 4} (hc : c ≠ 1) :
    (s.combine i j d).accumulator c = s.accumulator c :=
  Function.update_of_ne hc _ _

theorem general_combine_self (d : Fin 16) : (s.combine i j d).general d = s.general i ^^^ s.general j :=
  Function.update_self _ _ _

theorem general_combine_of_ne {d k : Fin 16} (hk : k ≠ d) : (s.combine i j d).general k = s.general k :=
  Function.update_of_ne hk _ _

theorem accumulator_rounds {c : Fin 4} (hc : c ≠ 1) :
    (s.rounds i j).accumulator c = s.accumulator c := by
  rw [rounds, accumulator_combine i hc, accumulator_combine j hc, accumulator_combine i hc]

theorem exchanged_rounds (hij : i ≠ j) (s : Registers) : Exchanged i j s (s.rounds i j) := by
  have hi : ((s.combine i j i).combine i j j).general i = s.general i ^^^ s.general j := by
    rw [general_combine_of_ne hij, general_combine_self]
  have hj : ((s.combine i j i).combine i j j).general j = s.general i := by
    rw [general_combine_self, general_combine_self, general_combine_of_ne hij.symm, UInt16.xor_assoc,
      UInt16.xor_self, UInt16.xor_zero]
  refine ⟨?_, ?_, ?_, fun c hc => accumulator_rounds hc⟩
  · rw [rounds, general_combine_self, hi, hj, UInt16.xor_comm, ← UInt16.xor_assoc, UInt16.xor_self, UInt16.zero_xor]
  · rw [rounds, general_combine_of_ne hij.symm, hj]
  · intro k hki hkj
    rw [rounds, general_combine_of_ne hki, general_combine_of_ne hkj, general_combine_of_ne hki]

-- the first round already combines the register with itself, and what it held is lost
theorem general_rounds_self (i : Fin 16) (s : Registers) :
    (s.rounds i i).general = Function.update s.general i 0 := by
  have hclear (s : Registers) : (s.combine i i i).general = Function.update s.general i 0 := by
    show Function.update s.general i (s.general i ^^^ s.general i) = _
    rw [UInt16.xor_self]
  rw [rounds, hclear, hclear, hclear, Function.update_idem, Function.update_idem]

end Registers

/-- A machine by the effects of its instructions, of which two are known. -/
structure Machine where
  step : Operation Nat → Registers → Registers
  step_xor : ∀ (c : Fin 4) (i j : Fin 16) (s : Registers),
    step ⟨lit "xor", .r c i j⟩ s = s.setAccumulator c (s.general i ^^^ s.general j)
  step_mfac : ∀ (c : Fin 4) (d : Fin 16) (s : Registers),
    step ⟨lit "mfac", .e1 c d⟩ s = s.setGeneral d (s.accumulator c)

namespace Machine

def run (m : Machine) (ops : List (Operation Nat)) (s : Registers) : Registers :=
  ops.foldl (fun s o => m.step o s) s

theorem run_append (m : Machine) (ops ops' : List (Operation Nat)) (s : Registers) :
    m.run (ops ++ ops') s = m.run ops' (m.run ops s) :=
  List.foldl_append

/-- The machine on which all other instructions do nothing. -/
def least : Machine where
  step o s :=
    match o.arguments with
    | .r c i j =>
      if o.mnemonic = lit "xor" then
        s.setAccumulator (Fin.ofNat 4 c) (s.general (Fin.ofNat 16 i) ^^^ s.general (Fin.ofNat 16 j))
      else s
    | .e1 c d =>
      if o.mnemonic = lit "mfac" then s.setGeneral (Fin.ofNat 16 d) (s.accumulator (Fin.ofNat 4 c)) else s
    | _ => s
  step_xor c i j s := by simp
  step_mfac c d s := by simp

end Machine

/-! ### Swaps -/

namespace Pseudo

/-- The instructions that combine two registers and move the result to the register `d`. -/
def combination (i j d : Fin 16) : List (Operation Nat) := [⟨lit "xor", .r 1 i j⟩, ⟨lit "mfac", .e1 1 d⟩]

def exchange (i j : Fin 16) : List (Operation Nat) :=
  combination i j i ++ combination i j j ++ combination i j i

theorem expansion_swap {a b : Lexeme} {i j : Fin 16} (ha : a.index = i) (hb : b.index = j) :
    (swap a b).expansion = (exchange i j).map Operation.literal := by
  rw [expansion, ha, hb]
  rfl

theorem readable_exchange (i j : Fin 16) :
    ∀ o ∈ exchange i j, o.arguments.InRange ∧ LowerCase.lower o.mnemonic = o.mnemonic := by
  have hxor : LowerCase.lower (lit "xor") = lit "xor" := by decide +kernel
  have hmfac : LowerCase.lower (lit "mfac") = lit "mfac" := by decide +kernel
  simp [exchange, combination, Arguments.InRange, hxor, hmfac]

end Pseudo

namespace Machine
open Pseudo (combination exchange)

theorem run_combination (m : Machine) (i j d : Fin 16) (s : Registers) :
    m.run (combination i j d) s = s.combine i j d := by
  have hxor : m.step ⟨lit "xor", .r 1 i j⟩ s = s.setAccumulator 1 (s.general i ^^^ s.general j) :=
    m.step_xor 1 i j s
  show m.step ⟨lit "mfac", .e1 1 d⟩ (m.step ⟨lit "xor", .r 1 i j⟩ s) = _
  rw [hxor]
  refine (m.step_mfac 1 d _).trans ?_
  rw [Registers.accumulator_setAccumulator, Registers.combine]

theorem run_exchange (m : Machine) (i j : Fin 16) (s : Registers) :
    m.run (exchange i j) s = s.rounds i j := by
  rw [exchange, run_append, run_append, run_combination, run_combination, run_combination, Registers.rounds]

end Machine

namespace Encoding
variable {table : InstructionTable} {strict : Bool} {position : Position} {a b : Lexeme} {cells : List Cell}

theorem exists_exchange (h : pseudo table strict position (.swap a b) = .ok cells) :
    ∃ (i j : Fin 16) (pieces : List (List Cell)), a.index = i ∧ b.index = j ∧ cells = pieces.flatten ∧
      List.Forall₂ (fun o piece => o.literal.Lays table position piece) (Pseudo.exchange i j) pieces := by
  have hp : (Pseudo.swap a b).Formed := trivial
  have haccepted : ∀ o ∈ (Pseudo.swap a b).operands, o.Accepted strict := by
    unfold pseudo at h
    obtain ⟨sequence, hsequence, -⟩ := except_bind_eq_ok.mp h
    exact ((lower_gives hp sequence).mp hsequence).1
  have hindex {r : Lexeme} (hr : .register r ∈ (Pseudo.swap a b).operands) : ∃ i : Fin 16, r.index = i := by
    have hfits : (Operand.register r).Fits strict := (haccepted _ hr).fits
    exact ⟨⟨r.index, Nat.lt_succ_of_le hfits.1⟩, rfl⟩
  obtain ⟨i, hi⟩ := hindex (r := a) (by simp [Pseudo.operands])
  obtain ⟨j, hj⟩ := hindex (r := b) (by simp [Pseudo.operands])
  rw [pseudo_eq hp haccepted, Pseudo.expansion_swap hi hj] at h
  obtain ⟨pieces, hpieces, hcells⟩ := except_bind_eq_ok.mp h
  refine ⟨i, j, pieces, hi, hj, (Except.ok.inj hcells).symm, ?_⟩
  have hall := List.forall₂_map_left_iff.mp (except_mapM_eq_ok.mp hpieces)
  exact hall.imp fun o piece => (primitive_eq_ok o.arguments.sized_literal).mp

/-- The instructions of a swap, which its cells tell if the opcodes are distinct, exchange two different
registers. They leave everything else as it is but the scratch accumulator, whatever other instructions do. If
the two registers are one, it ends up with zero. -/
theorem swap_exchanges (h : item table strict (.pseudo position (.swap a b)) = .ok cells) :
    ∃ (i j : Fin 16) (ops : List (Operation Nat)), a.index = i ∧ b.index = j ∧
      (∃ pieces : List (List Cell), cells = pieces.flatten ∧
        List.Forall₂ (fun o piece => o.literal.Lays table position piece) ops pieces) ∧
      ((table.rows.map Instruction.opcode).Nodup → table.disassemble? cells = some ops) ∧
      ∀ (m : Machine) (s : Registers),
        (i ≠ j → Registers.Exchanged i j s (m.run ops s)) ∧
        (i = j → (m.run ops s).general = Function.update s.general i 0 ∧
          ∀ c, c ≠ 1 → (m.run ops s).accumulator c = s.accumulator c) := by
  obtain ⟨i, j, pieces, hi, hj, rfl, hpieces⟩ := exists_exchange h
  refine ⟨i, j, Pseudo.exchange i j, hi, hj, ⟨pieces, rfl, hpieces⟩, ?_, ?_⟩
  · intro hd
    exact InstructionTable.disassemble?_flatten hd (Pseudo.readable_exchange i j) hpieces
  · intro m s
    rw [m.run_exchange]
    refine ⟨fun hij => Registers.exchanged_rounds hij s, ?_⟩
    rintro rfl
    exact ⟨Registers.general_rounds_self i s, fun c hc => Registers.accumulator_rounds hc⟩

/-- Registers 2 and 15, on the machine that knows no other instruction. -/
theorem swap_exchanges_registers :
    let a : Lexeme := ⟨{}, lit "$2"⟩
    let b : Lexeme := ⟨{}, lit "$015"⟩
    let s : Registers := ⟨fun k => k.val.toUInt16 * 4369, fun c => c.val.toUInt16⟩
    ∃ cells ops, item .builtin false (.pseudo {} (.swap a b)) = .ok cells ∧
      InstructionTable.builtin.disassemble? cells = some ops ∧
      Registers.Exchanged 2 15 s (Machine.least.run ops s) := by
  intro a b s
  have hencodes : (item .builtin false (.pseudo {} (.swap a b))).toOption.isSome := by decide +kernel
  obtain ⟨cells, hcells⟩ := Option.isSome_iff_exists.mp hencodes
  rw [except_toOption_eq_some] at hcells
  have hd : (InstructionTable.builtin.rows.map Instruction.opcode).Nodup := by decide +kernel
  obtain ⟨i, j, ops, hi, hj, -, hread, hrun⟩ := swap_exchanges hcells
  have ha : a.index = 2 := by decide +kernel
  have hb : b.index = 15 := by decide +kernel
  obtain rfl : i = 2 := Fin.ext (hi.symm.trans ha)
  obtain rfl : j = 15 := Fin.ext (hj.symm.trans hb)
  exact ⟨cells, ops, hcells, hread hd, (hrun Machine.least s).1 (by decide)⟩

/-- A register that is swapped with itself loses what it holds on every machine. -/
theorem swap_same_clears :
    let a : Lexeme := ⟨{}, lit "$2"⟩
    let s : Registers := ⟨fun _ => 7, fun _ => 0⟩
    ∃ cells ops, item .builtin true (.pseudo {} (.swap a a)) = .ok cells ∧
      InstructionTable.builtin.disassemble? cells = some ops ∧
      ∀ m : Machine, (m.run ops s).general 2 = 0 ∧ ¬ Registers.Exchanged 2 2 s (m.run ops s) := by
  intro a s
  have hencodes : (item .builtin true (.pseudo {} (.swap a a))).toOption.bind
      InstructionTable.builtin.disassemble? = some (Pseudo.exchange 2 2) := by decide +kernel
  obtain ⟨cells, hcells, hread⟩ := Option.bind_eq_some_iff.mp hencodes
  refine ⟨cells, _, except_toOption_eq_some.mp hcells, hread, ?_⟩
  intro m
  have hzero : (m.run (Pseudo.exchange 2 2) s).general 2 = 0 := by
    rw [m.run_exchange, Registers.general_rounds_self, Function.update_self]
  refine ⟨hzero, fun h => ?_⟩
  have hkept : (0 : UInt16) = 7 := hzero.symm.trans h.left
  exact absurd hkept (by decide)

end Encoding
end AccAsm
