import AccAsm.Encoding.Lowering
import AccAsm.Instruction.Builtin
import AccAsm.Proofs.Encoding.Operand

/-! # Lowering

A pseudo-instruction is lowered to the primitives that `Pseudo.primitives` lists, whatever its operands.
With an address for every label it refers to, the fields of these primitives form the bits of the steps
that it stands for (`lower_meets`). -/

namespace AccAsm
open Text (lit)

namespace Pseudo

/-- The mnemonics and formats of the instructions that a pseudo-instruction is lowered to. -/
def primitives : Pseudo → List (Text × Format)
  | jump _ => [(lit "lui", .i), (lit "ori", .i), (lit "mfac", .e1), (lit "jr", .e2)]
  | mul .. => product (lit "tmul")
  | div .. => product (lit "tdiv")
  | swap .. => [(lit "xor", .r), (lit "mfac", .e1), (lit "xor", .r), (lit "mfac", .e1),
      (lit "xor", .r), (lit "mfac", .e1)]
  | load .. => memory (lit "lwr")
  | store .. => memory (lit "swr")
where
  product (step : Text) : List (Text × Format) :=
    [(lit "lli", .i), (lit "lui", .i), (lit "mth", .e3), (lit "mtl", .e3), (lit "mtac", .e1),
      (lit "mtl", .e3), (lit "lli", .i), (lit "lui", .i)] ++ List.replicate 16 (step, .e4)
  memory (access : Text) : List (Text × Format) :=
    [(lit "lui", .i), (lit "ori", .i), (lit "addi", .i), (lit "mfac", .e1), (access, .e1)]

/-- The labels whose addresses a pseudo-instruction needs. -/
def references : Pseudo → List Text
  | jump (.label name) => [name.text]
  | load _ label _ | store _ label _ => [label.text]
  | _ => []

end Pseudo

/-- The built-in table has every instruction that a pseudo-instruction is lowered to. -/
theorem InstructionTable.builtin_primitives (p : Pseudo) :
    ∀ q ∈ p.primitives, (builtin.find? q.1).bind Instruction.format = some q.2 := by
  cases p <;> rw [Pseudo.primitives] <;> decide +kernel

namespace Encoding
open Failure (Meets meets_ok)
variable {address : Text → Nat}

/-! ### Fields -/

theorem forms_scratchAccumulator : Segment.Forms address [scratchAccumulator] 2 1 :=
  Segment.forms_ofValue (v := scratch.toUInt16) (w := accumulatorBits) (by decide)

theorem forms_scratchRegister : Segment.Forms address [scratchRegister] 4 1 :=
  Segment.forms_ofValue (v := scratch.toUInt16) (w := registerBits) (by decide)

theorem forms_addressBytes {find? : Text → Option UInt16} {label : Lexeme} {a : UInt16}
    (h : find? label.text = some a) :
    Segment.Forms (addressOf find?) [(addressBytes label).1] 8 (a.toNat / 256) ∧
      Segment.Forms (addressOf find?) [(addressBytes label).2] 8 (a.toNat % 256) := by
  have ha : addressOf find? label.text = a.toNat := by rw [addressOf, h]; rfl
  have hlt := a.toNat_lt
  have hbytes : addressBytes label = (.placeholder ⟨label.text, 15, 8, label.position⟩ 8,
      .placeholder ⟨label.text, 7, 0, label.position⟩ 8) := by
    have hwidth : (15 - 8 + 1 : UInt8) = 8 ∧ (7 - 0 + 1 : UInt8) = 8 := by decide
    simp only [addressBytes, Segment.ofRef, Ref.width, hwidth]
  rw [hbytes]
  constructor
  · refine ⟨by omega, fun s hs => List.mem_singleton.mp hs ▸ ?_, ?_⟩
    · exact (show 8 + 8 = 15 + 1 ∧ 0 < 8 ∧ 15 ≤ 15 by decide)
    · rw [List.flatMap_singleton, ← ha]
      rfl
  · refine ⟨Nat.mod_lt _ (by decide), fun s hs => List.mem_singleton.mp hs ▸ ?_, ?_⟩
    · exact (show 0 + 8 = 7 + 1 ∧ 0 < 8 ∧ 7 ≤ 15 by decide)
    · rw [List.flatMap_singleton, ← ha]
      exact (congrArg (Bits.list 8) (Nat.div_one _)).trans (Bits.list_mod (Nat.le_refl 8) _).symm

/-- The fields of a primitive form the bits of a step. -/
def Shows (address : Text → Nat) (q : Primitive) (s : Step) : Prop :=
  q.mnemonic = s.mnemonic ∧ Segment.Forms address q.fields 10 s.low

/-! ### Sequences -/

section Sequences
variable {hi lo a b ac offset : Segment} {t x y d n : Nat}

theorem loadAddress_shows (hhi : Segment.Forms address [hi] 8 (t / 256))
    (hlo : Segment.Forms address [lo] 8 (t % 256)) :
    List.Forall₂ (Shows address) (loadAddress hi lo) (Step.address t) :=
  .cons ⟨rfl, forms_scratchAccumulator.append hhi⟩
    (.cons ⟨rfl, forms_scratchAccumulator.append hlo⟩ .nil)

theorem storeScratch_shows (ha : Segment.Forms address [a] 4 x) :
    Shows address (storeScratch a) ⟨lit "mfac", 256 + x * 16⟩ := by
  refine ⟨rfl, ?_⟩
  have hform := (forms_scratchAccumulator.append ha).append (forms_zeros 4)
  have hval : (1 * 2 ^ 4 + x) * 2 ^ 4 + 0 = 256 + x * 16 := by omega
  exact hval ▸ hform

theorem clearScratch_shows :
    List.Forall₂ (Shows address) clearScratch [⟨lit "lli", 256⟩, ⟨lit "lui", 256⟩] :=
  .cons ⟨rfl, forms_scratchAccumulator.append (forms_zeros 8)⟩
    (.cons ⟨rfl, forms_scratchAccumulator.append (forms_zeros 8)⟩ .nil)

theorem jumpSequence_shows (hhi : Segment.Forms address [hi] 8 (t / 256))
    (hlo : Segment.Forms address [lo] 8 (t % 256)) :
    List.Forall₂ (Shows address) (jumpSequence hi lo)
      (Step.address t ++ [⟨lit "mfac", 256 + 16⟩, ⟨lit "jr", 16⟩]) := by
  refine List.rel_append (loadAddress_shows hhi hlo)
    (.cons (storeScratch_shows forms_scratchRegister) (.cons ⟨rfl, ?_⟩ .nil))
  exact ((forms_zeros 2).append forms_scratchRegister).append (forms_zeros 4)

theorem mulSequence_shows (step : Text) (ha : Segment.Forms address [a] 4 x)
    (hb : Segment.Forms address [b] 4 y) :
    List.Forall₂ (Shows address) (mulSequence step a b) (Step.product step x y) := by
  have hbyte (mnemonic : Text) :
      Shows address ⟨mnemonic, .e3, [scratchAccumulator, zeros 8]⟩ ⟨mnemonic, 256⟩ :=
    ⟨rfl, forms_scratchAccumulator.append (forms_zeros 8)⟩
  have hmove : Shows address ⟨lit "mtac", .e1, [scratchAccumulator, a, zeros 4]⟩
      ⟨lit "mtac", 256 + x * 16⟩ := ⟨rfl, (storeScratch_shows ha).2⟩
  have hstep : Shows address ⟨step, .e4, [zeros 6, b]⟩ ⟨step, y⟩ := by
    have hform : Segment.Forms address [zeros 6, b] 10 (0 * 2 ^ 4 + y) := (forms_zeros 6).append hb
    have hval : 0 * 2 ^ 4 + y = y := by omega
    exact ⟨rfl, hval ▸ hform⟩
  have hloop : List.Forall₂ (Shows address) (List.replicate wordBits ⟨step, .e4, [zeros 6, b]⟩)
      (List.replicate 16 ⟨step, y⟩) := forall₂_replicate hstep 16
  exact List.rel_append (List.rel_append (List.rel_append clearScratch_shows
    (.cons (hbyte _) (.cons (hbyte _) (.cons hmove (.cons (hbyte _) .nil))))) clearScratch_shows) hloop

theorem memorySequence_shows (access : Text) (hac : Segment.Forms address [ac] 2 d)
    (hhi : Segment.Forms address [hi] 8 (t / 256)) (hlo : Segment.Forms address [lo] 8 (t % 256))
    (hn : Segment.Forms address [offset] 8 n) :
    List.Forall₂ (Shows address) (memorySequence access ac hi lo offset)
      (Step.memory access d t n) := by
  refine List.rel_append (loadAddress_shows hhi hlo)
    (.cons ⟨rfl, forms_scratchAccumulator.append hn⟩
      (.cons (storeScratch_shows forms_scratchRegister) (.cons ⟨rfl, ?_⟩ .nil)))
  have hform := (hac.append forms_scratchRegister).append (forms_zeros 4)
  have hval : (d * 2 ^ 4 + 1) * 2 ^ 4 + 0 = d * 256 + 16 := by omega
  exact hval ▸ hform

theorem swapSequence_shows (ha : Segment.Forms address [a] 4 x)
    (hb : Segment.Forms address [b] 4 y) :
    List.Forall₂ (Shows address) (swapSequence a b) (Step.exchange x y) := by
  have hxor : Shows address ⟨lit "xor", .r, [scratchAccumulator, a, b]⟩
      ⟨lit "xor", 256 + x * 16 + y⟩ := by
    have hform := (forms_scratchAccumulator.append ha).append hb
    have hval : (1 * 2 ^ 4 + x) * 2 ^ 4 + y = 256 + x * 16 + y := by omega
    exact ⟨rfl, hval ▸ hform⟩
  exact .cons hxor (.cons (storeScratch_shows ha) (.cons hxor (.cons (storeScratch_shows hb)
    (.cons hxor (.cons (storeScratch_shows ha) .nil)))))

end Sequences

/-! ### Pseudo-instructions -/

/-- The sequence is one that the pseudo-instruction stands for. -/
structure Lowers (p : Pseudo) (sequence : List Primitive) : Prop where
  primitives : sequence.map (fun q => (q.mnemonic, q.format)) = p.primitives
  mentions : ∀ label ∈ p.references, ∃ q ∈ sequence, ∃ s ∈ q.fields, s.Mentions label
  shows : ∀ find? : Text → Option UInt16, (∀ label ∈ p.references, (find? label).isSome) →
    ∃ steps, p.steps? (fun label => (find? label).map UInt16.toNat) = some steps ∧
      List.Forall₂ (Shows (addressOf find?)) sequence steps

theorem mentions_addressBytes (label : Lexeme) : (addressBytes label).1.Mentions label.text :=
  ⟨_, rfl, rfl⟩

theorem registerOperands_meets {a b : Lexeme} (ha : Kind.register.Spells a.text)
    (hb : Kind.register.Spells b.text) (strict : Bool) (context : Text) :
    Meets EncodeError.IsOperand
      (fun s => ∃ x y, a.register? 15 = some x ∧ b.register? 15 = some y ∧
        ∀ address, Segment.Forms address [s.1] 4 x ∧ Segment.Forms address [s.2] 4 y)
      (registerOperands strict context a b) := by
  refine (register_meets ha strict context).bind fun x hx => ?_
  refine (register_meets hb strict context).bind fun y hy => ?_
  exact meets_ok ⟨_, _, hx, hy, fun _ => ⟨forms_register hx, forms_register hy⟩⟩

theorem memoryAccess_meets {ac label offset : Lexeme} (hac : Kind.accumulator.Spells ac.text)
    (hoff : Kind.number.Spells offset.text) (context access : Text) :
    Meets EncodeError.IsOperand
      (fun sequence => sequence.map (fun q => (q.mnemonic, q.format)) = Pseudo.primitives.memory access ∧
        (∃ q ∈ sequence, ∃ s ∈ q.fields, s.Mentions label.text) ∧
        ∃ d n, ac.register? 3 = some d ∧ offset.field? 8 = some n ∧
          ∀ (find? : Text → Option UInt16) (a : UInt16), find? label.text = some a →
            List.Forall₂ (Shows (addressOf find?)) sequence (Step.memory access d a.toNat n))
      (memoryAccess context access ac label offset) := by
  refine (accumulator_meets hac context).bind fun d hd => ?_
  refine (number_meets hoff (by decide) (by decide) context).bind fun n hn => ?_
  refine meets_ok ⟨rfl, ⟨_, .head _, _, .tail _ (.head _), mentions_addressBytes label⟩, _, _, hd, hn,
    fun find? a ha => ?_⟩
  exact memorySequence_shows access (forms_accumulator hd) (forms_addressBytes ha).1
    (forms_addressBytes ha).2 (forms_number (w := 8) hn)

theorem lower_meets {p : Pseudo} (hp : p.Formed) (hs : ∀ t ∈ p.tokens, t.Legible) (strict : Bool)
    (position : Position) :
    Meets EncodeError.IsOperand (Lowers p) (lower strict position p) := by
  cases p with
  | jump target =>
    cases target with
    | number n =>
      refine (number_meets (hs _ (.head _) rfl rfl) (by decide) (by decide) _).bind fun a ha => ?_
      refine meets_ok ⟨rfl, by simp [Pseudo.references], fun find? _ => ?_⟩
      have ha : n.field? 16 = some a.toNat := ha
      have hdown : (Bits.shiftDown a 8).toNat = a.toNat / 256 := Bits.toNat_shiftDown a 8
      have hhi : Segment.Forms (addressOf find?) [.ofValue (Bits.shiftDown a 8) 8] 8 (a.toNat / 256) := by
        have hlt := a.toNat_lt
        rw [← hdown]
        exact Segment.forms_ofValue (w := 8) (by rw [hdown]; show _ < 256; omega)
      refine ⟨_, ?_, jumpSequence_shows hhi (Segment.forms_ofValue_mod a 8)⟩
      rw [Pseudo.steps?, JumpTarget.address?, ha]
      rfl
    | label name =>
      refine meets_ok ⟨rfl, ?_, fun find? hf => ?_⟩
      · intro label hl
        cases List.mem_singleton.mp hl
        exact ⟨_, .head _, _, .tail _ (.head _), mentions_addressBytes name⟩
      · obtain ⟨a, ha⟩ := Option.isSome_iff_exists.mp (hf name.text (.head _))
        refine ⟨_, ?_, jumpSequence_shows (forms_addressBytes ha).1 (forms_addressBytes ha).2⟩
        rw [Pseudo.steps?, JumpTarget.address?, ha]
        rfl
    | other part => exact hp.elim
  | mul a b | div a b =>
    refine (registerOperands_meets (hs _ (.head _) rfl rfl) (hs _ (.tail _ (.tail _ (.head _))) rfl rfl)
      strict _).bind fun s hs => ?_
    obtain ⟨s₁, s₂⟩ := s
    obtain ⟨x, y, hx, hy, hform⟩ := hs
    refine meets_ok ⟨rfl, by simp [Pseudo.references], fun find? _ =>
      ⟨_, ?_, mulSequence_shows _ (hform _).1 (hform _).2⟩⟩
    rw [Pseudo.steps?, hx, hy]
    rfl
  | swap a b =>
    refine (registerOperands_meets (hs _ (.head _) rfl rfl) (hs _ (.tail _ (.tail _ (.head _))) rfl rfl)
      strict _).bind fun s hs => ?_
    obtain ⟨s₁, s₂⟩ := s
    obtain ⟨x, y, hx, hy, hform⟩ := hs
    refine meets_ok ⟨rfl, by simp [Pseudo.references], fun find? _ =>
      ⟨_, ?_, swapSequence_shows (hform _).1 (hform _).2⟩⟩
    rw [Pseudo.steps?, hx, hy]
    rfl
  | load ac label offset | store ac label offset =>
    refine (memoryAccess_meets (hs _ (.head _) rfl rfl)
      (hs (offset.token .number) (by simp [Pseudo.tokens, Lexeme.memory]) rfl rfl) _ _).mono
      (fun _ h => h) fun sequence h => ?_
    obtain ⟨hprim, hment, d, n, hd, hn, hshows⟩ := h
    refine ⟨hprim, ?_, fun find? hf => ?_⟩
    · intro l hl
      cases List.mem_singleton.mp hl
      exact hment
    · obtain ⟨a, ha⟩ := Option.isSome_iff_exists.mp (hf label.text (.head _))
      refine ⟨_, ?_, hshows find? a ha⟩
      rw [Pseudo.steps?, hd, hn, ha]
      rfl

end Encoding
end AccAsm
