import AccAsm.Proofs.Encoding.Layout
import AccAsm.Proofs.Linking.Exactness

/-! # Places of errors

Encoding and linking take every position from the program. `Traced S Q x` says so of a computation for a
set `S` of places: the errors of `x` are blamed on places in `S`, and `Q` holds of its results. If the
tokens of a program stand in `S`, its encoding is traced to `S` (`Program.encode_traced`), its cells and
their references carry places in `S` along (`Cell.Within`), and so linking blames no others
(`Image.within_of_link`). Nothing is asked of the program or of the instruction table here. -/

namespace AccAsm

/-- The token stands in `S`. A mark in a program has no place. -/
def Token.Within (S : Position → Prop) (t : Token) : Prop := t.kind.isMark = false → S t.position

def Segment.Within (S : Position → Prop) (s : Segment) : Prop := ∀ r ∈ s.ref?, S r.position

/-- The cell and the references in it stand in `S`. -/
structure Cell.Within (S : Position → Prop) (c : Cell) : Prop where
  position : S c.position
  segments : ∀ s ∈ c.segments, s.Within S

section
variable {S : Position → Prop} {position : Position} {fields : List Segment}

namespace Segment

@[simp] theorem within_ofValue (v : UInt16) (w : UInt8) : (ofValue v w).Within S := by
  rintro r ⟨⟩

@[simp] theorem within_ofRef {r : Ref} : (ofRef r).Within S ↔ S r.position := by
  constructor
  · intro h
    exact h r rfl
  · rintro hr r ⟨⟩
    exact hr

theorem Within.split {s : Segment} (hs : s.Within S) (n : UInt8) :
    (s.split n).1.Within S ∧ (s.split n).2.Within S := by
  cases s with
  | literal v w => exact ⟨within_ofValue _ _, within_ofValue _ _⟩
  | placeholder r w =>
    constructor
    · rintro r' ⟨⟩
      exact hs r rfl
    · rintro r' ⟨⟩
      exact hs r rfl

end Segment

/-! ### Packing -/

/-- Cells are packed without a label. -/
theorem Packer.within_cells {cells : List Cell} (hp : S position) (hs : ∀ s ∈ fields, s.Within S)
    (h : (ofList fields).cells position = .ok cells) : ∀ c ∈ cells, c.label = [] ∧ c.Within S := by
  intro c hc
  obtain ⟨hlabel, hposition, hsegments⟩ :=
    forall_mem_cells (Q := Segment.Within S) (fun s n hw _ _ => hw.split n) (fun s hm _ => hs s hm) h c hc
  exact ⟨hlabel, hposition ▸ hp, hsegments⟩

end

namespace Encoding
variable {α β γ : Type} {S : Position → Prop} {Q : α → Prop} {R : β → Prop} {x : Encoding α}

/-- The errors of `x` are blamed on places in `S`, and `Q` holds of its results. -/
structure Traced (S : Position → Prop) (Q : α → Prop) (x : Encoding α) : Prop where
  ok : ∀ a, x = .ok a → Q a
  error : ∀ e, x = .error (.error e) → S e.position

theorem traced_ok {a : α} (h : Q a) : Traced S Q (.ok a) := by
  refine ⟨?_, ?_⟩
  · rintro _ ⟨⟩
    exact h
  · rintro _ ⟨⟩

theorem traced_fail {e : EncodeError} (h : S e.position) : Traced S Q (fail e) := by
  refine ⟨?_, ?_⟩
  · rintro _ ⟨⟩
  · rintro _ ⟨⟩
    exact h

theorem traced_fault (f : Fault) : Traced S Q (.error (.fault f)) := by
  refine ⟨?_, ?_⟩
  · rintro _ ⟨⟩
  · rintro _ ⟨⟩

theorem Traced.bind {f : α → Encoding β} (hx : Traced S Q x) (hf : ∀ a, Q a → Traced S R (f a)) :
    Traced S R (x >>= f) := by
  cases x with
  | ok a => exact hf a (hx.ok a rfl)
  | error failure =>
    refine ⟨?_, ?_⟩
    · rintro _ ⟨⟩
    · rintro e ⟨⟩
      exact hx.error e rfl

theorem Traced.mapM {f : γ → Encoding α} {l : List γ} (h : ∀ c ∈ l, Traced S Q (f c)) :
    Traced S (fun as => ∀ a ∈ as, Q a) (l.mapM f) := by
  induction l with
  | nil => exact traced_ok (by simp)
  | cons c l ih =>
    obtain ⟨hc, hl⟩ := List.forall_mem_cons.mp h
    rw [List.mapM_cons]
    refine hc.bind fun a ha => (ih hl).bind fun as has => traced_ok ?_
    exact List.forall_mem_cons.mpr ⟨ha, has⟩

theorem Traced.foldlM {f : β → γ → Encoding β} {l : List γ} {b : β} (hb : R b)
    (h : ∀ c ∈ l, ∀ b, R b → Traced S R (f b c)) : Traced S R (l.foldlM f b) := by
  induction l generalizing b with
  | nil => exact traced_ok hb
  | cons c l ih =>
    obtain ⟨hc, hl⟩ := List.forall_mem_cons.mp h
    rw [List.foldlM_cons]
    exact (hc b hb).bind fun b' hb' => ih hb' hl

/-! ### Operands -/

section Operands
variable {context : Text} {position : Position}

theorem number_traced {n : Lexeme} (hn : S n.position) (width : Nat) :
    Traced S (fun _ => True) (number n width context) := by
  unfold number
  split
  · exact traced_fail hn
  · exact traced_fail hn
  · split
    · exact traced_ok trivial
    · exact traced_fail hn

theorem registerIndex_traced {reg : Lexeme} (hr : S reg.position) (limit : Nat) :
    Traced S (fun _ => True) (registerIndex reg limit context) := by
  unfold registerIndex
  split
  · exact traced_fault _
  · simp only
    split
    · exact traced_fail hr
    · split
      · exact traced_fail hr
      · exact traced_ok trivial

theorem accumulator_traced {reg : Lexeme} (hr : S reg.position) :
    Traced S (fun _ => True) (accumulator reg context) := by
  refine (registerIndex_traced hr 3).bind fun index _ => ?_
  split
  · exact traced_fail hr
  · exact traced_ok trivial

theorem register_traced {reg : Lexeme} (hr : S reg.position) (strict : Bool) :
    Traced S (fun _ => True) (register strict reg context) := by
  refine (registerIndex_traced hr 15).bind fun index _ => ?_
  split
  · split
    · exact traced_fail hr
    · exact traced_ok trivial
  · exact traced_ok trivial

@[simp] theorem within_zeros (w : UInt8) : (zeros w).Within S := Segment.within_ofValue _ _

@[simp] theorem within_accumulatorField (i : UInt16) : (accumulatorField i).Within S :=
  Segment.within_ofValue _ _

@[simp] theorem within_registerField (i : UInt16) : (registerField i).Within S :=
  Segment.within_ofValue _ _

theorem fields_traced {operands : Operands} (h : ∀ t ∈ operands.tokens, t.Within S) (strict : Bool)
    (mnemonic : Text) :
    Traced S (fun fs => ∀ s ∈ fs, s.Within S) (fields strict mnemonic operands) := by
  cases operands with simp only [Operands.tokens, Lexeme.pair, Lexeme.mixed, List.cons_append,
    List.nil_append, List.forall_mem_cons] at h
  | n => exact traced_ok (by simp)
  | r ac rf₁ rf₂ =>
    obtain ⟨hac, -, hrf₁, -, hrf₂, -⟩ := h
    exact (accumulator_traced (hac rfl)).bind fun _ _ => (register_traced (hrf₁ rfl) strict).bind fun _ _ =>
      (register_traced (hrf₂ rfl) strict).bind fun _ _ => traced_ok (by simp)
  | i ac imm =>
    obtain ⟨hac, -, himm, -⟩ := h
    exact (accumulator_traced (hac rfl)).bind fun _ _ => (number_traced (himm rfl) 8).bind fun _ _ =>
      traced_ok (by simp)
  | s ac rf imm =>
    obtain ⟨hac, -, hrf, -, himm, -⟩ := h
    exact (accumulator_traced (hac rfl)).bind fun _ _ => (register_traced (hrf rfl) strict).bind fun _ _ =>
      (number_traced (himm rfl) 4).bind fun _ _ => traced_ok (by simp)
  | j imm => exact (number_traced (h.1 rfl) 10).bind fun _ _ => traced_ok (by simp)
  | e1 ac rf =>
    obtain ⟨hac, -, hrf, -⟩ := h
    exact (accumulator_traced (hac rfl)).bind fun _ _ => (register_traced (hrf rfl) strict).bind fun _ _ =>
      traced_ok (by simp)
  | e2 rf => exact (register_traced (h.1 rfl) strict).bind fun _ _ => traced_ok (by simp)
  | e3 ac => exact (accumulator_traced (h.1 rfl)).bind fun _ _ => traced_ok (by simp)
  | e4 rf => exact (register_traced (h.1 rfl) strict).bind fun _ _ => traced_ok (by simp)

end Operands

/-! ### Items -/

section Items
variable {position : Position}

theorem pack_traced (hp : S position) {fields : List Segment} (hs : ∀ s ∈ fields, s.Within S) :
    Traced S (fun cells => ∀ c ∈ cells, c.label = [] ∧ c.Within S) (pack position fields) := by
  unfold pack ofFault
  cases h : (Packer.ofList fields).cells position with
  | ok cells => exact traced_ok (Packer.within_cells hp hs h)
  | error fault => exact traced_fault fault

theorem registerOperands_traced {a b : Lexeme} (h : ∀ t ∈ Lexeme.pair a b, t.Within S) (strict : Bool)
    (context : Text) :
    Traced S (fun r => r.1.Within S ∧ r.2.Within S) (registerOperands strict context a b) := by
  have ha : S a.position := h _ (.head _) rfl
  have hb : S b.position := h _ (.tail _ (.tail _ (.head _))) rfl
  refine (register_traced ha strict).bind fun _ _ => ?_
  exact (register_traced hb strict).bind fun _ _ => traced_ok (by simp)

theorem memoryAccess_traced {ac label offset : Lexeme} (h : ∀ t ∈ Lexeme.memory ac label offset, t.Within S)
    (context access : Text) :
    Traced S (fun sequence => ∀ q ∈ sequence, ∀ s ∈ q.fields, s.Within S)
      (memoryAccess context access ac label offset) := by
  simp only [Lexeme.memory, List.forall_mem_cons] at h
  obtain ⟨hac, -, hlabel, -, hoffset, -⟩ := h
  have hlabel : S label.position := hlabel rfl
  refine (accumulator_traced (hac rfl)).bind fun _ _ => ?_
  refine (number_traced (hoffset rfl) byteBits).bind fun _ _ => traced_ok ?_
  simp [memorySequence, loadAddress, storeScratch, scratchAccumulator, scratchRegister, hlabel]

theorem lower_traced (hp : S position) {p : Pseudo} (h : ∀ t ∈ p.tokens, t.Within S) (strict : Bool) :
    Traced S (fun sequence => ∀ q ∈ sequence, ∀ s ∈ q.fields, s.Within S) (lower strict position p) := by
  cases p with
  | jump target =>
    cases target with
    | number n =>
      refine (number_traced (h _ (.head _) rfl) wordBits).bind fun _ _ => traced_ok ?_
      simp [jumpSequence, loadAddress, storeScratch, scratchAccumulator, scratchRegister]
    | label name =>
      have hname : S name.position := h _ (.head _) rfl
      refine traced_ok ?_
      simp [jumpSequence, loadAddress, storeScratch, scratchAccumulator, scratchRegister, hname]
    | other part => exact traced_fail hp
  | mul a b | div a b =>
    refine (registerOperands_traced h strict _).bind fun r hr => traced_ok ?_
    simp [mulSequence, clearScratch, scratchAccumulator, hr, or_imp, forall_and]
  | swap a b =>
    refine (registerOperands_traced h strict _).bind fun r hr => traced_ok ?_
    simp [swapSequence, storeScratch, scratchAccumulator, hr]
  | load ac label offset | store ac label offset => exact memoryAccess_traced h _ _

theorem numberFields_traced {values : List Lexeme} (hv : ∀ n ∈ values, S n.position) (context : Text)
    (width : UInt8) : Traced S (fun fs => ∀ s ∈ fs, s.Within S) (numberFields context width values) :=
  Traced.mapM fun n hn => (number_traced (hv n hn) width.toNat).bind fun _ _ =>
    traced_ok (Segment.within_ofValue _ _)

theorem position_of_numbers {values : List Lexeme} (h : ∀ t ∈ Lexeme.numbers values, t.Within S) :
    ∀ n ∈ values, S n.position := by
  intro n hn
  refine h (n.token .number) ?_ rfl
  cases values with
  | nil => cases hn
  | cons m ns =>
    rcases List.mem_cons.mp hn with rfl | hn
    · exact .head _
    · exact .tail _ (List.mem_flatMap.mpr ⟨n, hn, .tail _ (.head _)⟩)

theorem data_traced (hp : S position) {d : Data} (h : ∀ t ∈ d.tokens, t.Within S) :
    Traced S (fun cells => ∀ c ∈ cells, c.label = [] ∧ c.Within S) (data position d) := by
  cases d with
  | space count =>
    have hc : S count.position := h _ (.head _) rfl
    unfold data space
    simp only
    split
    · exact traced_fail hc
    · split
      · exact traced_fail hc
      · refine traced_ok fun c hm => ?_
        obtain rfl := List.eq_of_mem_replicate hm
        exact ⟨rfl, hp, by simp⟩
  | words values =>
    exact (numberFields_traced (position_of_numbers h) _ 16).bind fun _ hs => pack_traced hp hs
  | bytes values =>
    exact (numberFields_traced (position_of_numbers h) _ 8).bind fun _ hs => pack_traced hp hs
  | ascii literal =>
    have hl : S literal.position := h _ (.head _) rfl
    unfold data ascii
    simp only
    split
    · exact traced_fail hl
    · refine (Traced.mapM (Q := Segment.Within S) fun c _ => ?_).bind fun _ hs => pack_traced hp hs
      unfold charField
      split
      · exact traced_ok (Segment.within_ofValue _ _)
      · exact traced_fail hl

theorem opcodeField_traced (hp : S position) (table : InstructionTable) (mnemonic : Text) (format : Format) :
    Traced S (Segment.Within S) (opcodeField table position mnemonic format) := by
  unfold opcodeField
  split
  · exact traced_fail hp
  · split
    · exact traced_ok (Segment.within_ofValue _ _)
    · exact traced_fail hp

theorem instruction_traced (hp : S position) {operands : Operands} (h : ∀ t ∈ operands.tokens, t.Within S)
    (table : InstructionTable) (strict : Bool) (mnemonic : Text) :
    Traced S (fun cells => ∀ c ∈ cells, c.label = [] ∧ c.Within S)
      (instruction table strict position mnemonic operands) := by
  refine (opcodeField_traced hp table mnemonic operands.format).bind fun opcode ho => ?_
  refine (fields_traced h strict mnemonic).bind fun rest hr => pack_traced hp ?_
  exact List.forall_mem_cons.mpr ⟨ho, hr⟩

theorem primitive_traced (hp : S position) {q : Primitive} (hq : ∀ s ∈ q.fields, s.Within S)
    (table : InstructionTable) :
    Traced S (fun cells => ∀ c ∈ cells, c.label = [] ∧ c.Within S) (primitive table position q) := by
  refine (opcodeField_traced hp table q.mnemonic q.format).bind fun opcode ho => ?_
  simp only
  split
  · exact pack_traced hp (List.forall_mem_cons.mpr ⟨ho, hq⟩)
  · exact traced_fault _

theorem pseudo_traced (hp : S position) {p : Pseudo} (h : ∀ t ∈ p.tokens, t.Within S)
    (table : InstructionTable) (strict : Bool) :
    Traced S (fun cells => ∀ c ∈ cells, c.label = [] ∧ c.Within S) (pseudo table strict position p) := by
  refine (lower_traced hp h strict).bind fun sequence hs => ?_
  refine (Traced.mapM fun q hq => primitive_traced hp (hs q hq) table).bind fun pieces hc => traced_ok ?_
  intro c hm
  obtain ⟨cells, hcells, hm⟩ := List.mem_flatten.mp hm
  exact hc cells hcells c hm

theorem item_traced {i : Item} (h : ∀ t ∈ i.tokens, t.Within S) (table : InstructionTable) (strict : Bool) :
    Traced S (fun cells => ∀ c ∈ cells, c.label = [] ∧ c.Within S) (item table strict i) := by
  cases i with
  | label name => exact traced_ok (by simp)
  | data position d =>
    obtain ⟨hp, h⟩ := List.forall_mem_cons.mp h
    exact data_traced (hp (by cases d <;> rfl)) h
  | instruction position mnemonic operands =>
    obtain ⟨hp, h⟩ := List.forall_mem_cons.mp h
    exact instruction_traced (hp rfl) h table strict mnemonic
  | pseudo position p =>
    obtain ⟨hp, h⟩ := List.forall_mem_cons.mp h
    exact pseudo_traced (hp rfl) h table strict

end Items
end Encoding

/-! ### Programs -/

section Programs
open Encoding (Traced traced_ok traced_fail)
variable {S : Position → Prop} {table : InstructionTable} {strict : Bool}

/-- What has been put out stands in `S`, the label that waits included. -/
structure Emission.Within (S : Position → Prop) (e : Emission) : Prop where
  cells : ∀ c ∈ e.cells.toList, c.Within S
  pending : ∀ name ∈ e.pending, S name.position

namespace Emission
variable {e : Emission}

theorem Within.emit {cells : List Cell} (he : e.Within S) (hc : ∀ c ∈ cells, c.Within S) :
    (e.emit cells).Within S := by
  refine ⟨?_, ?_⟩
  · rw [toList_emit, List.forall_mem_append]
    refine ⟨he.cells, ?_⟩
    unfold mark
    split
    · obtain ⟨hfirst, hrest⟩ := List.forall_mem_cons.mp hc
      exact List.forall_mem_cons.mpr ⟨⟨hfirst.position, hfirst.segments⟩, hrest⟩
    · exact hc
  · rw [pending_emit]
    split
    · exact he.pending
    · simp

theorem item_traced {i : Item} (he : e.Within S) (h : ∀ t ∈ i.tokens, t.Within S) :
    Traced S (Within S) (e.item table strict i) := by
  have hother (i : Item) (h : ∀ t ∈ i.tokens, t.Within S) :
      Traced S (Within S) (Encoding.item table strict i >>= fun cells => .ok (e.emit cells)) :=
    (Encoding.item_traced h table strict).bind fun _ hc => traced_ok (he.emit fun c hm => (hc c hm).2)
  cases i with
  | label name =>
    show Traced S (Within S) (e.declare name)
    unfold declare
    split
    next p hpend => exact traced_fail (he.pending p hpend)
    · refine traced_ok ⟨he.cells, ?_⟩
      rintro _ ⟨⟩
      exact h _ (.head _) rfl
  | data position d | instruction position mnemonic operands | pseudo position p => exact hother _ h

theorem field_traced {f : Field} (he : e.Within S) (h : ∀ t ∈ f.tokens, t.Within S) :
    Traced S (Within S) (e.field table strict f) := by
  cases f with
  | data position items | code position items =>
    refine Traced.foldlM he fun i hi e he => item_traced he fun t ht => ?_
    exact h t (.tail _ (List.mem_flatMap.mpr ⟨i, hi, ht⟩))
  | inclusion position path => exact traced_fail (h _ (.head _) rfl)

end Emission

/-- The errors of encoding are blamed on tokens of the program, and the cells stand where tokens do. -/
theorem Program.encode_traced {p : Program} (h : ∀ t ∈ p.tokens, t.Within S) :
    Traced S (fun cells => ∀ c ∈ cells, c.Within S) (p.encode table strict) := by
  have hfields : Traced S (Emission.Within S) (p.fields.foldlM (Emission.field table strict) {}) := by
    refine Traced.foldlM ⟨by simp, by simp⟩ fun f hf e he => Emission.field_traced he fun t ht => ?_
    exact h t (List.mem_flatMap.mpr ⟨f, hf, ht⟩)
  refine hfields.bind fun e he => ?_
  unfold Emission.finish
  split
  next p hpend => exact traced_fail (he.pending p hpend)
  · exact traced_ok he.cells

/-- Linking blames cells and references. -/
theorem Image.within_of_link {cells : List Cell} (hc : ∀ c ∈ cells, c.Within S) (hw : ∀ c ∈ cells, c.Whole)
    {e : LinkError} (h : link strict cells = .error (.error e)) : ∀ p ∈ e.position?, S p := by
  have hflaw : Cell.FirstFlaw strict cells e := by
    rcases linkable_or_firstFlaw strict cells with hl | ⟨e', he⟩
    · obtain ⟨img, himg⟩ := link_of_linkable hw hl
      cases himg.symm.trans h
    · cases (link_of_firstFlaw hw he).symm.trans h
      exact he
  cases hflaw with
  | oversized => simp [LinkError.position?]
  | redeclared _ _ hcells =>
    rintro _ ⟨⟩
    exact (hc _ (by simp [hcells])).position
  | @undefined r _ _ hr =>
    rintro _ ⟨⟩
    obtain ⟨c, hm, hr⟩ := List.mem_flatMap.mp (List.mem_of_find?_eq_some hr)
    obtain ⟨s, hs, hr⟩ := List.mem_flatMap.mp hr
    exact (hc c hm).segments s hs r (Option.mem_toList.mp hr)

end Programs
end AccAsm
