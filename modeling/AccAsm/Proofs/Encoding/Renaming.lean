import AccAsm.Proofs.Encoding.Layout

/-! # Encoding with other label names

`Program.rename f` gives every label of a program the name `f` has for it. Encoding takes no notice:
the cells of the renamed program are those of the program with the names in their labels and
placeholders replaced (`Program.encode_mirrors`), whether `f` is injective or not.

Two runs are compared by `Failure.Mirrors`, which goes along with a computation step by step. Besides,
the relation keeps track of what linking will need to know of the cells, namely that they are whole.
`Program.labelsIn_of_encode` then comes for free: a renaming that leaves the labels of the program alone
leaves its cells alone, so these have no other labels. -/

namespace AccAsm

namespace Failure
variable {ε δ α β γ : Type} {g : ε → δ} {R : α → β → Prop}

/-- `y` ends as `x` does: results are related by `R`, an error `e` becomes `g e`, a fault stays. -/
inductive Mirrors (g : ε → δ) (R : α → β → Prop) : Except (Failure ε) α → Except (Failure δ) β → Prop
  | ok {a : α} {b : β} (h : R a b) : Mirrors g R (.ok a) (.ok b)
  | error (e : ε) : Mirrors g R (.error (.error e)) (.error (.error (g e)))
  | fault (b : Fault) : Mirrors g R (.error (.fault b)) (.error (.fault b))

namespace Mirrors

theorem mono {S : α → β → Prop} {x : Except (Failure ε) α} {y : Except (Failure δ) β} (h : Mirrors g R x y)
    (hRS : ∀ a b, R a b → S a b) : Mirrors g S x y := by
  cases h with
  | ok h => exact .ok (hRS _ _ h)
  | error e => exact .error e
  | fault b => exact .fault b

/-- Related results are results. -/
theorem results {x : Except (Failure ε) α} {y : Except (Failure δ) β} (h : Mirrors g R x y) :
    Mirrors g (fun a b => R a b ∧ x = .ok a ∧ y = .ok b) x y := by
  cases h with
  | ok h => exact .ok ⟨h, rfl, rfl⟩
  | error e => exact .error e
  | fault b => exact .fault b

theorem bind {α' β' : Type} {S : α' → β' → Prop} {x : Except (Failure ε) α} {y : Except (Failure δ) β}
    {k : α → Except (Failure ε) α'} {l : β → Except (Failure δ) β'} (h : Mirrors g R x y)
    (hk : ∀ a b, R a b → Mirrors g S (k a) (l b)) : Mirrors g S (x >>= k) (y >>= l) := by
  cases h with
  | ok h => exact hk _ _ h
  | error e => exact .error e
  | fault b => exact .fault b

theorem bind_same {α' β' : Type} {S : α' → β' → Prop} {x : Except (Failure ε) α} {y : Except (Failure δ) α}
    {k : α → Except (Failure ε) α'} {l : α → Except (Failure δ) β'} (h : Mirrors g Eq x y)
    (hk : ∀ a, Mirrors g S (k a) (l a)) : Mirrors g S (x >>= k) (y >>= l) := by
  refine h.bind ?_
  rintro a _ rfl
  exact hk a

theorem mapM {h : γ → γ} {k : γ → Except (Failure ε) α} {l : γ → Except (Failure δ) β} {cs : List γ}
    (hk : ∀ c ∈ cs, Mirrors g R (k c) (l (h c))) :
    Mirrors g (List.Forall₂ R) (cs.mapM k) ((cs.map h).mapM l) := by
  induction cs with
  | nil => exact .ok .nil
  | cons c cs ih =>
    obtain ⟨hc, hcs⟩ := List.forall_mem_cons.mp hk
    rw [List.map_cons, List.mapM_cons, List.mapM_cons]
    exact hc.bind fun a b hab => (ih hcs).bind fun as bs habs => .ok (.cons hab habs)

theorem foldlM {h : γ → γ} {k : α → γ → Except (Failure ε) α} {l : β → γ → Except (Failure δ) β}
    {cs : List γ} {a : α} {b : β} (hab : R a b)
    (hk : ∀ c ∈ cs, ∀ a b, R a b → Mirrors g R (k a c) (l b (h c))) :
    Mirrors g R (cs.foldlM k a) ((cs.map h).foldlM l b) := by
  induction cs generalizing a b with
  | nil => exact .ok hab
  | cons c cs ih =>
    obtain ⟨hc, hcs⟩ := List.forall_mem_cons.mp hk
    rw [List.map_cons, List.foldlM_cons, List.foldlM_cons]
    exact (hc a b hab).bind fun a' b' hab' => ih hab' hcs

end Mirrors
end Failure

/-! ### Renaming -/

def Lexeme.rename (f : Text → Text) (l : Lexeme) : Lexeme := { l with text := f l.text }

def JumpTarget.rename (f : Text → Text) : JumpTarget → JumpTarget
  | number n => .number n
  | label name => .label (name.rename f)
  | other part => .other part

def Pseudo.rename (f : Text → Text) : Pseudo → Pseudo
  | jump target => .jump (target.rename f)
  | mul a b => .mul a b
  | div a b => .div a b
  | swap a b => .swap a b
  | load ac label offset => .load ac (label.rename f) offset
  | store ac label offset => .store ac (label.rename f) offset

def Item.rename (f : Text → Text) : Item → Item
  | label name => .label (name.rename f)
  | data position d => .data position d
  | instruction position mnemonic operands => .instruction position mnemonic operands
  | pseudo position p => .pseudo position (p.rename f)

def Field.rename (f : Text → Text) : Field → Field
  | data position items => .data position (items.map (Item.rename f))
  | code position items => .code position (items.map (Item.rename f))
  | inclusion position path => .inclusion position path

/-- The program with other names for its labels. -/
def Program.rename (f : Text → Text) (p : Program) : Program :=
  { p with fields := p.fields.map (Field.rename f) }

/-- The labels that an item declares or refers to. -/
def Item.labels : Item → List Text
  | label name => [name.text]
  | i => i.references

def Field.labels (f : Field) : List Text := f.items.flatMap Item.labels

/-- The labels that a program declares or refers to. -/
def Program.labels (p : Program) : List Text := p.fields.flatMap Field.labels

def Segment.rename (f : Text → Text) : Segment → Segment
  | literal value w => .literal value w
  | placeholder r w => .placeholder { r with label := f r.label } w

namespace Cell

/-- The new name of the label of a cell; no label has none. -/
def newLabel (f : Text → Text) (label : Text) : Text := if label = [] then [] else f label

def rename (f : Text → Text) (c : Cell) : Cell :=
  { c with segments := c.segments.map (Segment.rename f), label := newLabel f c.label }

/-- The labels that a cell has and refers to are among the given ones. -/
structure LabelsIn (labels : List Text) (c : Cell) : Prop where
  label : c.label ≠ [] → c.label ∈ labels
  placeholder : ∀ r w, Segment.placeholder r w ∈ c.segments → r.label ∈ labels

end Cell

def Primitive.rename (f : Text → Text) (q : Primitive) : Primitive :=
  { q with fields := q.fields.map (Segment.rename f) }

/-- The only errors that name labels are those about labels without a cell. -/
def EncodeError.rename (f : Text → Text) : EncodeError → EncodeError
  | danglingLabel position label next => .danglingLabel position (f label) (Cell.newLabel f next)
  | e => e

theorem EncodeError.position_rename (f : Text → Text) (e : EncodeError) :
    (e.rename f).position = e.position := by
  cases e <;> rfl

/-! ### Packing -/

variable {f : Text → Text}

namespace Segment

@[simp] theorem rename_ofValue (v : UInt16) (w : UInt8) : (ofValue v w).rename f = ofValue v w := rfl

@[simp] theorem width_rename (s : Segment) : (s.rename f).width = s.width := by
  cases s <;> rfl

theorem split_rename (s : Segment) (n : UInt8) :
    (s.rename f).split n = ((s.split n).1.rename f, (s.split n).2.rename f) := by
  cases s <;> rfl

@[simp] theorem totalWidth_rename (l : List Segment) : totalWidth (l.map (rename f)) = totalWidth l := by
  induction l with
  | nil => rfl
  | cons s l ih => rw [List.map_cons, totalWidth, totalWidth, width_rename, ih]

end Segment

theorem Cell.rename_closed (position : Position) (s : Segment) (front : List Segment) :
    Cell.rename f { segments := (s :: front).reverse, position } =
      { segments := (s.rename f :: front.map (Segment.rename f)).reverse, position } := by
  rw [Cell.rename, List.map_reverse, List.map_cons]
  rfl

theorem Packer.cut_rename (position : Position) (done : List Cell) (front : List Segment)
    (used : Fin cellBits) (segments : List Segment) :
    cut position (done.map (Cell.rename f)) (front.map (Segment.rename f)) used
        (segments.map (Segment.rename f)) =
      (cut position done front used segments).map (Cell.rename f) := by
  fun_induction cut position done front used segments with
  | case1 => rw [List.map_nil, cut, List.map_reverse]
  | case2 done front used s rest h₀ ih =>
    rw [List.map_cons, cut, if_pos (by rw [Segment.width_rename, h₀])]
    exact ih
  | case3 done front used s rest h₀ hlt ih =>
    have hlt' : used.val + (s.rename f).width.toNat < cellBits := by rwa [Segment.width_rename]
    rw [List.map_cons, cut, if_neg (by rwa [Segment.width_rename]), dif_pos hlt']
    simp only [Segment.width_rename]
    exact ih
  | case4 done front used s rest h₀ hlt heq ih =>
    rw [List.map_cons, cut, if_neg (by rwa [Segment.width_rename]), dif_neg (by rwa [Segment.width_rename]),
      if_pos (by rwa [Segment.width_rename]), ← Cell.rename_closed]
    exact ih
  | case5 done front used s rest h₀ hlt hne free hload parts ih =>
    rw [List.map_cons, cut, if_neg (by rwa [Segment.width_rename]), dif_neg (by rwa [Segment.width_rename]),
      if_neg (by rwa [Segment.width_rename])]
    simp only [Segment.split_rename]
    rw [← Cell.rename_closed]
    exact ih

namespace Encoding
open Failure (Mirrors)
variable {table : InstructionTable} {strict : Bool} {position : Position} {context : Text}

/-- Fields of a program and of the renamed one. -/
structure Alike (f : Text → Text) (ss ss' : List Segment) : Prop where
  eq : ss' = ss.map (Segment.rename f)
  wellFormed : ∀ s ∈ ss, s.WellFormed

/-- Cells of a program and of the renamed one. -/
structure Parallel (f : Text → Text) (cells cells' : List Cell) : Prop where
  eq : cells' = cells.map (Cell.rename f)
  whole : ∀ c ∈ cells, c.Whole

theorem alike_values (vs : List (UInt16 × UInt8)) :
    Alike f (vs.map fun v => .ofValue v.1 v.2) (vs.map fun v => .ofValue v.1 v.2) where
  eq := by simp
  wellFormed := by
    intro s hs
    obtain ⟨v, -, rfl⟩ := List.mem_map.mp hs
    exact Segment.wellFormed_ofValue _ _

theorem alike_cons {s s' : Segment} {ss ss' : List Segment} (hs : Alike f [s] [s']) (h : Alike f ss ss') :
    Alike f (s :: ss) (s' :: ss') := by
  refine ⟨?_, ?_⟩
  · rw [h.eq, List.map_cons, List.singleton_inj.mp hs.eq]
  · exact List.forall_mem_cons.mpr ⟨hs.wellFormed s (.head _), h.wellFormed⟩

theorem alike_of_forall₂ {ss ss' : List Segment} (h : List.Forall₂ (fun s s' => Alike f [s] [s']) ss ss') :
    Alike f ss ss' := by
  induction h with
  | nil => exact alike_values []
  | cons hs _ ih => exact alike_cons hs ih

theorem pack_mirrors {ss ss' : List Segment} (h : Alike f ss ss') :
    Mirrors (EncodeError.rename f) (Parallel f) (pack position ss) (pack position ss') := by
  have hwidth : (Packer.ofList ss').width = (Packer.ofList ss).width := by
    rw [h.eq]
    exact Segment.totalWidth_rename ss
  rw [pack, pack, Packer.cells, Packer.cells, hwidth, h.eq]
  by_cases hw : (Packer.ofList ss).width % cellBits = 0
  · rw [if_pos hw, if_pos hw]
    refine .ok ⟨Packer.cut_rename position [] [] 0 ss, ?_⟩
    obtain ⟨cells, hcells, hpacked⟩ := Packer.packed_cells h.wellFormed hw position
    cases (if_pos hw).symm.trans hcells
    exact hpacked.whole
  · rw [if_neg hw, if_neg hw]
    exact .fault _

/-! ### Operands -/

theorem number_mirrors (n : Lexeme) (width : Nat) :
    Mirrors (EncodeError.rename f) Eq (number n width context) (number n width context) := by
  unfold number
  split
  · exact .error _
  · exact .error _
  · split
    · exact .ok rfl
    · exact .error _

theorem registerIndex_mirrors (reg : Lexeme) (limit : Nat) :
    Mirrors (EncodeError.rename f) Eq (registerIndex reg limit context) (registerIndex reg limit context) := by
  unfold registerIndex
  split
  · exact .fault _
  · dsimp only
    split
    · exact .error _
    · split
      · exact .error _
      · exact .ok rfl

theorem accumulator_mirrors (reg : Lexeme) :
    Mirrors (EncodeError.rename f) Eq (accumulator reg context) (accumulator reg context) := by
  refine (registerIndex_mirrors reg 3).bind_same fun index => ?_
  split
  · exact .error _
  · exact .ok rfl

theorem register_mirrors (reg : Lexeme) :
    Mirrors (EncodeError.rename f) Eq (register strict reg context) (register strict reg context) := by
  refine (registerIndex_mirrors reg 15).bind_same fun index => ?_
  split
  · split
    · exact .error _
    · exact .ok rfl
  · exact .ok rfl

theorem fields_mirrors (mnemonic : Text) (operands : Operands) :
    Mirrors (EncodeError.rename f) (Alike f) (fields strict mnemonic operands)
      (fields strict mnemonic operands) := by
  cases operands with
  | n => exact .ok (alike_values [(0, 10)])
  | r ac rf₁ rf₂ =>
    refine (accumulator_mirrors ac).bind_same fun ac => (register_mirrors rf₁).bind_same fun rf₁ => ?_
    exact (register_mirrors rf₂).bind_same fun rf₂ => .ok (alike_values [(ac, 2), (rf₁, 4), (rf₂, 4)])
  | i ac imm =>
    refine (accumulator_mirrors ac).bind_same fun ac => ?_
    exact (number_mirrors imm 8).bind_same fun imm => .ok (alike_values [(ac, 2), (imm, 8)])
  | s ac rf imm =>
    refine (accumulator_mirrors ac).bind_same fun ac => (register_mirrors rf).bind_same fun rf => ?_
    exact (number_mirrors imm 4).bind_same fun imm => .ok (alike_values [(ac, 2), (rf, 4), (imm, 4)])
  | j imm => exact (number_mirrors imm 10).bind_same fun imm => .ok (alike_values [(imm, 10)])
  | e1 ac rf =>
    refine (accumulator_mirrors ac).bind_same fun ac => ?_
    exact (register_mirrors rf).bind_same fun rf => .ok (alike_values [(ac, 2), (rf, 4), (0, 4)])
  | e2 rf => exact (register_mirrors rf).bind_same fun rf => .ok (alike_values [(0, 2), (rf, 4), (0, 4)])
  | e3 ac => exact (accumulator_mirrors ac).bind_same fun ac => .ok (alike_values [(ac, 2), (0, 8)])
  | e4 rf => exact (register_mirrors rf).bind_same fun rf => .ok (alike_values [(0, 6), (rf, 4)])

/-! ### Data -/

theorem alike_value (v : UInt16) (w : UInt8) : Alike f [.ofValue v w] [.ofValue v w] :=
  alike_values [(v, w)]

theorem numberFields_mirrors (width : UInt8) (values : List Lexeme) :
    Mirrors (EncodeError.rename f) (Alike f) (numberFields context width values)
      (numberFields context width values) := by
  have hvalues : Mirrors (EncodeError.rename f) (List.Forall₂ fun s s' => Alike f [s] [s'])
      (numberFields context width values) (numberFields context width (values.map id)) :=
    Mirrors.mapM fun n _ => (number_mirrors n _).bind_same fun v => .ok (alike_value v width)
  rw [List.map_id] at hvalues
  exact hvalues.mono fun _ _ => alike_of_forall₂

theorem charFields_mirrors (cs : List Char) :
    Mirrors (EncodeError.rename f) (Alike f) (cs.mapM (charField position)) (cs.mapM (charField position)) := by
  have hchar (c : Char) : Mirrors (EncodeError.rename f) (fun s s' => Alike f [s] [s'])
      (charField position c) (charField position c) := by
    unfold charField
    split
    · exact .ok (alike_value _ _)
    · exact .error _
  have hchars : Mirrors (EncodeError.rename f) (List.Forall₂ fun s s' => Alike f [s] [s'])
      (cs.mapM (charField position)) ((cs.map id).mapM (charField position)) :=
    Mirrors.mapM fun c _ => hchar c
  rw [List.map_id] at hchars
  exact hchars.mono fun _ _ => alike_of_forall₂

theorem space_mirrors (count : Lexeme) :
    Mirrors (EncodeError.rename f) (Parallel f) (space position count) (space position count) := by
  unfold space
  dsimp only
  split
  · exact .error _
  · split
    · exact .error _
    · refine .ok ⟨by rw [List.map_replicate]; rfl, fun c hc => ?_⟩
      obtain ⟨-, rfl⟩ := List.mem_replicate.mp hc
      exact ⟨fun s hs => List.mem_singleton.mp hs ▸ Segment.wellFormed_ofValue _ _, rfl⟩

theorem data_mirrors (d : Data) :
    Mirrors (EncodeError.rename f) (Parallel f) (data position d) (data position d) := by
  cases d with
  | space count => exact space_mirrors count
  | words values => exact (numberFields_mirrors 16 values).bind fun _ _ => pack_mirrors
  | bytes values => exact (numberFields_mirrors 8 values).bind fun _ _ => pack_mirrors
  | ascii literal =>
    show Mirrors _ _ (ascii position literal) (ascii position literal)
    unfold ascii
    split
    · exact .error _
    · exact (charFields_mirrors _).bind fun _ _ => pack_mirrors

/-! ### Instructions -/

theorem opcodeField_mirrors (mnemonic : Text) (format : Format) :
    Mirrors (EncodeError.rename f) (fun s s' => Alike f [s] [s'])
      (opcodeField table position mnemonic format) (opcodeField table position mnemonic format) := by
  unfold opcodeField
  split
  · exact .error _
  · split
    · exact .ok (alike_value _ _)
    · exact .error _

theorem instruction_mirrors (mnemonic : Text) (operands : Operands) :
    Mirrors (EncodeError.rename f) (Parallel f) (instruction table strict position mnemonic operands)
      (instruction table strict position mnemonic operands) := by
  refine (opcodeField_mirrors mnemonic operands.format).bind fun s s' hs => ?_
  exact (fields_mirrors mnemonic operands).bind fun ss ss' hss => pack_mirrors (alike_cons hs hss)

/-- Lowered sequences of a program and of the renamed one. -/
structure Alongside (f : Text → Text) (qs qs' : List Primitive) : Prop where
  eq : qs' = qs.map (Primitive.rename f)
  wellFormed : ∀ q ∈ qs, ∀ s ∈ q.fields, s.WellFormed

theorem alongside_cons {mnemonic : Text} {format : Format} {ss ss' : List Segment} {qs qs' : List Primitive}
    (hs : Alike f ss ss') (h : Alongside f qs qs') :
    Alongside f (⟨mnemonic, format, ss⟩ :: qs) (⟨mnemonic, format, ss'⟩ :: qs') := by
  refine ⟨?_, List.forall_mem_cons.mpr ⟨hs.wellFormed, h.wellFormed⟩⟩
  rw [h.eq, hs.eq, List.map_cons]
  rfl

theorem alongside_nil : Alongside f [] [] := ⟨rfl, by simp⟩

theorem Alongside.append {qs qs' rs rs' : List Primitive} (hq : Alongside f qs qs') (hr : Alongside f rs rs') :
    Alongside f (qs ++ rs) (qs' ++ rs') :=
  ⟨by rw [hq.eq, hr.eq, List.map_append], List.forall_mem_append.mpr ⟨hq.wellFormed, hr.wellFormed⟩⟩

section Sequences
variable {hi hi' lo lo' a a' b b' ac ac' offset offset' : Segment}

theorem alongside_loadAddress (hhi : Alike f [hi] [hi']) (hlo : Alike f [lo] [lo']) :
    Alongside f (loadAddress hi lo) (loadAddress hi' lo') :=
  alongside_cons (alike_cons (alike_value _ _) hhi)
    (alongside_cons (alike_cons (alike_value _ _) hlo) alongside_nil)

theorem alongside_storeScratch {qs qs' : List Primitive} (ha : Alike f [a] [a']) (h : Alongside f qs qs') :
    Alongside f (storeScratch a :: qs) (storeScratch a' :: qs') :=
  alongside_cons (alike_cons (alike_value _ _) (alike_cons ha (alike_value _ _))) h

theorem alongside_clearScratch : Alongside f clearScratch clearScratch :=
  alongside_cons (alike_values [(1, 2), (0, 8)]) (alongside_cons (alike_values [(1, 2), (0, 8)]) alongside_nil)

theorem alongside_jump (hhi : Alike f [hi] [hi']) (hlo : Alike f [lo] [lo']) :
    Alongside f (jumpSequence hi lo) (jumpSequence hi' lo') := by
  refine (alongside_loadAddress hhi hlo).append (alongside_storeScratch (alike_value _ _) ?_)
  exact alongside_cons (alike_values [(0, 2), (1, 4), (0, 4)]) alongside_nil

theorem alongside_mul {step : Text} (ha : Alike f [a] [a']) (hb : Alike f [b] [b']) :
    Alongside f (mulSequence step a b) (mulSequence step a' b') := by
  refine ((alongside_clearScratch.append ?_).append alongside_clearScratch).append ?_
  · refine alongside_cons (alike_values [(1, 2), (0, 8)]) (alongside_cons (alike_values [(1, 2), (0, 8)]) ?_)
    refine alongside_cons (alike_cons (alike_value _ _) (alike_cons ha (alike_value _ _))) ?_
    exact alongside_cons (alike_values [(1, 2), (0, 8)]) alongside_nil
  · generalize wordBits = n
    induction n with
    | zero => exact alongside_nil
    | succ n ih =>
      rw [List.replicate_succ, List.replicate_succ]
      exact alongside_cons (alike_cons (alike_value _ _) hb) ih

theorem alongside_memory {access : Text} (hac : Alike f [ac] [ac']) (hhi : Alike f [hi] [hi'])
    (hlo : Alike f [lo] [lo']) (ho : Alike f [offset] [offset']) :
    Alongside f (memorySequence access ac hi lo offset) (memorySequence access ac' hi' lo' offset') := by
  refine (alongside_loadAddress hhi hlo).append (alongside_cons (alike_cons (alike_value _ _) ho) ?_)
  refine alongside_storeScratch (alike_value _ _) (alongside_cons (alike_cons hac ?_) alongside_nil)
  exact alike_values [(1, 4), (0, 4)]

theorem alongside_swap (ha : Alike f [a] [a']) (hb : Alike f [b] [b']) :
    Alongside f (swapSequence a b) (swapSequence a' b') := by
  have hstep {d d' : Segment} {qs qs' : List Primitive} (hd : Alike f [d] [d']) (h : Alongside f qs qs') :
      Alongside f (⟨Text.lit "xor", .r, [scratchAccumulator, a, b]⟩ :: storeScratch d :: qs)
        (⟨Text.lit "xor", .r, [scratchAccumulator, a', b']⟩ :: storeScratch d' :: qs') :=
    alongside_cons (alike_cons (alike_value _ _) (alike_cons ha hb)) (alongside_storeScratch hd h)
  exact hstep ha (hstep hb (hstep ha alongside_nil))

end Sequences

theorem alike_addressBytes (label : Lexeme) :
    Alike f [(addressBytes label).1] [(addressBytes (label.rename f)).1] ∧
      Alike f [(addressBytes label).2] [(addressBytes (label.rename f)).2] := by
  let find? : Text → Option UInt16 := fun _ => some 0
  have hforms := forms_addressBytes (show find? label.text = some 0 from rfl)
  exact ⟨⟨rfl, hforms.1.wellFormed⟩, ⟨rfl, hforms.2.wellFormed⟩⟩

theorem registerOperands_mirrors (a b : Lexeme) :
    Mirrors (EncodeError.rename f) (fun r r' => Alike f [r.1] [r'.1] ∧ Alike f [r.2] [r'.2])
      (registerOperands strict context a b) (registerOperands strict context a b) := by
  refine (register_mirrors a).bind_same fun a => (register_mirrors b).bind_same fun b => ?_
  exact .ok ⟨alike_value _ _, alike_value _ _⟩

theorem memoryAccess_mirrors (access : Text) (ac label offset : Lexeme) :
    Mirrors (EncodeError.rename f) (Alongside f) (memoryAccess context access ac label offset)
      (memoryAccess context access ac (label.rename f) offset) := by
  refine (accumulator_mirrors ac).bind_same fun ac => (number_mirrors offset _).bind_same fun offset => ?_
  obtain ⟨hhi, hlo⟩ := alike_addressBytes (f := f) label
  exact .ok (alongside_memory (alike_value _ _) hhi hlo (alike_value _ _))

theorem lower_mirrors (p : Pseudo) :
    Mirrors (EncodeError.rename f) (Alongside f) (lower strict position p) (lower strict position (p.rename f)) := by
  cases p with
  | jump target =>
    cases target with
    | number n =>
      exact (number_mirrors n _).bind_same fun _ => .ok (alongside_jump (alike_value _ _) (alike_value _ _))
    | label name =>
      obtain ⟨hhi, hlo⟩ := alike_addressBytes (f := f) name
      exact .ok (alongside_jump hhi hlo)
    | other part => exact .error _
  | mul a b | div a b =>
    exact (registerOperands_mirrors a b).bind fun _ _ h => .ok (alongside_mul h.1 h.2)
  | swap a b => exact (registerOperands_mirrors a b).bind fun _ _ h => .ok (alongside_swap h.1 h.2)
  | load ac label offset | store ac label offset => exact memoryAccess_mirrors _ ac label offset

theorem primitive_mirrors {q : Primitive} (hq : ∀ s ∈ q.fields, s.WellFormed) :
    Mirrors (EncodeError.rename f) (Parallel f) (primitive table position q)
      (primitive table position (q.rename f)) := by
  refine (opcodeField_mirrors q.mnemonic q.format).bind fun s s' hs => ?_
  have hfields : Alike f (s :: q.fields) (s' :: (q.rename f).fields) := alike_cons hs ⟨rfl, hq⟩
  have hwidth : (Packer.ofList (s' :: (q.rename f).fields)).width = (Packer.ofList (s :: q.fields)).width := by
    rw [hfields.eq]
    exact Segment.totalWidth_rename _
  dsimp only
  rw [hwidth]
  split
  · exact pack_mirrors hfields
  · exact .fault _

theorem parallel_flatten {pieces pieces' : List (List Cell)} (h : List.Forall₂ (Parallel f) pieces pieces') :
    Parallel f pieces.flatten pieces'.flatten := by
  induction h with
  | nil => exact ⟨rfl, by simp⟩
  | cons hc _ ih =>
    refine ⟨?_, List.forall_mem_append.mpr ⟨hc.whole, ih.whole⟩⟩
    rw [List.flatten_cons, List.flatten_cons, List.map_append, hc.eq, ih.eq]

theorem item_mirrors (i : Item) :
    Mirrors (EncodeError.rename f) (Parallel f) (item table strict i) (item table strict (i.rename f)) := by
  cases i with
  | label name => exact .ok ⟨rfl, by simp⟩
  | data position d => exact data_mirrors d
  | instruction position mnemonic operands => exact instruction_mirrors mnemonic operands
  | pseudo position p =>
    refine (lower_mirrors p).bind fun qs qs' hqs => ?_
    rw [hqs.eq]
    exact (Mirrors.mapM fun q hq => primitive_mirrors (hqs.wellFormed q hq)).bind fun _ _ h =>
      .ok (parallel_flatten h)

end Encoding

/-! ### Programs -/

namespace Emission
open Failure (Mirrors)
variable {table : InstructionTable} {strict : Bool}

/-- What has been put out of a program and of the renamed one. -/
structure Parallel (f : Text → Text) (e e' : Emission) : Prop where
  cells : Encoding.Parallel f e.cells.toList e'.cells.toList
  pending : e'.pending = e.pending.map (Lexeme.rename f)
  named : ∀ name ∈ e.pending, name.text ≠ []

theorem Parallel.emit {e e' : Emission} {cells cells' : List Cell} (h : Parallel f e e')
    (hc : Encoding.Parallel f cells cells') : Parallel f (e.emit cells) (e'.emit cells') := by
  have hmark : mark e'.pending cells' = (mark e.pending cells).map (Cell.rename f) := by
    rw [h.pending, hc.eq]
    cases hp : e.pending with
    | none => rfl
    | some name =>
      cases cells with
      | nil => rfl
      | cons c rest =>
        show { c.rename f with label := f name.text } :: rest.map (Cell.rename f) = _
        rw [mark, List.map_cons, Cell.rename, Cell.rename, Cell.newLabel, Cell.newLabel,
          if_neg (h.named name hp)]
  refine ⟨⟨?_, ?_⟩, ?_, ?_⟩
  · rw [toList_emit, toList_emit, List.map_append, h.cells.eq, hmark]
  · rw [toList_emit]
    refine List.forall_mem_append.mpr ⟨h.cells.whole, fun c hm => ?_⟩
    obtain ⟨d, hd, hs⟩ := exists_mem_of_mem_mark hm
    exact (hc.whole d hd).of_segments hs
  · rw [pending_emit, pending_emit, hc.eq, h.pending]
    by_cases hn : cells = [] <;> simp [hn]
  · rw [pending_emit]
    split
    · exact h.named
    · simp

theorem item_mirrors {e e' : Emission} {i : Item} (h : Parallel f e e') (hi : [] ∉ i.labels) :
    Mirrors (EncodeError.rename f) (Parallel f) (e.item table strict i) (e'.item table strict (i.rename f)) := by
  have hbody : Mirrors (EncodeError.rename f) (Parallel f)
      (Encoding.item table strict i >>= fun cells => pure (e.emit cells))
      (Encoding.item table strict (i.rename f) >>= fun cells => pure (e'.emit cells)) :=
    (Encoding.item_mirrors i).bind fun _ _ hc => .ok (h.emit hc)
  cases i with
  | label name =>
    have hne : name.text ≠ [] := fun hne => hi (hne ▸ .head _)
    show Mirrors _ _ (e.declare name) (e'.declare (name.rename f))
    rw [declare, declare, h.pending]
    cases e.pending with
    | none =>
      refine .ok ⟨h.cells, rfl, ?_⟩
      rintro _ ⟨⟩
      exact hne
    | some p =>
      have hnext : Cell.newLabel f name.text = (name.rename f).text := if_neg hne
      rw [← hnext]
      exact .error (EncodeError.danglingLabel p.position p.text name.text)
  | data position d => exact hbody
  | instruction position mnemonic operands => exact hbody
  | pseudo position p => exact hbody

theorem field_mirrors {e e' : Emission} {d : Field} (h : Parallel f e e') (hd : [] ∉ d.labels) :
    Mirrors (EncodeError.rename f) (Parallel f) (e.field table strict d) (e'.field table strict (d.rename f)) := by
  have hitems : ∀ i ∈ d.items, [] ∉ i.labels := fun i hi hn => hd (List.mem_flatMap.mpr ⟨i, hi, hn⟩)
  cases d with
  | data position items | code position items =>
    exact Mirrors.foldlM h fun i hi e e' he => item_mirrors he (hitems i hi)
  | inclusion position path => exact .error _

theorem finish_mirrors {e e' : Emission} (h : Parallel f e e') :
    Mirrors (EncodeError.rename f) (Encoding.Parallel f) e.finish e'.finish := by
  rw [finish, finish, h.pending]
  cases e.pending with
  | none => exact .ok h.cells
  | some p => exact .error (EncodeError.danglingLabel p.position p.text [])

end Emission

namespace Program
open Failure (Mirrors)
variable {table : InstructionTable} {strict : Bool} {p : Program}

/-- A program with other names for its labels has the same cells with other names. -/
theorem encode_mirrors (hn : [] ∉ p.labels) :
    Mirrors (EncodeError.rename f) (Encoding.Parallel f) (p.encode table strict)
      ((p.rename f).encode table strict) := by
  have hstart : Emission.Parallel f {} {} := ⟨⟨rfl, by simp⟩, rfl, by simp⟩
  refine Mirrors.bind ?_ fun _ _ => Emission.finish_mirrors
  exact Mirrors.foldlM hstart fun d hd e e' he =>
    Emission.field_mirrors he fun hl => hn (List.mem_flatMap.mpr ⟨d, hd, hl⟩)

end Program

/-! ### The labels of the cells -/

theorem Lexeme.rename_eq_self {l : Lexeme} (h : f l.text = l.text) : l.rename f = l := by
  rw [Lexeme.rename, h]

theorem Pseudo.rename_eq_self {p : Pseudo} (h : ∀ l ∈ p.references, f l = l) : p.rename f = p := by
  have hname {name : Lexeme} (hp : name.text ∈ p.references) : name.rename f = name :=
    Lexeme.rename_eq_self (h name.text hp)
  cases p with
  | jump target =>
    cases target with
    | number n => rfl
    | label name => exact congrArg (fun name => jump (.label name)) (hname (.head _))
    | other part => rfl
  | mul a b => rfl
  | div a b => rfl
  | swap a b => rfl
  | load ac label offset => exact congrArg (load ac · offset) (hname (.head _))
  | store ac label offset => exact congrArg (store ac · offset) (hname (.head _))

theorem Item.rename_eq_self {i : Item} (h : ∀ l ∈ i.labels, f l = l) : i.rename f = i := by
  cases i with
  | label name => exact congrArg label (Lexeme.rename_eq_self (h name.text (.head _)))
  | data position d => rfl
  | instruction position mnemonic operands => rfl
  | pseudo position p => exact congrArg (pseudo position) (Pseudo.rename_eq_self h)

theorem Field.rename_eq_self {d : Field} (h : ∀ l ∈ d.labels, f l = l) : d.rename f = d := by
  have hitems : d.items.map (Item.rename f) = d.items := by
    refine (List.map_congr_left fun i hi => ?_).trans (List.map_id _)
    exact Item.rename_eq_self fun l hl => h l (List.mem_flatMap.mpr ⟨i, hi, hl⟩)
  cases d with
  | data position items => exact congrArg (Field.data position) hitems
  | code position items => exact congrArg (Field.code position) hitems
  | inclusion position path => rfl

namespace Program
open Failure (Mirrors)
variable {table : InstructionTable} {strict : Bool} {p : Program}

theorem rename_eq_self (h : ∀ l ∈ p.labels, f l = l) : p.rename f = p := by
  have hfields : p.fields.map (Field.rename f) = p.fields := by
    refine (List.map_congr_left fun d hd => ?_).trans (List.map_id _)
    exact Field.rename_eq_self fun l hl => h l (List.mem_flatMap.mpr ⟨d, hd, hl⟩)
  rw [rename, hfields]

/-- The cells have no labels but those of the program. -/
theorem labelsIn_of_encode {cells : List Cell} (hn : [] ∉ p.labels) (h : p.encode table strict = .ok cells) :
    ∀ c ∈ cells, c.LabelsIn p.labels := by
  -- A renaming that changes all other names does not change the program, so it does not change the cells.
  let g : Text → Text := fun l => if l ∈ p.labels then l else l ++ [0]
  have hmem {l : Text} (hl : g l = l) : l ∈ p.labels := by
    by_contra hnot
    have happend : l ++ [0] = l := (if_neg hnot).symm.trans hl
    simp at happend
  have hsame : p.rename g = p := rename_eq_self fun l hl => if_pos hl
  have hmirrors : Mirrors (EncodeError.rename g) (Encoding.Parallel g) (p.encode table strict)
      ((p.rename g).encode table strict) := encode_mirrors hn
  rw [hsame, h] at hmirrors
  obtain ⟨heq, -⟩ | _ | _ := hmirrors
  intro c hc
  have hcell : c.rename g = c := by
    have hcells : cells.map (Cell.rename g) = cells.map id := by rw [← heq, List.map_id]
    exact List.map_eq_map_iff.mp hcells c hc
  refine ⟨fun hl => hmem ?_, fun r w hr => hmem ?_⟩
  · have := congrArg Cell.label hcell
    rwa [Cell.rename, Cell.newLabel, if_neg hl] at this
  · have hsegments : c.segments.map (Segment.rename g) = c.segments.map id := by
      rw [List.map_id]
      exact congrArg Cell.segments hcell
    have hseg := List.map_eq_map_iff.mp hsegments _ hr
    exact congrArg Ref.label (Segment.placeholder.inj hseg).1

end Program
end AccAsm
