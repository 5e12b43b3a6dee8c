import AccAsm.Proofs.Encoding.Validity
import AccAsm.Proofs.Inclusion.Flattening
import AccAsm.Proofs.Instruction.Table
import AccAsm.Proofs.Program.Automaton

/-! # What an assembly looks up

A token asks the instruction table for its own mnemonic, or, if it is the name of a pseudo-instruction,
for the mnemonics of the lowered sequence (`Token.Consults`). An assembly asks for what the tokens of the
files it comes to ask for (`Assembler.Consults`), and for nothing else: with another table that gives
the same answers it goes the same way and ends the same way (`Assembler.assemble_congr`).

Both stages that use the table are shown to depend on these answers alone. Reading is followed by the
automaton, where a table only matters in the step over a mnemonic, and encoding item by item. -/

namespace AccAsm
open Text (lit)

/-- The mnemonics that a token makes an assembly look up. -/
inductive Token.Consults (t : Token) : Text → Prop
  | instruction (hk : t.kind = .mnemonic) (hp : Reading.pseudo? t.value = none) : Consults t t.value
  | primitive (hk : t.kind = .mnemonic) {p : Pseudo} (hn : p.name = t.value) {m : Text}
      (hm : m ∈ p.primitives.map Prod.fst) : Consults t m

/-- The mnemonics that the encoding of an item looks up. -/
def Item.consulted : Item → List Text
  | instruction _ mnemonic _ => [mnemonic]
  | pseudo _ p => p.primitives.map Prod.fst
  | _ => []

variable {table other : InstructionTable}

/-! ### Reading -/

namespace Automaton

theorem pseudo?_eq_none {name : Text} : Reading.pseudo? name = none ↔ pseudoSlots? name = none := by
  unfold Reading.pseudo? pseudoSlots?
  repeat' split
  all_goals simp

theorem afterMnemonic_congr {t : Token}
    (h : Reading.pseudo? t.value = none → other.find? t.value = table.find? t.value) :
    afterMnemonic other t = afterMnemonic table t := by
  have hslots : operandSlots? other t.value = operandSlots? table t.value := by
    unfold operandSlots?
    cases hp : pseudoSlots? t.value with
    | some slots => rfl
    | none => rw [h (pseudo?_eq_none.mpr hp)]
  rw [afterMnemonic, afterMnemonic, hslots]

theorem step_congr {t : Token} (q : State)
    (h : t.kind = .mnemonic → Reading.pseudo? t.value = none → other.find? t.value = table.find? t.value) :
    q.step other t = q.step table t := by
  obtain ⟨awaited, spot⟩ := q
  cases awaited with
  | cons slot more => rfl
  | nil =>
    show spot.step other t = spot.step table t
    by_cases hk : t.kind ∈ [Kind.mnemonic]
    · have hbody := afterMnemonic_congr (h (List.mem_singleton.mp hk))
      cases spot with
      | code => rw [Spot.step, Spot.step, nextItem, nextItem, hbody]
      | labelledCode => rw [Spot.step, Spot.step, nextLabelled, nextLabelled, hbody]
      | _ => rfl
    · cases spot with
      | code => rw [Spot.step, Spot.step, nextItem, nextItem, if_neg hk, if_neg hk]
      | labelledCode => rw [Spot.step, Spot.step, nextLabelled, nextLabelled, if_neg hk, if_neg hk]
      | _ => rfl

theorem run_congr {ts : List Token} (ending : Position) (q : State)
    (h : ∀ t ∈ ts, t.kind = .mnemonic → Reading.pseudo? t.value = none →
      other.find? t.value = table.find? t.value) :
    run other ending q ts = run table ending q ts := by
  induction ts generalizing q with
  | nil =>
    have hstep : q.step other { kind := .endOfFile, position := ending } =
        q.step table { kind := .endOfFile, position := ending } := step_congr q (by rintro ⟨⟩)
    rw [run, run, hstep]
  | cons t ts ih =>
    obtain ⟨ht, hts⟩ := List.forall_mem_cons.mp h
    rw [run, run, step_congr q ht]
    split
    · rfl
    · rfl
    · exact ih _ hts

end Automaton

theorem Item.Listed.imp {P Q : Item → Prop} {items : List Item} (h : Listed P items)
    (hpq : ∀ i ∈ items, P i → Q i) : Listed Q items := by
  induction h with
  | nil => exact .nil
  | item hi _ ih =>
    obtain ⟨hfirst, hrest⟩ := List.forall_mem_cons.mp hpq
    exact .item (hfirst hi) (ih hrest)
  | labelled name hi _ ih =>
    obtain ⟨-, hrest⟩ := List.forall_mem_cons.mp hpq
    obtain ⟨hfirst, hrest⟩ := List.forall_mem_cons.mp hrest
    exact .labelled name (hfirst hi) (ih hrest)

namespace Program
variable {p : Program} {ts : List Token}

/-- The mnemonic of an item of a program is that of a token. -/
theorem exists_mnemonic (htok : (Token.beforeEnd ts).map Token.kept = p.tokens) {f : Field} (hf : f ∈ p.fields)
    {i : Item} (hi : i ∈ f.items) {position : Position} {value : Text}
    (ht : ⟨.mnemonic, position, value⟩ ∈ i.tokens) : ∃ t ∈ ts, t.kind = .mnemonic ∧ t.value = value := by
  have hitem : ⟨.mnemonic, position, value⟩ ∈ f.tokens := by
    have hmem := List.mem_flatMap.mpr ⟨i, hi, ht⟩
    cases f with
    | data _ items | code _ items => exact .tail _ hmem
    | inclusion _ path => cases hi
  have hkept : ⟨.mnemonic, position, value⟩ ∈ (Token.beforeEnd ts).map Token.kept := by
    rw [htok]
    exact List.mem_flatMap.mpr ⟨f, hf, hitem⟩
  obtain ⟨t, hmem, hk⟩ := List.mem_map.mp hkept
  have hkind : t.kind = .mnemonic := by rw [← Token.kind_kept, hk]
  rw [Token.kept_eq_self (by rw [hkind]; rfl) (by rw [hkind]; rfl)] at hk
  exact ⟨t, (List.takeWhile_prefix _).subset hmem, hkind, by rw [hk]⟩

/-- Reading asks for the mnemonics of tokens that name no pseudo-instruction. -/
theorem ofTokens_congr (hf : ∀ t ∈ ts, t.Folded)
    (h : ∀ t ∈ ts, t.kind = .mnemonic → Reading.pseudo? t.value = none →
      other.find? t.value = table.find? t.value) : ofTokens other ts = ofTokens table ts := by
  have hrun : Automaton.reads other Automaton.start (.ofList ts) =
      Automaton.reads table Automaton.start (.ofList ts) := Automaton.run_congr _ _ h
  cases hread : ofTokens table ts with
  | error e =>
    rw [ofTokens_eq_error] at hread ⊢
    rw [hrun, hread]
  | ok p =>
    -- The trees that the two tables allow are the same as far as they are spelled by these tokens.
    obtain ⟨hpos, hform, htok⟩ := (ofTokens_eq_ok hf).mp hread
    refine (ofTokens_eq_ok hf).mpr ⟨hpos, fun f hm => ?_, htok⟩
    have hformed := hform f hm
    cases f with
    | data position items => exact hformed
    | inclusion position path => trivial
    | code position items =>
      refine Item.Listed.imp hformed fun i hi hcode => ?_
      cases hcode with
      | pseudo position hp => exact .pseudo position hp
      | instruction position hp hfind =>
        obtain ⟨t, ht, hk, rfl⟩ := exists_mnemonic htok hm hi (.head _)
        exact .instruction position hp ((h t ht hk hp).trans hfind)

end Program

/-! ### Encoding -/

namespace Encoding
variable {strict : Bool} {position : Position}

theorem opcodeField_congr {mnemonic : Text} (h : other.find? mnemonic = table.find? mnemonic) (format : Format) :
    opcodeField other position mnemonic format = opcodeField table position mnemonic format := by
  rw [opcodeField, opcodeField, h]

theorem primitives_of_lower {p : Pseudo} {sequence : List Primitive} (h : lower strict position p = .ok sequence) :
    sequence.map (fun q => (q.mnemonic, q.format)) = p.primitives := by
  have hmemory {context access : Text} {ac label offset : Lexeme}
      (h : memoryAccess context access ac label offset = .ok sequence) :
      sequence.map (fun q => (q.mnemonic, q.format)) = Pseudo.primitives.memory access := by
    obtain ⟨ac, -, h⟩ := except_bind_eq_ok.mp h
    obtain ⟨offset, -, h⟩ := except_bind_eq_ok.mp h
    cases h
    rfl
  cases p with
  | jump target =>
    cases target with
    | number n =>
      obtain ⟨a, -, h⟩ := except_bind_eq_ok.mp h
      cases h
      rfl
    | label name =>
      cases h
      rfl
    | other part => cases h
  | mul a b | div a b | swap a b =>
    obtain ⟨s, -, h⟩ := except_bind_eq_ok.mp h
    cases h
    rfl
  | load ac label offset | store ac label offset => exact hmemory h

theorem primitives_congr {sequence : List Primitive}
    (h : ∀ q ∈ sequence, other.find? q.mnemonic = table.find? q.mnemonic) :
    sequence.mapM (primitive other position) = sequence.mapM (primitive table position) := by
  induction sequence with
  | nil => rfl
  | cons q sequence ih =>
    obtain ⟨hq, hrest⟩ := List.forall_mem_cons.mp h
    have hfirst : primitive other position q = primitive table position q := by
      rw [primitive, primitive, opcodeField_congr hq]
    rw [List.mapM_cons, List.mapM_cons, hfirst, ih hrest]

theorem item_congr {i : Item} (h : ∀ m ∈ i.consulted, other.find? m = table.find? m) :
    item other strict i = item table strict i := by
  cases i with
  | label name => rfl
  | data position d => rfl
  | instruction position mnemonic operands =>
    show instruction other strict position mnemonic operands = instruction table strict position mnemonic operands
    rw [instruction, instruction, opcodeField_congr (h mnemonic (.head _))]
  | pseudo position p =>
    show pseudo other strict position p = pseudo table strict position p
    rw [pseudo, pseudo]
    cases hl : lower strict position p with
    | error e => rfl
    | ok sequence =>
      have hsequence : ∀ q ∈ sequence, other.find? q.mnemonic = table.find? q.mnemonic := by
        intro q hq
        refine h q.mnemonic (List.mem_map.mpr ⟨(q.mnemonic, q.format), ?_, rfl⟩)
        rw [← primitives_of_lower hl]
        exact List.mem_map_of_mem hq
      exact congrArg (fun x : Encoding (List (List Cell)) => x >>= fun cells => pure cells.flatten)
        (primitives_congr hsequence)

end Encoding

/-- Encoding asks for the mnemonics of the instructions and of the lowered sequences. -/
theorem Program.encode_congr {p : Program} {strict : Bool} (hn : ∀ f ∈ p.fields, f.isInclusion = false)
    (h : ∀ i ∈ p.items, ∀ m ∈ i.consulted, other.find? m = table.find? m) :
    p.encode other strict = p.encode table strict := by
  have hitems (items : List Item) (h : ∀ i ∈ items, ∀ m ∈ i.consulted, other.find? m = table.find? m)
      (e : Emission) : items.foldlM (Emission.item other strict) e = items.foldlM (Emission.item table strict) e := by
    induction items generalizing e with
    | nil => rfl
    | cons i items ih =>
      obtain ⟨hi, hrest⟩ := List.forall_mem_cons.mp h
      have hfirst : e.item other strict i = e.item table strict i := by
        cases hl : i.isLabel with
        | false => rw [Emission.item_eq hl, Emission.item_eq hl, Encoding.item_congr hi]
        | true =>
          cases i with
          | label name => rfl
          | _ => cases hl
      rw [List.foldlM_cons, List.foldlM_cons, hfirst]
      congr 1
      funext e'
      exact ih hrest e'
  rw [encode_eq hn, encode_eq hn, hitems p.items h]

/-! ### Expansion -/

theorem Logged.bind_congr {α β : Type} {x : Logged α} {f g : α → Logged β}
    (h : ∀ a, x.outcome = .ok a → f a = g a) : x >>= f = x >>= g := by
  cases hx : x.outcome with
  | error e => rw [bind_of_error hx, bind_of_error hx]
  | ok a => rw [bind_of_ok hx, bind_of_ok hx, h a hx]

namespace Assembler
open Relation (ReflTransGen)
variable {a b : Assembler} {file text : Text}

/-- An expansion goes by the files it comes to and their programs. -/
theorem expand_congr {node name : Text} {chain : List Text} {fields : List Field}
    (hv : a.Visit file text node name chain fields) (htree : b.tree = a.tree)
    (hsource : ∀ node name content, a.Reaches file text node → a.Stands file text node name content →
      b.source name content = a.source name content) :
    b.expand name chain fields = a.expand name chain fields := by
  fun_induction Assembler.expand a name chain fields generalizing node with
  | case1 => rw [expand]
  | case2 name chain position path rest hu =>
    rw [expand]
    split
    next => rfl
    next _ hu' => cases hu.symm.trans hu'
  | case3 name chain position path rest relative hu hc =>
    rw [expand]
    split
    next hu' => cases hu.symm.trans hu'
    next _ hu' =>
      cases hu.symm.trans hu'
      rw [dif_pos hc]
  | case4 name chain position path rest relative hu hc ht =>
    rw [expand]
    split
    next hu' => cases hu.symm.trans hu'
    next _ hu' =>
      cases hu.symm.trans hu'
      rw [dif_neg hc]
      split
      next => rfl
      next _ ht' => cases (htree.trans ht).symm.trans ht'
  | case5 name chain position path rest relative hu hc tree ht e hr =>
    rw [expand]
    split
    next hu' => cases hu.symm.trans hu'
    next _ hu' =>
      cases hu.symm.trans hu'
      rw [dif_neg hc]
      split
      next ht' => cases (htree.trans ht).symm.trans ht'
      next _ ht' =>
        cases (htree.trans ht).symm.trans ht'
        split
        next hr' => cases hr.symm.trans hr'; rfl
        next hr' => cases hr.symm.trans hr'
  | case6 name chain position path rest relative hu hc tree ht content hr _ ihi ih =>
    have hn : Names name (.inclusion position path :: rest) (target name relative) := names_head hu
    have hs := hv.stands_next hc ht hr
    rw [expand]
    split
    next hu' => cases hu.symm.trans hu'
    next _ hu' =>
      cases hu.symm.trans hu'
      rw [dif_neg hc]
      split
      next ht' => cases (htree.trans ht).symm.trans ht'
      next _ ht' =>
        cases (htree.trans ht).symm.trans ht'
        split
        next hr' => cases hr.symm.trans hr'
        next _ hr' =>
          cases hr.symm.trans hr'
          rw [hsource _ _ _ (hv.reaches_next hn) hs, ih hv.tail]
          refine Logged.bind_congr fun _ _ => Logged.bind_congr fun p hp => ?_
          rw [ihi p (hv.enter hn hc hs (source_eq_ok.mp hp))]
  | case7 name chain f rest hf ih =>
    rw [expand]
    · rw [ih hv.tail]
    · exact hf

/-- Every field of an expansion is one of a file that the assembly comes to. -/
theorem origin_of_expand {node name : Text} {chain : List Text} {fields out : List Field}
    (hv : a.Visit file text node name chain fields) (h : (a.expand name chain fields).outcome = .ok out) :
    ∀ f ∈ out, ∃ node name content p, a.Reaches file text node ∧ a.Stands file text node name content ∧
      a.Parses name content p ∧ f ∈ p.fields := by
  fun_induction Assembler.expand a name chain fields generalizing node out with
  | case1 =>
    cases h
    simp
  | case2 => cases h
  | case3 => cases h
  | case4 => cases h
  | case5 => cases h
  | case6 name chain position path rest relative hu hc tree ht content hr _ ihi ih =>
    have hn : Names name (.inclusion position path :: rest) (target name relative) := names_head hu
    have hs := hv.stands_next hc ht hr
    simp only [Logged.outcome_bind_eq_ok] at h
    obtain ⟨-, -, p, hp, inner, hinner, outer, houter, hout⟩ := h
    cases hout
    exact List.forall_mem_append.mpr
      ⟨ihi p (hv.enter hn hc hs (source_eq_ok.mp hp)) hinner, ih hv.tail houter⟩
  | case7 name chain f rest hf ih =>
    obtain ⟨outer, houter, hout⟩ := Logged.outcome_bind_eq_ok.mp h
    cases hout
    obtain ⟨content, p, hs, hp, hfields⟩ := hv.source
    exact List.forall_mem_cons.mpr
      ⟨⟨node, name, content, p, hv.reaches, hs, hp, hfields f (.head _)⟩, ih hv.tail houter⟩

/-! ### Assembly -/

/-- The mnemonics that the tokens of the files of an assembly make it look up. -/
def Consults (a : Assembler) (file text m : Text) : Prop :=
  ∃ node name content ts t, a.Reaches file text node ∧ a.Stands file text node name content ∧
    Scan.tokens name content = .ok ts ∧ t ∈ ts ∧ t.Consults m

theorem folded_of_tokens {ts : List Token} (h : Scan.tokens file text = .ok ts) : ∀ t ∈ ts, t.Folded := by
  obtain ⟨body, last, rfl, hl, hb⟩ := Scan.tokens_spelled h
  refine List.forall_mem_append.mpr ⟨fun t ht => (hb t ht).folded, ?_⟩
  exact List.forall_mem_singleton.mpr (Token.folded_of_endOfFile hl)

theorem source_congr {node name content : Text} (h : ∀ m, a.Consults file text m → other.find? m = a.table.find? m)
    (hr : a.Reaches file text node) (hs : a.Stands file text node name content) :
    ({ a with table := other } : Assembler).source name content = a.source name content := by
  rw [source, source]
  refine Logged.bind_congr fun ts hts => ?_
  have hscan : Scan.tokens name content = .ok ts := except_mapError_eq_ok.mp hts
  have hread : Program.ofTokens other ts = Program.ofTokens a.table ts :=
    Program.ofTokens_congr (folded_of_tokens hscan) fun t ht hk hp =>
      h t.value ⟨node, name, content, ts, t, hr, hs, hscan, ht, .instruction hk hp⟩
  show (Logged.ofExcept ((Program.ofTokens other ts).mapError _) >>= _) = _
  rw [hread]

theorem program_congr (h : ∀ m, a.Consults file text m → other.find? m = a.table.find? m) :
    ({ a with table := other } : Assembler).program file text = a.program file text := by
  have hsource : ({ a with table := other } : Assembler).source file text = a.source file text :=
    source_congr h ReflTransGen.refl .first
  rw [program, program, hsource]
  refine Logged.bind_congr fun p hp => ?_
  have hexpand : ({ a with table := other } : Assembler).expand file [Path.clean file] p.fields =
      a.expand file [Path.clean file] p.fields :=
    expand_congr (.first (source_eq_ok.mp hp)) rfl fun _ _ _ => source_congr h
  rw [hexpand]

theorem consults_of_item {p : Program} (hp : (a.program file text).outcome = .ok p) {i : Item} (hi : i ∈ p.items)
    {m : Text} (hm : m ∈ i.consulted) : a.Consults file text m := by
  obtain ⟨q, out, hq, hout, rfl⟩ := program_eq_ok.mp hp
  obtain ⟨f, hf, hif⟩ := List.mem_flatMap.mp hi
  obtain ⟨node, name, content, r, hreach, hs, hr, hf⟩ := origin_of_expand (.first hq) hout f hf
  have hsound : i.Sound a.table := (hr.sound f hf).items i hif
  obtain ⟨body, last, hscan, hl, hb, -, htok⟩ := hr.exists_tokens
  rw [← Token.beforeEnd_append (fun t ht => (hb t ht).kind_ne) hl] at htok
  have hconsults {t : Token} (ht : t ∈ body ++ [last]) (hc : t.Consults m) : a.Consults file text m :=
    ⟨node, name, content, _, t, hreach, hs, hscan, ht, hc⟩
  cases i with
  | label name => cases hm
  | data position d => cases hm
  | instruction position mnemonic operands =>
    obtain rfl := List.mem_singleton.mp hm
    obtain ⟨t, ht, hk, rfl⟩ := Program.exists_mnemonic htok hf hif (.head _)
    refine hconsults ht (.instruction hk ?_)
    rcases hsound.1 with ⟨_, hlabel⟩ | hdata | hcode
    · cases hlabel
    · cases hdata
    · cases hcode with
      | instruction _ hp _ => exact hp
  | pseudo position p =>
    obtain ⟨t, ht, hk, hv⟩ := Program.exists_mnemonic htok hf hif (.head _)
    exact hconsults ht (.primitive hk hv.symm hm)

/-- An assembly with another table that answers alike goes the same way. -/
theorem assemble_congr (h : ∀ m, a.Consults file text m → other.find? m = a.table.find? m) :
    ({ a with table := other } : Assembler).assemble file text = a.assemble file text := by
  rw [assemble, assemble, program_congr h]
  refine Logged.bind_congr fun p hp => ?_
  have hencode : p.encode other a.strict = p.encode a.table a.strict := by
    refine Program.encode_congr (fun f hf => (program_sound hp f hf).2) fun i hi m hm => ?_
    exact h m (consults_of_item hp hi hm)
  rw [hencode]

/-- A file that includes nothing consults what its own tokens do. -/
theorem Consults.of_single {p : Program} {m : Text} (h : a.Consults file text m) (hp : a.Parses file text p)
    (hn : ∀ f ∈ p.fields, f.isInclusion = false) :
    ∃ ts t, Scan.tokens file text = .ok ts ∧ t ∈ ts ∧ t.Consults m := by
  obtain ⟨node, name, content, ts, t, hr, hs, hscan, ht, hc⟩ := h
  obtain rfl : node = Path.clean file := hr.eq_first fun q hq => hp.unique hq ▸ hn
  obtain ⟨rfl, rfl⟩ := Stands.unique .first hs
  exact ⟨ts, t, hscan, ht, hc⟩

end Assembler

/-! ### Rows of pseudo-instructions -/

namespace InstructionTable

/-- Tables that differ in rows of pseudo-instructions only give the same answers for other mnemonics. -/
theorem find?_eq_of_rows {m : Text}
    (h : ∀ i : Instruction, Reading.pseudo? i.mnemonic = none → (i ∈ other.rows ↔ i ∈ table.rows))
    (hl : LowerCase.lower m = m) (hp : Reading.pseudo? m = none) : other.find? m = table.find? m := by
  refine Option.ext fun i => ?_
  rw [find?_eq_some, find?_eq_some, hl]
  refine and_congr_left fun hm => h i ?_
  rw [hm, hp]

end InstructionTable

/-- No pseudo-instruction is lowered to another one. -/
theorem Pseudo.plain_primitives (p : Pseudo) :
    ∀ q ∈ p.primitives, LowerCase.lower q.1 = q.1 ∧ (Reading.pseudo? q.1).isNone := by
  cases p <;> rw [primitives] <;> decide +kernel

namespace Assembler
variable {a : Assembler} {file text : Text}

theorem Consults.plain {m : Text} (h : a.Consults file text m) :
    LowerCase.lower m = m ∧ Reading.pseudo? m = none := by
  obtain ⟨_, name, content, ts, t, -, -, hscan, ht, hc⟩ := h
  cases hc with
  | instruction hk hp => exact ⟨folded_of_tokens hscan t ht hk, hp⟩
  | primitive hk hn hm =>
    obtain ⟨q, hq, rfl⟩ := List.mem_map.mp hm
    obtain ⟨hl, hp⟩ := Pseudo.plain_primitives _ q hq
    exact ⟨hl, Option.isNone_iff_eq_none.mp hp⟩

/-- Of an instruction table, only the rows matter that the files of an assembly make it look up. In
particular rows with the names of pseudo-instructions never matter. -/
theorem assemble_relevant (a : Assembler) (other : InstructionTable) (file text : Text) :
    ((∀ m, a.Consults file text m → other.find? m = a.table.find? m) →
      ({ a with table := other } : Assembler).assemble file text = a.assemble file text) ∧
    ((∀ i : Instruction, Reading.pseudo? i.mnemonic = none → (i ∈ other.rows ↔ i ∈ a.table.rows)) →
      ({ a with table := other } : Assembler).assemble file text = a.assemble file text) := by
  refine ⟨assemble_congr, fun hrows => assemble_congr fun m hm => ?_⟩
  obtain ⟨hl, hp⟩ := hm.plain
  exact InstructionTable.find?_eq_of_rows hrows hl hp

/-- A program of a jump and one instruction. The other tables have a row for `jump`, and one of them has
another opcode for an instruction that does not occur. -/
theorem assemble_relevant_jump :
    let text := lit ".inst\n_a: jump _a\nnop"
    ∃ t u v : InstructionTable,
      (∀ m, ({ table := t } : Assembler).Consults (lit "f") text m → u.find? m = t.find? m) ∧
      u.find? (lit "add") ≠ t.find? (lit "add") ∧ v.find? (lit "jump") ≠ t.find? (lit "jump") ∧
      ({ table := u } : Assembler).assemble (lit "f") text = ({ table := t } : Assembler).assemble (lit "f") text ∧
      ({ table := v } : Assembler).assemble (lit "f") text = ({ table := t } : Assembler).assemble (lit "f") text := by
  intro text
  let rows : List Instruction := [⟨lit "lui", some .i, 1⟩, ⟨lit "ori", some .i, 2⟩, ⟨lit "mfac", some .e1, 3⟩,
    ⟨lit "jr", some .e2, 4⟩, ⟨lit "nop", some .n, 5⟩]
  let t : InstructionTable := ⟨⟨lit "add", some .r, 6⟩ :: rows, by decide, by decide, by decide⟩
  let u : InstructionTable :=
    ⟨⟨lit "jump", some .n, 7⟩ :: ⟨lit "add", some .r, 8⟩ :: rows, by decide, by decide, by decide⟩
  let v : InstructionTable :=
    ⟨⟨lit "jump", some .n, 7⟩ :: ⟨lit "add", some .r, 6⟩ :: rows, by decide, by decide, by decide⟩
  have hread : ((Scan.tokens (lit "f") text).toOption.bind fun ts =>
      (Program.ofTokens t ts).toOption.map fun p =>
        (ts.all fun t => t.kind ≠ .mnemonic ∨ t.value = lit "jump" ∨ t.value = lit "nop",
          p.fields.all (!·.isInclusion))) = some (true, true) := by
    decide +kernel
  simp only [Option.bind_eq_some_iff, Option.map_eq_some_iff, except_toOption_eq_some, Prod.mk.injEq,
    List.all_eq_true, decide_eq_true_eq] at hread
  obtain ⟨ts, hscan, p, hp, hts, hincl⟩ := hread
  have hconsults : ∀ m, ({ table := t } : Assembler).Consults (lit "f") text m → u.find? m = t.find? m := by
    intro m hm
    obtain ⟨us, s, hus, hs, hc⟩ := hm.of_single ⟨ts, hscan, hp⟩ (by simpa using hincl)
    cases hscan.symm.trans hus
    cases hc with
    | instruction hk hplain =>
      rcases (hts s hs).resolve_left (not_not.mpr hk) with hv | hv
      · rw [hv] at hplain
        cases hplain
      · rw [hv]
        decide +kernel
    | @primitive hk q hn m hm =>
      rcases (hts s hs).resolve_left (not_not.mpr hk) with hv | hv
      · rw [hv] at hn
        cases q with
        | jump target =>
          have hall : ∀ m ∈ (Pseudo.jump target).primitives.map Prod.fst, u.find? m = t.find? m := by
            rw [Pseudo.primitives]
            decide +kernel
          exact hall m hm
        | _ => cases hn
      · rw [hv] at hn
        cases q <;> cases hn
  have hrows : ∀ i : Instruction, Reading.pseudo? i.mnemonic = none → (i ∈ v.rows ↔ i ∈ t.rows) := by
    intro i hi
    refine ⟨fun hm => (List.mem_cons.mp hm).resolve_left ?_, .tail _⟩
    rintro rfl
    cases hi
  exact ⟨t, u, v, hconsults, by decide +kernel, by decide +kernel,
    (assemble_relevant { table := t } u (lit "f") text).1 hconsults,
    (assemble_relevant { table := t } v (lit "f") text).2 hrows⟩

end Assembler
end AccAsm
