import AccAsm.Proofs.Encoding.Flaw
import AccAsm.Proofs.Encoding.Layout
import Mathlib.Data.List.Induction

/-! # Valid programs

A program has an encoding exactly if every operand fits and every declared label gets a cell before the
next declaration and before the end (`Program.Valid`). Otherwise encoding ends at the first item that is
flawed by itself or by what came before it, and only if there is none at a label that waits at the end
(`Program.FirstFlaw`). The label that waits in the course of encoding is the one `Item.Waits` speaks of,
also from one field to the next. -/

namespace AccAsm
open Text (lit)

namespace Item

def isLabel : Item → Bool
  | label _ => true
  | _ => false

/-- The label is the last one declared, and nothing behind it takes up room. -/
def Waits (items : List Item) (name : Lexeme) : Prop :=
  ∃ before between, items = before ++ .label name :: between ∧ (∀ i ∈ between, i.isLabel = false) ∧
    totalSize between = 0

/-- What is wrong with an item behind `before`. -/
inductive Flawed (strict : Bool) (before : List Item) : Item → EncodeError → Prop
  /-- An operand does not fit; the ones to its left do. -/
  | operand {i : Item} {ops rest : List Operand} {o : Operand} (h : i.operands = ops ++ o :: rest)
      (hops : ∀ o' ∈ ops, o'.Fits strict) (ho : ¬ o.Fits strict) :
      Flawed strict before i (o.error i.context)
  /-- The label before it would share its address. -/
  | label {name next : Lexeme} (h : Waits before name) :
      Flawed strict before (.label next) (.danglingLabel name.position name.text next.text)

/-- No item is flawed. -/
def Clean (strict : Bool) (items : List Item) : Prop :=
  ∀ before i after e, items = before ++ i :: after → ¬ Flawed strict before i e

end Item

structure Program.Valid (strict : Bool) (p : Program) : Prop where
  fits : ∀ i ∈ p.items, ∀ o ∈ i.operands, o.Fits strict
  /-- There is room between two declarations that follow each other, and behind the last one. -/
  room : ∀ before name between after, p.items = before ++ .label name :: (between ++ after) →
    (∀ i ∈ between, i.isLabel = false) → (∀ i ∈ after.head?, i.isLabel = true) →
      1 ≤ Item.totalSize between

/-- The error of the first flaw. -/
inductive Program.FirstFlaw (strict : Bool) (p : Program) : EncodeError → Prop
  | item {before after : List Item} {i : Item} {e : EncodeError} (h : p.items = before ++ i :: after)
      (hb : Item.Clean strict before) (hi : Item.Flawed strict before i e) : FirstFlaw strict p e
  /-- All items are in order, but a label waits at the end. -/
  | ending {name : Lexeme} (hc : Item.Clean strict p.items) (hw : Item.Waits p.items name) :
      FirstFlaw strict p (.danglingLabel name.position name.text [])

namespace Item
variable {strict : Bool} {items before : List Item} {i : Item} {name next : Lexeme} {e : EncodeError}

/-- A place in a list with one more item is the new one, or a place in the list before. -/
theorem concat_eq_split {after : List Item} {j : Item} (h : items ++ [i] = before ++ j :: after) :
    (after = [] ∧ items = before ∧ i = j) ∨ ∃ rest, after = rest ++ [i] ∧ items = before ++ j :: rest := by
  rcases List.eq_nil_or_concat after with rfl | ⟨rest, k, rfl⟩
  · obtain ⟨rfl, hl⟩ := List.append_inj' h rfl
    exact .inl ⟨rfl, rfl, List.singleton_inj.mp hl⟩
  · rw [List.concat_eq_append, ← List.cons_append, ← List.append_assoc] at h
    obtain ⟨rfl, hl⟩ := List.append_inj' h rfl
    exact .inr ⟨rest, by rw [List.concat_eq_append, List.singleton_inj.mp hl], rfl⟩

/-! ### Waiting labels -/

theorem not_waits_nil : ¬ Waits [] name := by
  rintro ⟨before, between, h, -⟩
  simp at h

theorem waits_concat_label : Waits (items ++ [.label next]) name ↔ name = next := by
  constructor
  · rintro ⟨before, between, h, hb, -⟩
    rcases concat_eq_split h with ⟨-, -, hl⟩ | ⟨rest, rfl, -⟩
    · cases hl
      rfl
    · cases hb (.label next) (by simp)
  · rintro rfl
    exact ⟨items, [], rfl, by simp, rfl⟩

/-- Behind an item that is no label a label goes on waiting if the item takes up no room. -/
theorem waits_concat (hi : i.isLabel = false) : Waits (items ++ [i]) name ↔ Waits items name ∧ i.size = 0 := by
  constructor
  · rintro ⟨before, between, h, hb, hsize⟩
    rcases concat_eq_split h with ⟨-, -, rfl⟩ | ⟨rest, rfl, rfl⟩
    · cases hi
    · rw [totalSize_concat] at hsize
      exact ⟨⟨before, rest, rfl, fun j hj => hb j (by simp [hj]), by omega⟩, by omega⟩
  · rintro ⟨⟨before, between, rfl, hb, hsize⟩, hroom⟩
    refine ⟨before, between ++ [i], by simp, ?_, by rw [totalSize_concat, hsize, hroom]⟩
    simpa [or_imp, forall_and] using ⟨hb, hi⟩

/-! ### Flaws -/

theorem flaw?_eq_none_of_not_flawed (h : ∀ e, ¬ Flawed strict before i e) : i.flaw? strict = none := by
  cases hf : i.flaw? strict with
  | none => rfl
  | some e =>
    obtain ⟨ops, o, rest, hl, hops, ho, -⟩ := flaw?_eq_some.mp hf
    exact absurd (.operand hl hops ho) (h _)

theorem clean_nil : Clean strict [] := by
  intro before i after e h
  simp at h

theorem clean_concat : Clean strict (items ++ [i]) ↔ Clean strict items ∧ ∀ e, ¬ Flawed strict items i e := by
  constructor
  · intro h
    refine ⟨fun before j after e hj => h before j (after ++ [i]) e (by simp [hj]), fun e => ?_⟩
    exact h items i [] e rfl
  · rintro ⟨h, hi⟩ before j after e hj
    rcases concat_eq_split hj with ⟨-, rfl, rfl⟩ | ⟨rest, -, hitems⟩
    · exact hi e
    · exact h before j rest e hitems

/-- Items are clean, or one of them is the first that is flawed. -/
theorem clean_or_flawed (strict : Bool) (items : List Item) :
    Clean strict items ∨ ∃ before i after e, items = before ++ i :: after ∧ Clean strict before ∧
      Flawed strict before i e := by
  induction items using List.reverseRecOn with
  | nil => exact .inl clean_nil
  | append_singleton items i ih =>
    rcases ih with hc | ⟨before, j, after, e, rfl, hb, hj⟩
    · by_cases hi : ∃ e, Flawed strict items i e
      · obtain ⟨e, hi⟩ := hi
        exact .inr ⟨items, i, [], e, rfl, hc, hi⟩
      · exact .inl (clean_concat.mpr ⟨hc, fun e he => hi ⟨e, he⟩⟩)
    · exact .inr ⟨before, j, after ++ [i], e, by simp, hb, hj⟩

end Item

/-- A program is valid if no item is flawed and no label waits at the end. -/
theorem Program.valid_iff {strict : Bool} {p : Program} :
    p.Valid strict ↔ Item.Clean strict p.items ∧ ∀ name, ¬ Item.Waits p.items name := by
  constructor
  · intro h
    refine ⟨fun before i after e hp hi => ?_, fun name hw => ?_⟩
    · cases hi with
      | @operand _ ops rest o hl _ ho => exact ho (h.fits i (by simp [hp]) o (by simp [hl]))
      | @label name next hw =>
        obtain ⟨first, between, rfl, hb, hsize⟩ := hw
        have := h.room first name between (.label next :: after) (by simp [hp]) hb (by simp [Item.isLabel])
        omega
    · obtain ⟨first, between, hp, hb, hsize⟩ := hw
      have := h.room first name between [] (by simp [hp]) hb (by simp)
      omega
  · rintro ⟨hc, hw⟩
    refine ⟨fun i hi => ?_, fun before name between after hp hb ha => ?_⟩
    · obtain ⟨before, after, hp⟩ := List.append_of_mem hi
      exact Item.flaw?_eq_none.mp (Item.flaw?_eq_none_of_not_flawed fun e => hc before i after e hp)
    · by_contra hsize
      have hwait : Item.Waits (before ++ .label name :: between) name := ⟨before, between, rfl, hb, by omega⟩
      cases after with
      | nil => exact hw name (by simpa [hp] using hwait)
      | cons j after =>
        cases j with
        | label next => exact hc _ (.label next) after _ (by simp [hp]) (.label hwait)
        | data position d | instruction position mnemonic o | pseudo position q => cases ha _ rfl

namespace Emission
variable {strict : Bool} {items : List Item} {i : Item} {e : Emission} {err : EncodeError}

/-! ### Steps -/

/-- The label that waits for a cell is the one that waits for room. -/
def Tracks (items : List Item) (e : Emission) : Prop := ∀ name, e.pending = some name ↔ Item.Waits items name

theorem item_eq {table : InstructionTable} (hi : i.isLabel = false) :
    e.item table strict i = Encoding.item table strict i >>= fun cells => pure (e.emit cells) := by
  cases i with
  | label name => cases hi
  | data position d | instruction position mnemonic o | pseudo position p => rfl

theorem item_of_flawed (he : Tracks items e) (hi : i.Sound .builtin) (h : Item.Flawed strict items i err) :
    e.item .builtin strict i = .error (.error err) := by
  cases h with
  | @operand _ ops rest o hl hops ho =>
    have hlabel : i.isLabel = false := by
      cases i with
      | label name => simp [Item.operands] at hl
      | data position d | instruction position mnemonic o | pseudo position p => rfl
    have hjudged : Encoding.Judged (i.flaw? strict) (Encoding.item .builtin strict i) := Encoding.item_judged hi
    rw [Item.flaw?_eq_some.mpr ⟨ops, o, rest, hl, hops, ho, rfl⟩] at hjudged
    rw [item_eq hlabel, show Encoding.item .builtin strict i = _ from hjudged]
    rfl
  | @label name next hw =>
    show e.declare next = _
    rw [declare, (he name).mpr hw]
    rfl

theorem item_of_clean (he : Tracks items e) (hi : i.Sound .builtin)
    (h : ∀ err, ¬ Item.Flawed strict items i err) :
    ∃ e', e.item .builtin strict i = .ok e' ∧ Tracks (items ++ [i]) e' := by
  cases hlabel : i.isLabel with
  | true =>
    cases i with
    | label next =>
      have hp : e.pending = none := by
        cases hp : e.pending with
        | none => rfl
        | some name => exact absurd (.label ((he name).mp hp)) (h _)
      refine ⟨{ e with pending := some next }, ?_, fun name => ?_⟩
      · show e.declare next = _
        rw [declare, hp]
        rfl
      · rw [Item.waits_concat_label, Option.some.injEq, eq_comm]
    | data position d | instruction position mnemonic o | pseudo position p => cases hlabel
  | false =>
    have hjudged : Encoding.Judged (i.flaw? strict) (Encoding.item .builtin strict i) := Encoding.item_judged hi
    rw [Item.flaw?_eq_none_of_not_flawed h] at hjudged
    obtain ⟨cells, hcells⟩ : ∃ cells, Encoding.item .builtin strict i = .ok cells := hjudged
    have hlen := ((Encoding.item_meets hi strict).ok cells hcells).length
    refine ⟨e.emit cells, by rw [item_eq hlabel, hcells]; rfl, fun name => ?_⟩
    rw [pending_emit, Item.waits_concat hlabel, ← he name, ← hlen, List.length_eq_zero_iff]
    split <;> simp_all

/-! ### Runs -/

theorem foldlM_of_clean (hs : ∀ i ∈ items, i.Sound .builtin) (hc : Item.Clean strict items) :
    ∃ e, items.foldlM (item .builtin strict) {} = .ok e ∧ Tracks items e := by
  induction items using List.reverseRecOn with
  | nil => exact ⟨{}, rfl, fun name => iff_of_false nofun Item.not_waits_nil⟩
  | append_singleton items i ih =>
    obtain ⟨hc, hi⟩ := Item.clean_concat.mp hc
    obtain ⟨e, hrun, he⟩ := ih (fun j hj => hs j (by simp [hj])) hc
    obtain ⟨e', hstep, he'⟩ := item_of_clean he (hs i (by simp)) hi
    refine ⟨e', ?_, he'⟩
    rw [List.foldlM_append, hrun]
    show List.foldlM (item .builtin strict) e [i] = _
    rw [List.foldlM_cons, hstep]
    rfl

theorem foldlM_of_flawed {before after : List Item} (hs : ∀ j ∈ before ++ i :: after, j.Sound .builtin)
    (hc : Item.Clean strict before) (hi : Item.Flawed strict before i err) :
    (before ++ i :: after).foldlM (item .builtin strict) {} = .error (.error err) := by
  obtain ⟨e, hrun, he⟩ := foldlM_of_clean (fun j hj => hs j (by simp [hj])) hc
  rw [List.foldlM_append, hrun]
  show List.foldlM (item .builtin strict) e (i :: after) = _
  rw [List.foldlM_cons, item_of_flawed he (hs i (by simp)) hi]
  rfl

end Emission

namespace Program
variable {strict : Bool} {p : Program} {e : EncodeError}

/-- Where one field ends and the next begins makes no difference. -/
theorem encode_eq {table : InstructionTable} (hn : ∀ f ∈ p.fields, f.isInclusion = false) :
    p.encode table strict = p.items.foldlM (Emission.item table strict) {} >>= Emission.finish := by
  have hfields (fields : List Field) (hn : ∀ f ∈ fields, f.isInclusion = false) (e : Emission) :
      fields.foldlM (Emission.field table strict) e =
        (fields.flatMap Field.items).foldlM (Emission.item table strict) e := by
    induction fields generalizing e with
    | nil => rfl
    | cons f fields ih =>
      obtain ⟨hf, hrest⟩ := List.forall_mem_cons.mp hn
      rw [List.foldlM_cons, List.flatMap_cons, List.foldlM_append]
      cases f with
      | data position items | code position items =>
        exact congrArg _ (funext fun e => ih hrest e)
      | inclusion position path => cases hf
  rw [encode, hfields p.fields hn]
  rfl

theorem encode_of_valid (hn : ∀ f ∈ p.fields, f.isInclusion = false) (hs : ∀ i ∈ p.items, i.Sound .builtin)
    (h : p.Valid strict) : ∃ cells, p.encode .builtin strict = .ok cells := by
  obtain ⟨hc, hw⟩ := valid_iff.mp h
  obtain ⟨e, hrun, he⟩ := Emission.foldlM_of_clean hs hc
  have hp : e.pending = none := by
    cases hp : e.pending with
    | none => rfl
    | some name => exact absurd ((he name).mp hp) (hw name)
  refine ⟨e.cells.toList, ?_⟩
  rw [encode_eq hn, hrun]
  show e.finish = _
  rw [Emission.finish, hp]
  rfl

theorem encode_of_firstFlaw (hn : ∀ f ∈ p.fields, f.isInclusion = false)
    (hs : ∀ i ∈ p.items, i.Sound .builtin) (h : p.FirstFlaw strict e) :
    p.encode .builtin strict = .error (.error e) := by
  rw [encode_eq hn]
  cases h with
  | @item before after i e hp hb hi =>
    rw [hp] at hs ⊢
    rw [Emission.foldlM_of_flawed hs hb hi]
    rfl
  | @ending name hc hw =>
    obtain ⟨e, hrun, he⟩ := Emission.foldlM_of_clean hs hc
    rw [hrun]
    show e.finish = _
    rw [Emission.finish, (he name).mpr hw]
    rfl

theorem valid_or_firstFlaw (strict : Bool) (p : Program) : p.Valid strict ∨ ∃ e, p.FirstFlaw strict e := by
  rcases Item.clean_or_flawed strict p.items with hc | ⟨before, i, after, e, hp, hb, hi⟩
  · by_cases hw : ∃ name, Item.Waits p.items name
    · obtain ⟨name, hw⟩ := hw
      exact .inr ⟨_, .ending hc hw⟩
    · exact .inl (valid_iff.mpr ⟨hc, fun name h => hw ⟨name, h⟩⟩)
  · exact .inr ⟨e, .item hp hb hi⟩

/-- The program of a file has an encoding exactly if it is valid, and otherwise ends with the error of
its first flaw. -/
theorem encode_exact {file text : Text} {ts : List Token} (hscan : Scan.tokens file text = .ok ts)
    (hread : ofTokens .builtin ts = .ok p) (hn : ∀ f ∈ p.fields, f.isInclusion = false) (strict : Bool) :
    ((∃ cells, p.encode .builtin strict = .ok cells) ↔ p.Valid strict) ∧
      (¬ p.Valid strict → ∃ e, p.encode .builtin strict = .error (.error e)) ∧
      ∀ e, p.encode .builtin strict = .error (.error e) ↔ p.FirstFlaw strict e := by
  have hparse : Assembler.Parses {} file text p := ⟨ts, hscan, hread⟩
  have hs : ∀ i ∈ p.items, i.Sound .builtin := by
    intro i hi
    obtain ⟨f, hf, hi⟩ := List.mem_flatMap.mp hi
    exact (hparse.sound f hf).items i hi
  rcases valid_or_firstFlaw strict p with hv | ⟨e, hf⟩
  · obtain ⟨cells, hcells⟩ := encode_of_valid hn hs hv
    refine ⟨⟨fun _ => hv, fun _ => ⟨cells, hcells⟩⟩, fun h => absurd hv h, fun e => ⟨fun he => ?_, fun he => ?_⟩⟩
    · rw [hcells] at he
      cases he
    · exact encode_of_firstFlaw hn hs he
  · have herr := encode_of_firstFlaw hn hs hf
    have hinvalid : ¬ p.Valid strict := by
      intro hv
      obtain ⟨cells, hcells⟩ := encode_of_valid hn hs hv
      rw [herr] at hcells
      cases hcells
    refine ⟨⟨?_, fun h => absurd h hinvalid⟩, fun _ => ⟨e, herr⟩, fun e' => ⟨fun he => ?_, fun he => ?_⟩⟩
    · rintro ⟨cells, hcells⟩
      rw [herr] at hcells
      cases hcells
    · rw [herr] at he
      cases he
      exact hf
    · exact encode_of_firstFlaw hn hs he

/-- The label `_a` waits across the end of a field, and is blamed before the operands behind `_b`. -/
theorem encode_exact_fields :
    let text := lit ".data\n_a: .space 0\n.inst\n_b: add &1, $16, $2"
    let e : EncodeError := .danglingLabel
      { file := lit "f", line := 2, column := 1, offset := 6, size := 2, lineOffset := 6 } (lit "_a") (lit "_b")
    ∃ ts p, Scan.tokens (lit "f") text = .ok ts ∧ ofTokens .builtin ts = .ok p ∧ p.FirstFlaw false e ∧
      ¬ p.Valid false := by
  intro text e
  have h : ((Scan.tokens (lit "f") text).toOption.bind fun ts =>
      (ofTokens .builtin ts).toOption.map fun p =>
        (p.fields.all (!·.isInclusion), p.encode .builtin false)) = some (true, .error (.error e)) := by
    decide +kernel
  simp only [Option.bind_eq_some_iff, Option.map_eq_some_iff, except_toOption_eq_some, Prod.mk.injEq] at h
  obtain ⟨ts, hscan, p, hread, hincl, hencode⟩ := h
  obtain ⟨hvalid, -, hfirst⟩ := encode_exact hscan hread (by simpa using hincl) false
  refine ⟨ts, p, hscan, hread, (hfirst e).mp hencode, fun hv => ?_⟩
  obtain ⟨cells, hcells⟩ := hvalid.mpr hv
  rw [hencode] at hcells
  cases hcells

end Program
end AccAsm
