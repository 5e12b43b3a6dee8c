import AccAsm.Proofs.Program.Source
import AccAsm.Proofs.Token.Placement

/-! # Walks over programs

A walk over the program of a file meets the program first and then one node for every token that is neither a mark
nor the end of the file, in the order of the tokens (`Assembler.walk_follows`). Every kind of node is compared with
the tokens that it is written with, up to what a program keeps of them; the tokens of a file bring the order. -/

namespace AccAsm
open Text (lit)

/-- Neither a mark nor the end of a file. -/
def Kind.hasNode (k : Kind) : Bool := !k.isMark && k != .endOfFile

/-- Where the tokens stand that have a node of their own. -/
def Token.places (ts : List Token) : List Position := (ts.filter (·.kind.hasNode)).map Token.position

/-- Where the nodes stand that a walk meets. -/
def Outline.places (o : Outline) : List Position := (o.walk fun _ => true).map Visit.position

namespace Token

@[simp] theorem places_nil : places [] = [] := rfl

@[simp] theorem places_append (ts us : List Token) : places (ts ++ us) = places ts ++ places us := by
  simp [places]

@[simp] theorem places_cons (t : Token) (ts : List Token) :
    places (t :: ts) = if t.kind.hasNode then t.position :: places ts else places ts := by
  rw [places, List.filter_cons]
  split <;> rfl

theorem places_cons_of_hasNode {t : Token} (h : t.kind.hasNode) (ts : List Token) :
    places (t :: ts) = t.position :: places ts := by
  rw [places_cons, if_pos h]

theorem places_flatMap {α : Type} (f : α → List Token) (l : List α) :
    places (l.flatMap f) = l.flatMap fun a => places (f a) := by
  induction l with
  | nil => rfl
  | cons a l ih => rw [List.flatMap_cons, places_append, ih, List.flatMap_cons]

theorem places_kept (ts : List Token) : places (ts.map kept) = places ts := by
  induction ts with
  | nil => rfl
  | cons t ts ih =>
    rw [List.map_cons, places_cons, places_cons, ih, kind_kept]
    split
    next h => rw [position_kept (by simp_all [Kind.hasNode])]
    next => rfl

end Token

namespace Outline

theorem walkAll_eq (enter : Visit → Bool) (os : List Outline) : walkAll enter os = os.flatMap (walk enter) := by
  induction os with
  | nil => rw [walkAll]; rfl
  | cons o os ih => rw [walkAll, ih, List.flatMap_cons]

theorem walk_node (kind : NodeKind) (position : Position) (text : Text) (children : List Outline) :
    (node kind position text children).walk (fun _ => true) =
      ⟨kind, position, text⟩ :: children.flatMap (walk fun _ => true) := by
  rw [walk, walkAll_eq]
  rfl

@[simp] theorem places_node (kind : NodeKind) (position : Position) (text : Text) (children : List Outline) :
    (node kind position text children).places = position :: children.flatMap places := by
  rw [places, walk_node, List.map_cons, List.map_flatMap]
  rfl

end Outline

/-! ### Nodes and their tokens -/

@[simp] theorem Lexeme.places_outline (l : Lexeme) (kind : NodeKind) : (l.outline kind).places = [l.position] := by
  simp [outline]

theorem Operands.places_outlines (o : Operands) : o.outlines.flatMap Outline.places = Token.places o.tokens := by
  cases o <;> simp [outlines, tokens, Lexeme.pair, Lexeme.mixed, Lexeme.token, Token.mark, Kind.hasNode, Kind.isMark]

theorem Lexeme.places_numbers (ns : List Lexeme) :
    (ns.map (·.outline .number)).flatMap Outline.places = Token.places (numbers ns) := by
  have hmore (ns : List Lexeme) :
      (ns.map (·.outline .number)).flatMap Outline.places = Token.places (moreNumbers ns) := by
    induction ns with
    | nil => rfl
    | cons n ns ih =>
      rw [moreNumbers, List.flatMap_cons, ← moreNumbers, Token.places_append, ← ih]
      simp [token, Token.mark, Kind.hasNode, Kind.isMark]
  cases ns with
  | nil => rfl
  | cons n ns => simp [numbers, ← hmore, token, Kind.hasNode, Kind.isMark]

theorem Data.places_outline (d : Data) (position : Position) :
    (d.outline position).places = position :: Token.places d.tokens := by
  cases d with
  | space n | ascii text => simp [outline, tokens, Lexeme.token, Kind.hasNode, Kind.isMark]
  | words ns | bytes ns => simp only [outline, tokens, Outline.places_node, Lexeme.places_numbers]

theorem Pseudo.places_outline {p : Pseudo} (h : p.Formed) (position : Position) :
    (p.outline position).places = position :: Token.places p.tokens := by
  cases p with
  | jump target =>
    cases target with
    | number n | label name =>
      simp [outline, tokens, JumpTarget.outline, JumpTarget.tokens, Lexeme.token, Kind.hasNode, Kind.isMark]
    | other part => exact h.elim
  | mul a b | div a b | swap a b =>
    simp [outline, tokens, Lexeme.pair, Lexeme.token, Token.mark, Kind.hasNode, Kind.isMark]
  | load ac label offset | store ac label offset =>
    simp [outline, tokens, Lexeme.memory, Lexeme.token, Token.mark, Kind.hasNode, Kind.isMark]

theorem Item.places_outline {table : InstructionTable} {i : Item} (h : i.Formed table) :
    i.outline.places = Token.places i.tokens := by
  rcases h with ⟨name, rfl⟩ | h | h
  · simp [outline, tokens, Lexeme.token, Token.mark, Kind.hasNode, Kind.isMark]
  · cases h with
    | @data position d hd =>
      rw [outline, tokens, Data.places_outline, Token.places_cons_of_hasNode (by cases d <;> rfl)]
  · cases h with
    | instruction position hp ht =>
      rw [outline, tokens, Outline.places_node, Operands.places_outlines, Token.places_cons_of_hasNode (by rfl)]
    | pseudo position hp =>
      rw [outline, tokens, Pseudo.places_outline hp, Token.places_cons_of_hasNode (by rfl)]

theorem Field.places_outline {table : InstructionTable} {f : Field} (h : f.Formed table) :
    f.outline.places = Token.places f.tokens := by
  have hitems {items : List Item} (hi : ∀ i ∈ items, i.Formed table) :
      (items.map Item.outline).flatMap Outline.places = Token.places (items.flatMap Item.tokens) := by
    rw [List.flatMap_map, Token.places_flatMap, List.flatMap_def, List.flatMap_def]
    exact congrArg _ (List.map_congr_left fun i hi' => Item.places_outline (hi i hi'))
  cases f with
  | data position items =>
    have hi : ∀ i ∈ items, i.Formed table := h.forall_mem (fun name => .inl ⟨name, rfl⟩) fun i hi => .inr (.inl hi)
    rw [outline, tokens, Outline.places_node, hitems hi, Token.places_cons_of_hasNode (by rfl)]
  | code position items =>
    have hi : ∀ i ∈ items, i.Formed table := h.forall_mem (fun name => .inl ⟨name, rfl⟩) fun i hi => .inr (.inr hi)
    rw [outline, tokens, Outline.places_node, hitems hi, Token.places_cons_of_hasNode (by rfl)]
  | inclusion position path => simp [outline, tokens, Lexeme.token, Kind.hasNode, Kind.isMark]

theorem Program.places_outline {table : InstructionTable} {p : Program} (h : ∀ f ∈ p.fields, f.Formed table) :
    p.outline.places = p.position :: Token.places p.tokens := by
  rw [outline, Outline.places_node, tokens, Token.places_flatMap, List.flatMap_map, List.flatMap_def,
    List.flatMap_def]
  exact congrArg _ (congrArg _ (List.map_congr_left fun f hf => Field.places_outline (h f hf)))

/-! ### Order -/

/-- The tokens of a file start one behind the other. -/
theorem Scan.pairwise_offset {file text : Text} {body : List Token} {last : Token}
    (h : tokens file text = .ok (body ++ [last])) :
    body.Pairwise fun t u => t.position.offset < u.position.offset := by
  obtain ⟨body', last', heq, -, -, hlaid⟩ := laid_tokens h
  obtain ⟨rfl, -⟩ := List.append_inj' heq rfl
  have hstart : Reached 1 0 0 [] [] := ⟨rfl, rfl, .inl rfl, by simp, rfl⟩
  refine hlaid.pairwise.imp_of_mem fun {t u} ht _ hprecedes => ?_
  obtain ⟨before, word, after, -, hstands⟩ := hlaid.stands hstart t ht
  have hsize := hstands.size
  have hpos := List.length_pos_of_ne_nil hstands.ne_nil
  unfold Token.Precedes at hprecedes
  omega

namespace Assembler

theorem events_source {a : Assembler} {file text : Text} {ts : List Token} {p : Program}
    (hscan : Scan.tokens file text = .ok ts) (hread : Program.ofTokens a.table ts = .ok p) :
    (a.source file text).events = [.parsed file ts.length p.outline.size] := by
  rw [source, hscan, Logged.bind_of_ok (a := ts) rfl, hread, Logged.bind_of_ok (a := p) rfl]
  rfl

/-- A walk over the program of a file meets the program, which starts with the first token, and then the tokens
with nodes of their own, in the order of the file; and the log tells how many there are. -/
theorem walk_follows (a : Assembler) {file text : Text} {ts : List Token} {p : Program}
    (hscan : Scan.tokens file text = .ok ts) (hread : Program.ofTokens a.table ts = .ok p) :
    ∃ visits : List AccAsm.Visit, p.outline.walk (fun _ => true) = ⟨.program, p.position, []⟩ :: visits ∧
      ts.head?.map Token.position = some p.position ∧
      visits.map (·.position) = (ts.filter (·.kind.hasNode)).map Token.position ∧
      visits.Pairwise (fun v w => v.position.offset < w.position.offset) ∧
      (a.source file text).events = [.parsed file ts.length (1 + (ts.filter (·.kind.hasNode)).length)] := by
  obtain ⟨body, last, rfl, hlast, hbody⟩ := Scan.tokens_spelled hscan
  obtain ⟨hposition, hform, htokens⟩ := (Program.ofTokens_append_eq_ok hbody hlast).mp hread
  have hwalk : p.outline.walk (fun _ => true) = ⟨.program, p.position, []⟩ :: _ :=
    Outline.walk_node .program p.position [] (p.fields.map Field.outline)
  have hends : Token.places (body ++ [last]) = Token.places body := by simp [hlast, Kind.hasNode]
  have hplaces : p.outline.places = p.position :: Token.places (body ++ [last]) := by
    rw [Program.places_outline hform, ← htokens, Token.places_kept, hends]
  rw [Outline.places, hwalk, List.map_cons, List.cons_inj_right] at hplaces
  refine ⟨_, hwalk, ?_, hplaces, ?_, ?_⟩
  · rw [hposition]
    cases body <;> rfl
  · have hordered : (Token.places body).Pairwise fun q q' => q.offset < q'.offset :=
      List.pairwise_map.mpr ((Scan.pairwise_offset hscan).filter _)
    rwa [← hends, ← hplaces, List.pairwise_map] at hordered
  · have hcount := congrArg List.length hplaces
    rw [List.length_map, Token.places, List.length_map] at hcount
    rw [events_source hscan hread, Outline.size, hwalk, List.length_cons, hcount, Nat.add_comm]

/-- All marks at once: a list of numbers, a label and an access to memory. -/
theorem walk_follows_marks :
    let text := lit ".data\n_a: .word 1, -2\n.inst ; code\nLW &0, _a(3)"
    ∃ ts p visits, Scan.tokens (lit "f") text = .ok ts ∧ Program.ofTokens .builtin ts = .ok p ∧ ts.length = 16 ∧
      p.outline.walk (fun _ => true) = ⟨.program, p.position, []⟩ :: visits ∧
      visits.map (·.position.offset) = [0, 6, 10, 16, 19, 22, 35, 38, 42, 45] ∧
      (Assembler.source {} (lit "f") text).events = [.parsed (lit "f") 16 11] := by
  intro text
  have h : ((Scan.tokens (lit "f") text).toOption.bind fun ts => (Program.ofTokens .builtin ts).toOption.map fun _ =>
      (ts.length, (ts.filter (·.kind.hasNode)).map (·.position.offset))) =
        some (16, [0, 6, 10, 16, 19, 22, 35, 38, 42, 45]) := by
    decide +kernel
  simp only [Option.bind_eq_some_iff, Option.map_eq_some_iff, except_toOption_eq_some, Prod.mk.injEq] at h
  obtain ⟨ts, hscan, p, hread, hlength, hoffsets⟩ := h
  obtain ⟨visits, hwalk, -, hplaces, -, hevents⟩ := walk_follows {} hscan hread
  have hcount := congrArg List.length hoffsets
  rw [List.length_map] at hcount
  refine ⟨ts, p, visits, hscan, hread, hlength, hwalk, ?_, ?_⟩
  · rw [← hoffsets]
    simpa [Function.comp_def] using congrArg (List.map Position.offset) hplaces
  · rw [hevents, hlength, hcount]
    rfl

end Assembler
end AccAsm
