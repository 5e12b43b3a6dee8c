import AccAsm.Proofs.Program.Automaton

/-! # Errors at the earliest token

The tokens before the one that an error blames can be continued to a program, and with it they
cannot. Every state of the automaton can be completed, so this is a matter of the single step that
fails: `State.step_error` says what a step can fail with and that all it expected would have been
taken. -/

namespace AccAsm
open Text (lit)

/-- The kinds of tokens that would have been taken instead. -/
def GrammarError.expected : GrammarError → List Kind
  | unexpected _ kinds _ _ => kinds
  | unknownMnemonic .. => []

/-- The error names the token `t`. -/
def GrammarError.Blames (t : Token) : GrammarError → Prop
  | unexpected position _ found lexeme => t = ⟨found, position, lexeme⟩
  | unknownMnemonic position mnemonic => t = ⟨.mnemonic, position, mnemonic⟩

namespace Automaton
variable {table : InstructionTable} {ending : Position} {q q' : State} {t : Token} {ts us vs : List Token}
  {e : GrammarError}

/-! ### Completion -/

def Slot.sample : Slot → Token
  | number | target => { kind := .number }
  | string => { kind := .string }
  | label => { kind := .label }
  | accumulator => { kind := .accumulator }
  | register => { kind := .register }
  | comma => { kind := .comma }
  | colon => { kind := .colon }
  | leftParen => { kind := .leftParen }
  | rightParen => { kind := .rightParen }

/-- A mnemonic that no table can take away. -/
def jump : Token := { kind := .mnemonic, value := lit "jump" }

/-- What a label needs behind it. -/
def Spot.completion : Spot → List Token
  | labelledData => [{ kind := .space }, { kind := .number }]
  | labelledCode => [jump, { kind := .number }]
  | _ => []

def State.completion (q : State) : List Token := q.awaited.map Slot.sample ++ q.spot.completion

theorem run_completion : run table ending q q.completion = .ok () := by
  obtain ⟨awaited, spot⟩ := q
  induction awaited with
  | nil => cases spot <;> rfl
  | cons slot more ih =>
    show run table ending ⟨slot :: more, spot⟩ (slot.sample :: State.completion ⟨more, spot⟩) = _
    have hs : slot.sample.kind ∈ slot.kinds := by cases slot <;> decide
    rw [run, State.step, if_pos hs]
    exact ih

/-! ### Paths -/

/-- The tokens lead from one state to another. -/
inductive Reaches (table : InstructionTable) : State → List Token → State → Prop
  | nil (q : State) : Reaches table q [] q
  | cons {q q' q'' : State} {t : Token} {ts : List Token} (h : q.step table t = .ok (some q'))
      (hr : Reaches table q' ts q'') : Reaches table q (t :: ts) q''

theorem Reaches.run_append (h : Reaches table q us q') :
    run table ending q (us ++ vs) = run table ending q' vs := by
  induction h with
  | nil => rfl
  | cons h _ ih => rw [List.cons_append, run, h]; exact ih

/-- A run that fails gets to a state that refuses the next token. -/
theorem reaches_of_run (h : run table ending q ts = .error e) :
    ∃ us rest q', ts = us ++ rest ∧ Reaches table q us q' ∧
      q'.step table (TokenStream.peek ⟨rest, ending⟩) = .error e := by
  induction ts generalizing q with
  | nil =>
    refine ⟨[], [], q, rfl, .nil q, ?_⟩
    rw [run] at h
    split at h
    next hs => cases h; exact hs
    next => cases h
  | cons t ts ih =>
    rw [run] at h
    split at h
    next hs => cases h; exact ⟨[], t :: ts, q, rfl, .nil q, hs⟩
    next => cases h
    next q₁ hs =>
      obtain ⟨us, rest, q', rfl, hr, he⟩ := ih h
      exact ⟨t :: us, rest, q', rfl, .cons hs hr, he⟩

/-! ### Steps that fail -/

/-- The error names the token, and the state goes on with all it says were expected. -/
structure Explains (table : InstructionTable) (q : State) (t : Token) (e : GrammarError) : Prop where
  blames : e.Blames t
  takes : ∀ kind ∈ e.expected, ∃ u o, u.kind = kind ∧ q.step table u = .ok o

theorem explains_refusal {kinds : List Kind}
    (h : ∀ kind ∈ kinds, ∃ u o, u.kind = kind ∧ q.step table u = .ok o) :
    Explains table q t (refusal t kinds) :=
  ⟨rfl, h⟩

theorem explains_afterMnemonic (ht : t.kind = .mnemonic) (h : afterMnemonic table t = .error e) :
    Explains table q t e := by
  unfold afterMnemonic at h
  split at h
  · cases h
  · cases h
    refine ⟨?_, fun kind hk => nomatch hk⟩
    show t = ⟨.mnemonic, t.position, t.value⟩
    rw [← ht]

theorem afterDirective_ne_error : afterDirective t ≠ .error e := by
  unfold afterDirective
  split <;> exact nofun

theorem nextField_error (h : nextField t = .error e) : e = refusal t Reading.fieldStarts := by
  unfold nextField at h
  split at h <;> cases h
  rfl

/-- What starts a field is taken wherever no token is awaited, except behind a label. -/
theorem takes_fieldStarts {spot : Spot} (hs : spot ∈ [Spot.fields, .data, .numbers, .code]) :
    ∀ kind ∈ Reading.fieldStarts, ∃ u o, u.kind = kind ∧ State.step table ⟨[], spot⟩ u = .ok o := by
  intro kind hk
  simp only [Reading.fieldStarts, List.mem_cons, List.not_mem_nil, or_false] at hs hk
  rcases hs with rfl | rfl | rfl | rfl <;> rcases hk with rfl | rfl | rfl | rfl <;>
    exact ⟨{ kind := _ }, _, rfl, rfl⟩

theorem explains_nextItem {kinds : List Kind} {labelled : Spot} {body : Token → Step}
    (hbody : t.kind ∈ kinds → body t = .error e → Explains table q t e)
    (hq : ∀ kind ∈ Reading.fieldStarts, ∃ u o, u.kind = kind ∧ q.step table u = .ok o)
    (h : nextItem kinds labelled body t = .error e) : Explains table q t e := by
  unfold nextItem at h
  split at h
  · cases h
  split at h
  next hk => exact hbody hk h
  next => rw [nextField_error h]; exact explains_refusal hq

theorem explains_nextLabelled {kinds : List Kind} {body : Token → Step}
    (hbody : t.kind ∈ kinds → body t = .error e → Explains table q t e)
    (hq : ∀ kind ∈ kinds, ∃ u o, u.kind = kind ∧ q.step table u = .ok o)
    (h : nextLabelled kinds body t = .error e) : Explains table q t e := by
  unfold nextLabelled at h
  split at h
  next hk => exact hbody hk h
  next => cases h; exact explains_refusal hq

theorem State.step_error (h : q.step table t = .error e) : Explains table q t e := by
  obtain ⟨awaited, spot⟩ := q
  cases awaited with
  | cons slot more =>
    rw [State.step] at h
    split at h
    · cases h
    · cases h
      refine explains_refusal fun kind hk => ⟨{ kind }, some ⟨more, spot⟩, rfl, ?_⟩
      rw [State.step, if_pos hk]
  | nil =>
    have directive {q : State} (_ : t.kind ∈ Reading.dataKinds) (h : afterDirective t = .error e) :
        Explains table q t e := absurd h afterDirective_ne_error
    have mnemonic {q : State} (ht : t.kind ∈ [Kind.mnemonic]) (h : afterMnemonic table t = .error e) :
        Explains table q t e := explains_afterMnemonic (List.mem_singleton.mp ht) h
    cases spot with
    | fields => rw [nextField_error h]; exact explains_refusal (takes_fieldStarts (by decide))
    | data => exact explains_nextItem directive (takes_fieldStarts (by decide)) h
    | numbers =>
      rw [State.step, Spot.step] at h
      split at h
      · cases h
      · exact explains_nextItem directive (takes_fieldStarts (by decide)) h
    | labelledData =>
      refine explains_nextLabelled directive (fun kind hk => ?_) h
      simp only [Reading.dataKinds, List.mem_cons, List.not_mem_nil, or_false] at hk
      rcases hk with rfl | rfl | rfl | rfl <;> exact ⟨{ kind := _ }, _, rfl, rfl⟩
    | code => exact explains_nextItem mnemonic (takes_fieldStarts (by decide)) h
    | labelledCode =>
      refine explains_nextLabelled mnemonic (fun kind hk => ?_) h
      obtain rfl := List.mem_singleton.mp hk
      exact ⟨jump, _, rfl, rfl⟩

end Automaton

/-! ### Lists of tokens -/

namespace Program
variable {table : InstructionTable} {ts us : List Token} {e : GrammarError}

/-- Some tokens behind these complete a program. -/
def Viable (table : InstructionTable) (ts : List Token) : Prop :=
  ∃ vs p, ofTokens table (ts ++ vs) = .ok p

/-- The token with the number `k`; the number past the last one is that of the end. -/
def tokenAt (ts : List Token) (k : Nat) : Token :=
  TokenStream.peek ⟨ts.drop k, (TokenStream.ofList ts).ending⟩

/-- The error belongs to the token with the number `k`, and to no earlier or later one. -/
structure FailsAt (table : InstructionTable) (ts : List Token) (e : GrammarError) (k : Nat) : Prop where
  le : k ≤ ts.length
  blames : e.Blames (tokenAt ts k)
  /-- What stands before the token can be completed. -/
  viable : Viable table (ts.take k)
  /-- Nothing behind the token helps. -/
  fatal : k < ts.length → ∀ vs, ofTokens table (ts.take (k + 1) ++ vs) = .error e
  /-- With an expected token in its place what stands before it can be completed. -/
  expected : ∀ kind ∈ e.expected, ∃ t, t.kind = kind ∧ Viable table (ts.take k ++ [t])

theorem viable_of_reaches {q : Automaton.State} (h : Automaton.Reaches table Automaton.start us q) :
    Viable table us := by
  refine ⟨q.completion, exists_ofTokens_eq_ok.mpr ?_⟩
  exact h.run_append.trans Automaton.run_completion

theorem viable_of_step {q : Automaton.State} {t : Token} {o : Option Automaton.State}
    (h : Automaton.Reaches table Automaton.start us q) (ht : q.step table t = .ok o) :
    Viable table (us ++ [t]) := by
  have behind (vs : List Token) (hv : ∀ ending, Automaton.run table ending q (t :: vs) = .ok ()) :
      Viable table (us ++ [t]) := by
    refine ⟨vs, exists_ofTokens_eq_ok.mpr ?_⟩
    rw [List.append_assoc, List.singleton_append]
    exact h.run_append.trans (hv _)
  cases o with
  | none => exact behind [] fun ending => by rw [Automaton.run, ht]
  | some q' =>
    refine behind q'.completion fun ending => ?_
    rw [Automaton.run, ht]
    exact Automaton.run_completion

/-- What can be completed reaches no further than the first token that nothing behind it helps. -/
theorem FailsAt.le_of_viable {j k : Nat} (hj : FailsAt table ts e j) (hk : k ≤ ts.length)
    (hv : Viable table (ts.take k)) : k ≤ j := by
  by_contra hlt
  obtain ⟨vs, p, hp⟩ := hv
  have hsplit : ts.take k = ts.take (j + 1) ++ (ts.take k).drop (j + 1) := by
    conv_lhs => rw [← List.take_append_drop (j + 1) (ts.take k), List.take_take]
    rw [Nat.min_eq_left (by omega)]
  rw [hsplit, List.append_assoc, hj.fatal (by omega)] at hp
  cases hp

theorem failsAt_of_reaches {q : Automaton.State} {rest : List Token}
    (h : Automaton.Reaches table Automaton.start us q)
    (hq : q.step table (tokenAt (us ++ rest) us.length) = .error e) :
    FailsAt table (us ++ rest) e us.length := by
  obtain ⟨hblames, htakes⟩ := Automaton.State.step_error hq
  refine ⟨by simp, hblames, ?_, fun hlt vs => ?_, fun kind hk => ?_⟩
  · rw [List.take_left]
    exact viable_of_reaches h
  · cases rest with
    | nil => simp at hlt
    | cons t rest =>
      have ht : tokenAt (us ++ t :: rest) us.length = t := by simp [tokenAt, TokenStream.peek]
      rw [ht] at hq
      rw [List.take_length_add_append, List.append_assoc]
      refine ofTokens_eq_error.mpr (h.run_append.trans ?_)
      show Automaton.run table _ q (t :: vs) = _
      rw [Automaton.run, hq]
  · rw [List.take_left]
    obtain ⟨u, o, hu, ho⟩ := htakes kind hk
    exact ⟨u, hu, viable_of_step h ho⟩

/-- A list of tokens that forms no program is refused at the earliest token: all before it can be
completed, with it nothing can, and all that was expected in its place could have stood there. -/
theorem ofTokens_error_earliest (h : ofTokens table ts = .error e) : ∃! k, FailsAt table ts e k := by
  obtain ⟨us, rest, q, rfl, hr, hq⟩ := Automaton.reaches_of_run (ofTokens_eq_error.mp h)
  have hfails : FailsAt table (us ++ rest) e us.length :=
    failsAt_of_reaches hr (by rwa [tokenAt, List.drop_left])
  refine ⟨us.length, hfails, fun k hk => ?_⟩
  exact Nat.le_antisymm (hfails.le_of_viable hk.le hk.viable) (hk.le_of_viable hfails.le hfails.viable)

/-- A number in the place of a label that a memory access asks for. -/
theorem ofTokens_error_earliest_memory :
    let ts : List Token := [{ kind := .inst }, { kind := .label, value := lit "_a" }, { kind := .colon },
      { kind := .mnemonic, value := lit "lw" }, { kind := .accumulator, value := lit "&0" },
      { kind := .comma }, { kind := .number, value := lit "7" }, { kind := .comma }]
    let e : GrammarError := .unexpected {} [.label] .number (lit "7")
    ofTokens .empty ts = .error e ∧ ∃! k, FailsAt .empty ts e k := by
  intro ts e
  have h : ofTokens .empty ts = .error e := ofTokens_eq_error.mpr rfl
  exact ⟨h, ofTokens_error_earliest h⟩

end Program
end AccAsm
