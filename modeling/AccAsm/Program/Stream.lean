import AccAsm.Token

/-! # Token streams

A stream is read from the front and remembers what is left. Past its end it shows end-of-file tokens
at the place of its last token. Repetition (`many`) needs a step that takes at least one token
whenever it yields something, which is what makes reading end. -/

namespace AccAsm
open Text (byte lit)

structure TokenStream where
  rest : List Token
  /-- The position of the last token. -/
  ending : Position
deriving DecidableEq, Repr

namespace TokenStream

def ofList (tokens : List Token) : TokenStream :=
  ⟨tokens, (tokens.getLast?.map Token.position).getD {}⟩

/-- The next token. -/
def peek (s : TokenStream) : Token := s.rest.head?.getD { kind := .endOfFile, position := s.ending }

/-- The stream after its next token. -/
def drop (s : TokenStream) : TokenStream := { s with rest := s.rest.tail }

theorem rest_ne_nil {s : TokenStream} (h : s.peek.kind ≠ .endOfFile) : s.rest ≠ [] := by
  intro hr
  simp [peek, hr] at h

theorem length_drop_lt {s : TokenStream} (h : s.rest ≠ []) :
    s.drop.rest.length < s.rest.length := by
  cases hr : s.rest with
  | nil => exact absurd hr h
  | cons t ts => simp [drop, hr]

theorem length_drop_le (s : TokenStream) : s.drop.rest.length ≤ s.rest.length := by
  simp [drop]

end TokenStream

/-- Why tokens form no program. -/
inductive GrammarError where
  | unexpected (position : Position) (expected : List Kind) (found : Kind) (lexeme : Text)
  | unknownMnemonic (position : Position) (mnemonic : Text)
deriving DecidableEq, Repr

namespace GrammarError

def position : GrammarError → Position
  | unexpected p _ _ _ | unknownMnemonic p _ => p

/-- The message of an error, if the kinds in it have names. -/
def message? : GrammarError → Option Text
  | unexpected p expected found lexeme => do
    let want ← Kind.enumerate? expected
    let name ← found.name?
    let have_ := if lexeme.isEmpty then name else name ++ lit " '" ++ lexeme ++ lit "'"
    return p.render ++ lit ": Unexpected token\n\twant:" ++ want ++ lit "\n\thave:" ++ have_
  | unknownMnemonic p mnemonic => p.render ++ lit ": Unknown mnemonic '" ++ mnemonic ++ lit "'"

end GrammarError

/-- A computation that takes tokens off a stream. The stream stands where it stopped also after an
error. -/
abbrev Reading := EStateM GrammarError TokenStream

namespace Reading
variable {α β : Type}

/-- The next token, left on the stream. -/
def peek : Reading Token := fun s => .ok s.peek s

/-- Takes the next token. -/
def next : Reading Token := fun s => .ok s.peek s.drop

/-- Blames the next token. -/
def refuse (expected : List Kind) : Reading α := fun s =>
  .error (.unexpected s.peek.position expected s.peek.kind s.peek.value) s

/-- The next token must be of one of the kinds; it is left on the stream. -/
def ahead (kinds : List Kind) : Reading Token := do
  let t ← peek
  if t.kind ∈ kinds then return t else refuse kinds

/-- Takes the next token, which must be of one of the kinds. -/
def expect (kinds : List Kind) : Reading Token := do
  let _ ← ahead kinds
  next

/-! ### Progress -/

/-- `x` never gives tokens back. -/
def Forward (x : Reading α) : Prop :=
  ∀ s a s', x s = .ok a s' → s'.rest.length ≤ s.rest.length

/-- `x` takes a token whenever it yields something. -/
def Consumes (x : Reading (Option α)) : Prop :=
  ∀ s a s', x s = .ok (some a) s' → s'.rest.length < s.rest.length

theorem forward_pure (a : α) : Forward (pure a : Reading α) := by
  intro s b s' h
  cases h
  exact Nat.le_refl _

theorem forward_refuse (expected : List Kind) : Forward (refuse expected : Reading α) :=
  fun _ _ _ h => nomatch h

theorem forward_throw (e : GrammarError) : Forward (throw e : Reading α) :=
  fun _ _ _ h => nomatch h

theorem forward_peek : Forward peek := by
  intro s b s' h
  cases h
  exact Nat.le_refl _

theorem forward_next : Forward next := by
  intro s b s' h
  cases h
  exact s.length_drop_le

theorem ok_of_bind {x : Reading α} {f : α → Reading β} {s s'' : TokenStream} {b : β}
    (h : (x >>= f) s = .ok b s'') : ∃ a s', x s = .ok a s' ∧ f a s' = .ok b s'' := by
  change EStateM.bind x f s = _ at h
  unfold EStateM.bind at h
  split at h
  · exact ⟨_, _, by assumption, h⟩
  · cases h

theorem Forward.bind {x : Reading α} {f : α → Reading β} (hx : Forward x)
    (hf : ∀ a, Forward (f a)) : Forward (x >>= f) := by
  intro s b s'' h
  obtain ⟨a, s', h₁, h₂⟩ := ok_of_bind h
  exact Nat.le_trans (hf a s' b s'' h₂) (hx s a s' h₁)

theorem Forward.ite {c : Prop} [Decidable c] {x y : Reading α} (hx : Forward x) (hy : Forward y) :
    Forward (if c then x else y) := by
  split
  · exact hx
  · exact hy

theorem forward_ahead (kinds : List Kind) : Forward (ahead kinds) :=
  forward_peek.bind fun _ => (forward_pure _).ite (forward_refuse _)

theorem forward_expect (kinds : List Kind) : Forward (expect kinds) :=
  (forward_ahead kinds).bind fun _ => forward_next

/-- Taking a token that is not the end of the stream leaves fewer. -/
theorem length_lt_of_next {s s' : TokenStream} {t : Token} (h : next s = .ok t s')
    (hk : s.peek.kind ≠ .endOfFile) : s'.rest.length < s.rest.length := by
  cases h
  exact TokenStream.length_drop_lt (TokenStream.rest_ne_nil hk)

/-! ### Repetition -/

/-- Repeats `step` until it yields nothing; `done` holds what it yielded before, last first. -/
def manyFrom (step : Reading (Option α)) (h : Consumes step) (done : List α) (s : TokenStream) :
    EStateM.Result GrammarError TokenStream (List α) :=
  match hs : step s with
  | .ok (some a) s' =>
    have : s'.rest.length < s.rest.length := h s a s' hs
    manyFrom step h (a :: done) s'
  | .ok none s' => .ok done.reverse s'
  | .error e s' => .error e s'
termination_by s.rest.length

/-- What `step` yields, until it yields nothing. -/
def many (step : Reading (Option α)) (h : Consumes step) : Reading (List α) := manyFrom step h []

theorem length_le_of_manyFrom {step : Reading (Option α)} {h : Consumes step} (hf : Forward step)
    (done : List α) (s : TokenStream) {as : List α} {s' : TokenStream}
    (hm : manyFrom step h done s = .ok as s') : s'.rest.length ≤ s.rest.length := by
  fun_induction manyFrom step h done s with
  | case1 done s a s₁ hs _ ih => exact Nat.le_trans (ih hm) (hf _ _ _ hs)
  | case2 done s s₁ hs => cases hm; exact hf _ _ _ hs
  | case3 => cases hm

theorem forward_many {step : Reading (Option α)} {h : Consumes step} (hf : Forward step) :
    Forward (many step h) :=
  fun s _ _ hm => length_le_of_manyFrom hf [] s hm

end Reading
end AccAsm
