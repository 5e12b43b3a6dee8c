import AccAsm.Proofs.Program.EarliestError
import AccAsm.Proofs.Token.Spelling
import AccAsm.Proofs.Traversal
import Mathlib.Algebra.Ring.Nat

/-! # Messages of syntax errors

Kinds are numbers of 64 bits. The 18 kinds behind the invalid one have names of their own; of all other numbers
those below `2 ^ 63` are called invalid, and those from there on have no name (`name?_eq_none_iff`). An error has a
message unless the token that it blames is of a kind without a name, since the kinds that it expects have names
(`message?_of_explains`). Such a token is never taken. So there is no message exactly if the tokens before the
first one of them can be completed to a program (`ofTokens_message`). -/

namespace AccAsm
open Text (lit)

namespace Kind
variable {c : UInt64} {k : Kind} {ks : List Kind}

theorem name?_eq_none_iff : k.name? = none ↔ 2 ^ 63 ≤ k.code.toNat := by
  cases k with
  | unassigned c =>
    have hlt : c < 0x8000000000000000 ↔ c.toNat < 2 ^ 63 := UInt64.lt_iff_toNat_lt
    simp only [name?, code, hlt]
    split <;> simp_all
  | _ => decide

theorem exists_name?_iff : (∃ name, k.name? = some name) ↔ k.code.toNat < 2 ^ 63 := by
  rw [← Option.ne_none_iff_exists', ne_eq, name?_eq_none_iff, Nat.not_le]

theorem ofCode_of_le (h : 19 ≤ c.toNat) : ofCode c = unassigned c := by
  rw [ofCode, List.getElem?_eq_none h]
  rfl

theorem code_ofCode (c : UInt64) : (ofCode c).code = c := by
  rcases Nat.lt_or_ge c.toNat 19 with h | h
  · have hassigned : ∀ n < 19, (ofCode (UInt64.ofNat n)).code = UInt64.ofNat n := by decide +kernel
    have hc := hassigned c.toNat h
    rwa [UInt64.ofNat_toNat] at hc
  · rw [ofCode_of_le h, code]

/-- Only the kinds behind the invalid one have names of their own. -/
theorem name?_ofCode_eq_invalid :
    (ofCode c).name? = some (lit "<invalid>") ↔ ¬ (1 ≤ c.toNat ∧ c.toNat ≤ 18) ∧ c.toNat < 2 ^ 63 := by
  rcases Nat.lt_or_ge c.toNat 19 with h | h
  · have hassigned : ∀ n < 19, (ofCode (UInt64.ofNat n)).name? = some (lit "<invalid>") ↔ ¬ (1 ≤ n ∧ n ≤ 18) := by
      decide +kernel
    have hc := hassigned c.toNat h
    rw [UInt64.ofNat_toNat] at hc
    rw [hc]
    omega
  · have hlt : c < 0x8000000000000000 ↔ c.toNat < 2 ^ 63 := UInt64.lt_iff_toNat_lt
    have hname : (unassigned c).name? = some (lit "<invalid>") ↔ c.toNat < 2 ^ 63 := by
      rw [name?, ← hlt]
      split
      next hc => exact iff_of_true rfl hc
      next hc => exact iff_of_false (by rintro ⟨⟩) hc
    rw [ofCode_of_le h, hname]
    omega

theorem exists_enumerate?_iff : (∃ text, enumerate? ks = some text) ↔ ∀ k ∈ ks, k.code.toNat < 2 ^ 63 := by
  simp only [← exists_name?_iff, enumerate?, Option.bind_eq_bind, Option.bind_eq_some_iff, option_mapM_eq_some]
  constructor
  · rintro ⟨text, names, hnames, -⟩ k hk
    obtain ⟨name, -, hname⟩ := exists_of_forall₂ hnames hk
    exact ⟨name, hname⟩
  · intro h
    obtain ⟨names, hnames⟩ := exists_forall₂ h
    exact ⟨_, names, hnames, rfl⟩

theorem Spells.named {v : Text} (h : k.Spells v) : k.code.toNat < 2 ^ 63 := by
  cases k with
  | unassigned => exact h.elim
  | _ => decide

end Kind

/-! ### Tokens of kinds without a name -/

namespace Automaton
variable {table : InstructionTable} {q q' : State} {t : Token} {ts : List Token} {o : Option State}

/-- No state takes a token without a name. -/
theorem State.step_named (h : q.step table t = .ok o) : t.kind.code.toNat < 2 ^ 63 := by
  cases hk : t.kind with
  | unassigned c =>
    obtain ⟨awaited, spot⟩ := q
    cases awaited with
    | cons slot more =>
      have hslot : Kind.unassigned c ∉ slot.kinds := by cases slot <;> simp [Slot.kinds]
      rw [State.step, hk, if_neg hslot] at h
      cases h
    | nil =>
      cases spot <;>
        simp [State.step, Spot.step, nextItem, nextLabelled, nextField, Reading.dataKinds, hk] at h
  | _ => decide

theorem Reaches.named (h : Reaches table q ts q') : ∀ t ∈ ts, t.kind.code.toNat < 2 ^ 63 := by
  induction h with
  | nil => simp
  | cons hs _ ih =>
    intro u hu
    rcases List.mem_cons.mp hu with rfl | hu
    · exact State.step_named hs
    · exact ih u hu

/-- Only the blamed token can keep an error from having a message. -/
theorem message?_of_explains {e : GrammarError} (h : Explains table q t e) :
    (∃ text, e.message? = some text) ↔ t.kind.code.toNat < 2 ^ 63 := by
  obtain ⟨hblames, htakes⟩ := h
  cases e with
  | unknownMnemonic position mnemonic =>
    obtain rfl : t = ⟨.mnemonic, position, mnemonic⟩ := hblames
    have hmnemonic : Kind.mnemonic.code.toNat < 2 ^ 63 := by decide
    exact iff_of_true ⟨_, rfl⟩ hmnemonic
  | unexpected position kinds found lexeme =>
    obtain rfl : t = ⟨found, position, lexeme⟩ := hblames
    have hkinds : ∀ kind ∈ kinds, kind.code.toNat < 2 ^ 63 := by
      intro kind hk
      obtain ⟨u, o, rfl, ho⟩ := htakes kind hk
      exact State.step_named ho
    obtain ⟨want, hwant⟩ := Kind.exists_enumerate?_iff.mpr hkinds
    rw [← Kind.exists_name?_iff]
    simp [GrammarError.message?, hwant, Option.bind_eq_some_iff]

end Automaton

namespace Program
variable {table : InstructionTable} {ts : List Token} {e : GrammarError}

/-- Where the tokens before one without a name can be completed, reading gets to it and no further. -/
theorem message?_eq_none_iff (h : ofTokens table ts = .error e) :
    e.message? = none ↔
      ∃ before t after, ts = before ++ t :: after ∧ Viable table before ∧ 2 ^ 63 ≤ t.kind.code.toNat := by
  obtain ⟨us, rest, q, rfl, hr, hq⟩ := Automaton.reaches_of_run (ofTokens_eq_error.mp h)
  have hfails : FailsAt table (us ++ rest) e us.length :=
    failsAt_of_reaches hr (by rwa [tokenAt, List.drop_left])
  have hmessage := Automaton.message?_of_explains (Automaton.State.step_error hq)
  rw [← Option.ne_none_iff_exists', ne_eq, not_iff_comm, Nat.not_lt] at hmessage
  rw [← hmessage]
  constructor
  · intro hnone
    cases rest with
    | nil =>
      have hend : Kind.endOfFile.code.toNat < 2 ^ 63 := by decide
      exact absurd hnone (Nat.not_le.mpr hend)
    | cons t rest => exact ⟨us, t, rest, rfl, viable_of_reaches hr, hnone⟩
  · rintro ⟨before, t, after, hsplit, hv, ht⟩
    have hle : before.length ≤ us.length :=
      hfails.le_of_viable (by simp [hsplit]) (by rwa [hsplit, List.take_left])
    have hnot : t ∉ us := fun hmem => Nat.not_le.mpr (hr.named t hmem) ht
    obtain ⟨cs, rfl, hcs⟩ : ∃ cs, us = before ++ cs ∧ t :: after = cs ++ rest := by
      rcases List.append_eq_append_iff.mp hsplit with ⟨as, rfl, hrest⟩ | hcs
      · rw [List.length_append] at hle
        obtain rfl : as = [] := List.eq_nil_of_length_eq_zero (by omega)
        exact ⟨[], by simp, by simpa using hrest.symm⟩
      · exact hcs
    cases cs with
    | nil =>
      obtain rfl : t :: after = rest := hcs
      exact ht
    | cons u cs =>
      obtain ⟨rfl, -⟩ := List.cons.inj hcs
      exact absurd (List.mem_append_right _ (.head _)) hnot

theorem exists_message? (hn : ∀ t ∈ ts, t.kind.code.toNat < 2 ^ 63) (h : ofTokens table ts = .error e) :
    ∃ text, e.message? = some text := by
  rw [← Option.ne_none_iff_exists', ne_eq, message?_eq_none_iff h]
  rintro ⟨before, t, after, rfl, -, ht⟩
  exact Nat.not_le.mpr (hn t (by simp)) ht

/-- Which kinds have names, and which syntax errors have messages: all but those at a token without a name
that reading gets to. Scanned tokens have names. -/
theorem ofTokens_message (table : InstructionTable) (ts : List Token) :
    (∀ c : UInt64, ((Kind.ofCode c).name? = none ↔ 2 ^ 63 ≤ c.toNat) ∧
      ((Kind.ofCode c).name? = some (lit "<invalid>") ↔ ¬ (1 ≤ c.toNat ∧ c.toNat ≤ 18) ∧ c.toNat < 2 ^ 63)) ∧
    (∀ cs : List UInt64, (∃ text, Kind.enumerate? (cs.map Kind.ofCode) = some text) ↔ ∀ c ∈ cs, c.toNat < 2 ^ 63) ∧
    (∀ e, ofTokens table ts = .error e →
      (e.message? = none ↔
        ∃ before t after, ts = before ++ t :: after ∧ Viable table before ∧ 2 ^ 63 ≤ t.kind.code.toNat) ∧
      ((∀ t ∈ ts, t.kind.code.toNat < 2 ^ 63) → ∃ text, e.message? = some text) ∧
      ∀ file source, Scan.tokens file source = .ok ts → ∃ text, e.message? = some text) := by
  refine ⟨fun c => ⟨?_, Kind.name?_ofCode_eq_invalid⟩, fun cs => ?_, fun e h => ?_⟩
  · rw [Kind.name?_eq_none_iff, Kind.code_ofCode]
  · simp [Kind.exists_enumerate?_iff, Kind.code_ofCode]
  · refine ⟨message?_eq_none_iff h, fun hn => exists_message? hn h, fun file source hscan => ?_⟩
    obtain ⟨body, last, rfl, hlast, hbody⟩ := Scan.tokens_spelled hscan
    refine exists_message? (fun t ht => ?_) h
    rcases List.mem_append.mp ht with ht | ht
    · exact Kind.Spells.named (hbody t ht)
    · rw [List.mem_singleton.mp ht, hlast]
      decide

/-- A token with the number `2 ^ 63` is blamed in an error that has no message. -/
theorem ofTokens_nameless :
    let t : Token := { kind := Kind.ofCode 0x8000000000000000 }
    let e : GrammarError := .unexpected {} [.data, .inst, .inclusion, .endOfFile] t.kind []
    ofTokens .empty [t] = .error e ∧ e.message? = none ∧ t.kind.name? = none ∧
      Kind.enumerate? [.comma, t.kind] = none := by
  intro t e
  exact ⟨ofTokens_eq_error.mpr rfl, rfl, rfl, rfl⟩

end Program
end AccAsm
