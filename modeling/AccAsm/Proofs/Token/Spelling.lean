import AccAsm.Proofs.Text.Ascii
import AccAsm.Token.Scan

/-! # The spelling of tokens

`Kind.Spells k t`: a token of the kind `k` may have the value `t`. Scanning yields tokens of such
values only, and ends them with the one end-of-file token (`tokens_spelled`). What is read from a
scanned source relies on these shapes: a register has digits after its sigil, a number is a decimal
numeral, a string can be unquoted, and a mnemonic is in lower case. -/

namespace AccAsm
open Text (isDigit isLetter isLower)

/-- One or more digits and nothing else. -/
def Text.IsDecimal (t : Text) : Prop := t ≠ [] ∧ ∀ b ∈ t, isDigit b

/-- What the value of a token of this kind looks like. -/
def Kind.Spells : Kind → Text → Prop
  | accumulator, t => ∃ ds, t = Text.byte '&' :: ds ∧ Text.IsDecimal ds
  | register, t => ∃ ds, t = Text.byte '$' :: ds ∧ Text.IsDecimal ds
  | label, t => ∃ rest, t = Text.byte '_' :: rest ∧ rest ≠ [] ∧ ∀ b ∈ rest, Scan.isLabelByte b
  | number, t =>
    ∃ sign ds, t = sign ++ ds ∧ sign ∈ [[], [Text.byte '+'], [Text.byte '-']] ∧ Text.IsDecimal ds
  | string, t => t.head? = some Text.doubleQuote ∧ (Quoted.unquote? t).isSome
  | mnemonic, t => t ≠ [] ∧ ∀ b ∈ t, isLower b
  | comma, t => t = [Text.byte ',']
  | colon, t => t = [Text.byte ':']
  | leftParen, t => t = [Text.byte '(']
  | rightParen, t => t = [Text.byte ')']
  | data, t => data.name? = some t
  | inst, t => inst.name? = some t
  | space, t => space.name? = some t
  | word, t => word.name? = some t
  | byte, t => byte.name? = some t
  | ascii, t => ascii.name? = some t
  | inclusion, t => inclusion.name? = some t
  | invalid, _ | endOfFile, _ | unassigned _, _ => False

/-- The kind of the token allows its value. -/
def Token.Spelled (t : Token) : Prop := t.kind.Spells t.value

namespace Text

theorem isDecimal_takeWhile {t : Text} (h : ¬ (t.takeWhile isDigit).isEmpty) :
    IsDecimal (t.takeWhile isDigit) :=
  ⟨by simpa using h, fun _ hb => List.mem_takeWhile_imp hb⟩

theorem isLower_lowerByte (b : UInt8) : isLetter b → isLower (lowerByte b) := by
  revert b
  exact forall_byte (by decide +kernel)

end Text

namespace Scan
open Text (byte)

theorem spells_mark {b : UInt8} {k : Kind} (h : mark? b = some k) : k.Spells [b] := by
  unfold mark? at h
  split at h
  next hb => cases h; rw [eq_of_beq hb]; rfl
  split at h
  next hb => cases h; rw [eq_of_beq hb]; rfl
  split at h
  next hb => cases h; rw [eq_of_beq hb]; rfl
  split at h
  next hb => cases h; rw [eq_of_beq hb]; rfl
  cases h

theorem spells_directive {t : Text} {w : Word} (h : directive t = .ok w) : w.kind.Spells w.value := by
  simp only [directive] at h
  split at h
  next kind hk =>
    cases h
    have hm := List.mem_of_find?_eq_some hk
    have hn := List.find?_some hk
    rw [beq_iff_eq] at hn
    simp only [List.mem_cons, List.not_mem_nil, or_false] at hm
    rcases hm with rfl | rfl | rfl | rfl | rfl | rfl | rfl <;> exact hn
  next => cases h

theorem spells_register {sigil : UInt8} (kind : Kind) {t : Text} {w : Word}
    (hs : ∀ ds, Text.IsDecimal ds → kind.Spells (sigil :: ds)) (h : register sigil kind t = .ok w) :
    w.kind.Spells w.value := by
  simp only [register] at h
  split at h
  next => cases h
  next hd => cases h; exact hs _ (Text.isDecimal_takeWhile hd)

theorem spells_label {t : Text} {w : Word} (h : label t = .ok w) : w.kind.Spells w.value := by
  simp only [label] at h
  split at h
  next => cases h
  next hr =>
    cases h
    exact ⟨_, rfl, by simpa using hr, fun _ hb => List.mem_takeWhile_imp hb⟩

theorem spells_mnemonic {b : UInt8} (t : Text) (hb : isLetter b) :
    (mnemonic (b :: t)).kind.Spells (mnemonic (b :: t)).value := by
  refine ⟨?_, fun c hc => ?_⟩
  · simp [mnemonic, hb]
  · obtain ⟨d, hd, rfl⟩ := List.mem_map.mp hc
    exact Text.isLower_lowerByte d (List.mem_takeWhile_imp hd)

theorem spells_number {first : UInt8} {t : Text} {w : Word}
    (hf : isDigit first || first == byte '-' || first == byte '+') (h : number first t = .ok w) :
    w.kind.Spells w.value := by
  simp only [number] at h
  split at h
  next => cases h
  next hd =>
    cases h
    have hds : ∀ b ∈ t.takeWhile isDigit, isDigit b := fun _ hb => List.mem_takeWhile_imp hb
    by_cases h₀ : isDigit first
    · refine ⟨[], first :: t.takeWhile isDigit, rfl, by simp, by simp, fun b hb => ?_⟩
      rcases List.mem_cons.mp hb with rfl | hb
      · exact h₀
      · exact hds b hb
    · refine ⟨[first], t.takeWhile isDigit, rfl, ?_, ?_, hds⟩
      · simp only [h₀, Bool.false_or, Bool.or_eq_true, beq_iff_eq] at hf
        rcases hf with rfl | rfl <;> simp
      · simpa [h₀] using hd

theorem spells_string {t : Text} {w : Word} (h : string t = .ok w) : w.kind.Spells w.value := by
  simp only [string] at h
  split at h
  next => cases h
  next n hn =>
    split at h
    next hu => cases h; exact ⟨rfl, hu⟩
    next => cases h

theorem spells_word {b : UInt8} {t : Text} {w : Word} (h : word b t = .ok w) :
    w.kind.Spells w.value := by
  unfold word at h
  split at h
  next => exact spells_directive h
  split at h
  next hb => exact spells_register .accumulator (fun ds hds => ⟨ds, by rw [eq_of_beq hb], hds⟩) h
  split at h
  next hb => exact spells_register .register (fun ds hds => ⟨ds, by rw [eq_of_beq hb], hds⟩) h
  split at h
  next => exact spells_label h
  split at h
  next hb => cases h; exact spells_mnemonic t hb
  split at h
  next hb => exact spells_number hb h
  split at h
  next => exact spells_string h
  cases h

/-- A word takes its first byte and goes on within the text behind it. -/
theorem spelling_word {b : UInt8} {t : Text} {w : Word} (h : word b t = .ok w) :
    ∃ rest, w.spelling = b :: rest ∧ rest <+: t := by
  have hregister {kind : Kind} (h : register b kind t = .ok w) :
      ∃ rest, w.spelling = b :: rest ∧ rest <+: t := by
    simp only [register] at h
    split at h <;> cases h
    exact ⟨_, rfl, List.takeWhile_prefix _⟩
  unfold word at h
  split at h
  next hb =>
    simp only [directive] at h
    split at h <;> cases h
    exact ⟨_, by rw [eq_of_beq hb], List.takeWhile_prefix _⟩
  split at h
  next => exact hregister h
  split at h
  next => exact hregister h
  split at h
  next hb =>
    simp only [label] at h
    split at h <;> cases h
    exact ⟨_, by rw [eq_of_beq hb], List.takeWhile_prefix _⟩
  split at h
  next hb =>
    cases h
    exact ⟨_, List.takeWhile_cons_of_pos hb, List.takeWhile_prefix _⟩
  split at h
  next =>
    simp only [number] at h
    split at h <;> cases h
    exact ⟨_, rfl, List.takeWhile_prefix _⟩
  split at h
  next hb =>
    simp only [string] at h
    split at h
    next => cases h
    next n _ =>
      split at h <;> cases h
      exact ⟨_, by rw [eq_of_beq hb], List.take_prefix n t⟩
  cases h

/-- A flaw lies in the text that is looked at, or right behind it. -/
def Flaw.Within (t : Text) : Flaw → Prop
  | unexpected i => i ≤ t.length
  | unknownDirective word => word <+: t
  | invalidString size => size ≤ t.length

theorem le_length_of_stringSize? {t : Text} {n : Nat} (h : stringSize? t = some n) : n ≤ t.length := by
  fun_induction stringSize? t generalizing n with
  | case1 => cases h
  | case2 b hb => cases h; exact Nat.le_refl 1
  | case3 => cases h
  | case4 b c t hb ih =>
    obtain ⟨m, hm, rfl⟩ := Option.map_eq_some_iff.mp h
    exact Nat.add_le_add_right (ih hm) 2
  | case5 => cases h; exact Nat.succ_pos _
  | case6 b c t hb hq ih =>
    obtain ⟨m, hm, rfl⟩ := Option.map_eq_some_iff.mp h
    exact Nat.succ_le_succ (ih hm)

/-- What is refused as a word is refused for something on its line. -/
theorem within_word {b : UInt8} {t : Text} {flaw : Flaw} (h : word b t = .error flaw) :
    flaw.Within (b :: t) := by
  have hregister {kind : Kind} (h : register b kind t = .error flaw) : flaw.Within (b :: t) := by
    simp only [register] at h
    split at h <;> cases h
    exact Nat.succ_pos _
  unfold word at h
  split at h
  next hb =>
    simp only [directive] at h
    split at h <;> cases h
    rw [eq_of_beq hb]
    exact List.cons_prefix_cons.mpr ⟨rfl, List.takeWhile_prefix _⟩
  split at h
  next => exact hregister h
  split at h
  next => exact hregister h
  split at h
  next =>
    simp only [label] at h
    split at h <;> cases h
    exact Nat.zero_le _
  split at h
  next => cases h
  split at h
  next =>
    simp only [number] at h
    split at h <;> cases h
    exact Nat.zero_le _
  split at h
  next =>
    simp only [string] at h
    split at h
    next => cases h; exact Nat.le_refl _
    next n hn =>
      split at h <;> cases h
      exact Nat.succ_le_succ (le_length_of_stringSize? hn)
  cases h
  exact Nat.zero_le _

/-- Behind a first byte and the digits that follow it, there is a last byte passed, and it is the one that
decides whether they are a number. -/
theorem last_number (b : UInt8) (t : Text) :
    ∃ last, (b :: t)[(t.takeWhile isDigit).length]? = some last ∧ ((∃ w, number b t = .ok w) ↔ isDigit last) := by
  cases hds : t.takeWhile isDigit with
  | nil => exact ⟨b, rfl, by cases hb : isDigit b <;> simp [number, hds, hb]⟩
  | cons d ds =>
    have hlt : ds.length < (t.takeWhile isDigit).length := by simp [hds]
    have hget : t[ds.length]? = (t.takeWhile isDigit)[ds.length]? := by
      obtain ⟨rest, ht⟩ := List.takeWhile_prefix (l := t) isDigit
      calc t[ds.length]? = (t.takeWhile isDigit ++ rest)[ds.length]? := by rw [ht]
        _ = (t.takeWhile isDigit)[ds.length]? := List.getElem?_append_left hlt
    have hok : ∃ w, number b t = .ok w := by simp [number, hds]
    refine ⟨(t.takeWhile isDigit)[ds.length], ?_, iff_of_true hok (List.mem_takeWhile_imp (List.getElem_mem hlt))⟩
    rw [List.length_cons, List.getElem?_cons_succ, hget, List.getElem?_eq_getElem hlt]

/-- Scanning the rest of a line adds spelled tokens to those before it. -/
theorem spelled_scanFrom (l : Line) {done : List Token} {i : Nat} {t : Text} {ts : List Token}
    (hd : ∀ t ∈ done, t.Spelled) (h : l.scanFrom done i t = .ok ts) : ∀ t ∈ ts, t.Spelled := by
  fun_induction Line.scanFrom l done i t with
  | case1 => cases h; exact hd
  | case2 _ _ _ _ _ ih => exact ih hd h
  | case3 => cases h; exact hd
  | case4 done i b t _ _ kind hk ih =>
    exact ih (List.forall_mem_cons.mpr ⟨spells_mark hk, hd⟩) h
  | case5 => cases h
  | case6 done i b t _ _ _ w hw _ _ _ ih =>
    exact ih (List.forall_mem_cons.mpr ⟨spells_word hw, hd⟩) h
  | case7 => cases h

theorem spelled_foldlM (ls : List Line) {done ts : List Token} (hd : ∀ t ∈ done, t.Spelled)
    (h : ls.foldlM (fun done l => l.scanFrom done 0 l.text) done = .ok ts) : ∀ t ∈ ts, t.Spelled := by
  induction ls generalizing done with
  | nil => cases h; exact hd
  | cons l ls ih =>
    rw [List.foldlM_cons] at h
    cases hl : l.scanFrom done 0 l.text with
    | error e => rw [hl] at h; cases h
    | ok done' => rw [hl] at h; exact ih (spelled_scanFrom l hd hl) h

/-- A scanned source is a list of spelled tokens with an end-of-file token behind it. -/
theorem tokens_spelled {file source : Text} {ts : List Token} (h : tokens file source = .ok ts) :
    ∃ body last, ts = body ++ [last] ∧ last.kind = .endOfFile ∧ ∀ t ∈ body, t.Spelled := by
  unfold tokens at h
  cases hd : (lines file source).foldlM (fun done l => l.scanFrom done 0 l.text) [] with
  | error e => simp only [hd] at h; cases h
  | ok done =>
    simp only [hd] at h
    cases h
    exact ⟨done.reverse, _, List.reverse_cons, rfl, fun t ht =>
      spelled_foldlM _ (by simp) hd t (List.mem_reverse.mp ht)⟩

end Scan
end AccAsm
