import AccAsm.Proofs.Program.Grammar
import AccAsm.Proofs.Token.Literal
import AccAsm.Proofs.Token.Placement

/-! # Scanning undoes printing

A `Layout` is a list of tokens, spelled in one of the ways they may be, with white space, newlines and
comments before, between and behind them. Whatever the layout, its text is scanned, and as exactly these
tokens (`tokens_print`). So comments, blank lines, line endings and letter case never matter.

`Reads source contents` says the same of a text from any place on, one constructor for each thing that
can come next. Every layout reads so, and scanning line by line follows the relation step by step
(`scan_reads`). -/

namespace AccAsm
open Text (newline doubleQuote isDigit isLetter lit)

/-- What a token is, wherever it stands. -/
def Token.content (t : Token) : Kind × Text := (t.kind, t.value)

namespace Scan

/-- A token as it may be spelled. -/
structure Spelling where
  kind : Kind
  word : Text
  spells : kind.Spells (kind.fold word)

def Spelling.content (s : Spelling) : Kind × Text := (s.kind, s.kind.fold s.word)

/-- White space, newlines and comments, each with the newline that ends it. -/
inductive IsGap : Text → Prop
  | nil : IsGap []
  | space {b : UInt8} {rest : Text} (hb : isBlank b ∨ b = newline) (h : IsGap rest) : IsGap (b :: rest)
  | comment {b : UInt8} {text rest : Text} (hb : startsComment b) (ht : newline ∉ text)
      (h : IsGap rest) : IsGap (b :: (text ++ newline :: rest))

/-- Tokens with what stands before each of them, and what stands behind the last one. -/
structure Layout where
  pieces : List (Text × Spelling)
  gaps : ∀ p ∈ pieces, IsGap p.1
  /-- Only a punctuation mark needs no gap. -/
  apart : pieces.IsChain fun p q => q.1 ≠ [] ∨ p.2.kind.isMark ∨ q.2.kind.isMark
  final : Text
  /-- The last line may end with a comment. -/
  ends : ∃ gap tail, final = gap ++ tail ∧ IsGap gap ∧
    (tail = [] ∨ ∃ b text, tail = b :: text ∧ startsComment b ∧ newline ∉ text)

namespace Layout

def print (l : Layout) : Text := l.pieces.flatMap (fun p => p.1 ++ p.2.word) ++ l.final

def contents (l : Layout) : List (Kind × Text) := l.pieces.map fun p => p.2.content

end Layout

/-! ### Words -/

variable {b : UInt8} {r t : Text}

theorem takeWhile_append {p : UInt8 → Bool} (hr : ∀ b ∈ r, p b) (hp : ∀ b, isDelimiter b → p b = false)
    (ht : t.head?.all isDelimiter) : (r ++ t).takeWhile p = r := by
  rw [List.takeWhile_append_of_pos hr]
  cases t with
  | nil => simp
  | cons b t =>
    have hb : isDelimiter b := by simpa using ht
    rw [List.takeWhile_cons_of_neg (by simp [hp b hb]), List.append_nil]

theorem newline_notMem {p : UInt8 → Bool} (hb : b ≠ newline) (hr : ∀ c ∈ r, p c) (hp : ¬ p newline) :
    newline ∉ b :: r := by
  rw [List.mem_cons, not_or]
  exact ⟨hb.symm, fun hm => hp (hr _ hm)⟩

theorem isDelimiter_classes (b : UInt8) :
    isDelimiter b → isLetter b = false ∧ isDigit b = false ∧ isLabelByte b = false := by
  revert b
  exact Text.forall_byte (by decide +kernel)

theorem word_of_isLetter (hb : isLetter b) (t : Text) : word b t = .ok (mnemonic (b :: t)) := by
  have hfirst : ∀ b : UInt8, isLetter b →
      b ≠ Text.byte '.' ∧ b ≠ Text.byte '&' ∧ b ≠ Text.byte '$' ∧ b ≠ Text.byte '_' :=
    Text.forall_byte (by decide +kernel)
  simp [word, hfirst b hb, hb]

theorem word_of_number (hb : isDigit b ∨ b = Text.byte '+' ∨ b = Text.byte '-') (t : Text) :
    word b t = number b t := by
  have hfirst : ∀ b : UInt8, isDigit b ∨ b = Text.byte '+' ∨ b = Text.byte '-' →
      (b ≠ Text.byte '.' ∧ b ≠ Text.byte '&' ∧ b ≠ Text.byte '$' ∧ b ≠ Text.byte '_' ∧
        isLetter b = false) ∧ (isDigit b || b == Text.byte '-' || b == Text.byte '+') = true :=
    Text.forall_byte (by decide +kernel)
  obtain ⟨hother, hnumber⟩ := hfirst b hb
  rw [word, if_neg (by simpa using hother.1), if_neg (by simpa using hother.2.1),
    if_neg (by simpa using hother.2.2.1), if_neg (by simpa using hother.2.2.2.1),
    if_neg (by simp [hother.2.2.2.2]), if_pos hnumber]

/-- The word is scanned as one of its kind, if a delimiter or the end of the line follows. -/
structure Scans (kind : Kind) (b : UInt8) (r : Text) : Prop where
  start : isDelimiter b = false
  oneLine : newline ∉ b :: r
  scans : ∀ t : Text, t.head?.all isDelimiter →
    word b (r ++ t) = .ok ⟨kind, b :: r, kind.fold (b :: r)⟩

theorem scans_register {sigil : UInt8} {kind : Kind} {ds : Text} (hd : Text.IsDecimal ds)
    (hs : isDelimiter sigil = false ∧ sigil ≠ newline) (hk : ¬ (kind.isDirective ∨ kind = .mnemonic))
    (hw : ∀ t, word sigil t = register sigil kind t) : Scans kind sigil ds where
  start := hs.1
  oneLine := newline_notMem hs.2 hd.2 (by decide)
  scans t ht := by
    have htake := takeWhile_append hd.2 (fun b hb => (isDelimiter_classes b hb).2.1) ht
    rw [hw, register, htake, if_neg (by simpa using hd.1), Kind.fold, if_neg hk]

theorem scans_label (hr : r ≠ [] ∧ ∀ b ∈ r, isLabelByte b) : Scans .label (Text.byte '_') r where
  start := by decide
  oneLine := newline_notMem (by decide) hr.2 (by decide)
  scans t ht := by
    have htake := takeWhile_append hr.2 (fun b hb => (isDelimiter_classes b hb).2.2) ht
    have hword : word (Text.byte '_') (r ++ t) = label (r ++ t) := rfl
    rw [hword, label, htake, if_neg (by simpa using hr.1)]
    rfl

theorem scans_number {w : Text} (h : Kind.number.Spells w) : ∃ b r, w = b :: r ∧ Scans .number b r := by
  obtain ⟨sign, ds, rfl, hsign, hne, hd⟩ := h
  have hdelim (b : UInt8) : isDelimiter b → isDigit b = false := fun hb => (isDelimiter_classes b hb).2.1
  have hsplit : ∃ b r, sign ++ ds = b :: r ∧ (isDigit b ∨ b = Text.byte '+' ∨ b = Text.byte '-') ∧
      (∀ b ∈ r, isDigit b) ∧ ¬ (r.isEmpty && !isDigit b) := by
    obtain ⟨d, ds', rfl⟩ := List.exists_cons_of_ne_nil hne
    simp only [List.mem_cons, List.not_mem_nil, or_false] at hsign
    rcases hsign with rfl | rfl | rfl
    · obtain ⟨hfirst, hrest⟩ := List.forall_mem_cons.mp hd
      exact ⟨d, ds', rfl, .inl hfirst, hrest, by simp [hfirst]⟩
    · exact ⟨_, _, rfl, .inr (.inl rfl), hd, by simp⟩
    · exact ⟨_, _, rfl, .inr (.inr rfl), hd, by simp⟩
  obtain ⟨b, r, hw, hb, hr, hsome⟩ := hsplit
  have hstart : ∀ b : UInt8, isDigit b ∨ b = Text.byte '+' ∨ b = Text.byte '-' →
      isDelimiter b = false ∧ b ≠ newline := Text.forall_byte (by decide +kernel)
  refine ⟨b, r, hw, (hstart b hb).1, newline_notMem (hstart b hb).2 hr (by decide), fun t ht => ?_⟩
  rw [word_of_number hb, number, takeWhile_append hr hdelim ht, if_neg hsome]
  rfl

theorem scans_string {w : Text} (h : Kind.string.Spells w) :
    ∃ b r, w = b :: r ∧ Scans .string b r := by
  obtain ⟨hhead, hunquote⟩ := h
  obtain ⟨r, rfl⟩ := List.head?_eq_some_iff.mp hhead
  obtain ⟨v, hv⟩ := Option.isSome_iff_exists.mp hunquote
  refine ⟨doubleQuote, r, rfl, by decide, ?_, fun t _ => ?_⟩
  · rw [List.mem_cons, not_or]
    exact ⟨by decide, (stringSize?_append hv []).1⟩
  · have hword : word doubleQuote (r ++ t) = string (r ++ t) := rfl
    rw [hword, string, (stringSize?_append hv t).2]
    simp only [List.take_left, if_pos hunquote]
    rfl

theorem isLetter_of_lower (b : UInt8) : Text.isLower (Text.lowerByte b) → isLetter b := by
  revert b
  exact Text.forall_byte (by decide +kernel)

theorem scans_mnemonic {w : Text} (h : Kind.mnemonic.Spells (w.map Text.lowerByte)) :
    ∃ b r, w = b :: r ∧ Scans .mnemonic b r := by
  obtain ⟨hne, hlower⟩ := h
  obtain ⟨b, r, rfl⟩ := List.exists_cons_of_ne_nil (List.map_eq_nil_iff.not.mp hne)
  have hletters : ∀ c ∈ b :: r, isLetter c := fun c hc =>
    isLetter_of_lower c (hlower _ (List.mem_map_of_mem hc))
  have hstart : ∀ b : UInt8, isLetter b → isDelimiter b = false := Text.forall_byte (by decide +kernel)
  have hb := hletters b (.head _)
  refine ⟨b, r, rfl, hstart b hb, ?_, fun t ht => ?_⟩
  · intro hm
    exact absurd (hletters _ hm) (by decide)
  · rw [word_of_isLetter hb, mnemonic, ← List.cons_append,
      takeWhile_append hletters (fun b hb => (isDelimiter_classes b hb).1) ht]
    rfl

theorem name_of_isDirective {kind : Kind} {name : Text} (hk : kind.isDirective)
    (hn : kind.name? = some name) :
    Kind.ofDirective? name = some kind ∧
      ∃ ls, name = Text.byte '.' :: ls ∧ ∀ b ∈ ls, Text.isLower b := by
  cases kind with
  | data | inst | space | word | byte | ascii | inclusion =>
    cases hn
    exact ⟨by decide +kernel, _, rfl, by decide +kernel⟩
  | _ => cases hk

theorem scans_directive {kind : Kind} {w : Text} (hk : kind.isDirective)
    (h : kind.name? = some (w.map Text.lowerByte)) : ∃ b r, w = b :: r ∧ Scans kind b r := by
  obtain ⟨hfind, ls, hls, hlower⟩ := name_of_isDirective hk h
  obtain ⟨b, r, rfl, hb, rfl⟩ := List.map_eq_cons_iff.mp hls
  have hdot : ∀ b : UInt8, Text.lowerByte b = Text.byte '.' → b = Text.byte '.' :=
    Text.forall_byte (by decide +kernel)
  obtain rfl := hdot b hb
  have hletters : ∀ c ∈ r, isLetter c := fun c hc =>
    isLetter_of_lower c (hlower _ (List.mem_map_of_mem hc))
  refine ⟨_, r, rfl, by decide, newline_notMem (by decide) hletters (by decide), fun t ht => ?_⟩
  have hword : word (Text.byte '.') (r ++ t) = directive (r ++ t) := rfl
  have htake := takeWhile_append hletters (fun b hb => (isDelimiter_classes b hb).1) ht
  rw [hword, directive, htake]
  simp only [hfind, Kind.fold, hk, true_or, if_true]

theorem scans_of_spells {kind : Kind} {w : Text} (h : kind.Spells (kind.fold w))
    (hm : kind.isMark = false) : ∃ b r, w = b :: r ∧ Scans kind b r := by
  cases kind with
  | comma | colon | leftParen | rightParen => cases hm
  | invalid | endOfFile | unassigned => exact h.elim
  | accumulator | register =>
    obtain ⟨ds, hw, hd⟩ := h
    exact ⟨_, ds, hw, scans_register hd (by decide) (by decide) fun _ => rfl⟩
  | label =>
    obtain ⟨r, hw, hr⟩ := h
    exact ⟨_, r, hw, scans_label hr⟩
  | number => exact scans_number h
  | string => exact scans_string h
  | mnemonic => exact scans_mnemonic h
  | data | inst | space | word | byte | ascii | inclusion => exact scans_directive rfl h

theorem mark_of_spells {kind : Kind} {w : Text} (h : kind.Spells (kind.fold w)) (hm : kind.isMark) :
    ∃ b, w = [b] ∧ mark? b = some kind ∧ isBlank b = false ∧ startsComment b = false := by
  cases kind with
  | comma | colon | leftParen | rightParen => exact ⟨_, h, by decide⟩
  | _ => cases hm

theorem Spelling.oneLine (s : Spelling) : newline ∉ s.word := by
  cases hm : s.kind.isMark with
  | true =>
    obtain ⟨b, hw, hb, -⟩ := mark_of_spells s.spells hm
    rw [hw, List.mem_singleton]
    rintro rfl
    cases hb
  | false =>
    obtain ⟨b, r, hw, hs⟩ := scans_of_spells s.spells hm
    rw [hw]
    exact hs.oneLine

/-- Scanning takes a token that is spelled at the front of the rest of a line. -/
theorem scanFrom_append (l : Line) (s : Spelling) (done : List Token) (i : Nat)
    (ht : s.kind.isMark ∨ t.head?.all isDelimiter) :
    l.scanFrom done i (s.word ++ t) =
      l.scanFrom (⟨s.kind, l.position i s.word.length, s.kind.fold s.word⟩ :: done)
        (i + s.word.length) t := by
  cases hm : s.kind.isMark with
  | true =>
    obtain ⟨b, hw, hmark, hblank, hcomment⟩ := mark_of_spells s.spells hm
    rw [hw, List.singleton_append, Line.scanFrom, hblank, hcomment, hmark, fold_mark hmark]
    rfl
  | false =>
    obtain ⟨b, r, hw, hs⟩ := scans_of_spells s.spells hm
    have ht : t.head?.all isDelimiter := ht.resolve_left (by simp [hm])
    have hstart := hs.start
    simp only [isDelimiter, Bool.or_eq_false_iff, Option.isSome_eq_false_iff, Option.isNone_iff_eq_none]
      at hstart
    obtain ⟨⟨hblank, hmark⟩, hcomment⟩ := hstart
    rw [hw, List.cons_append, Line.scanFrom, hblank, hcomment, hmark]
    simp only [hs.scans t ht, Bool.false_eq_true, if_false, List.length_cons, Nat.add_sub_cancel,
      List.drop_left, if_pos ht]

/-! ### Lines -/

theorem Lined.exists_cons {texts : List Text} {source : Text} (h : Lined texts source) :
    ∃ t ts, texts = t :: ts := by
  cases h <;> exact ⟨_, _, rfl⟩

theorem Lined.of_nil {texts : List Text} (h : Lined (t :: texts) []) : t = [] ∧ texts = [] := by
  generalize hs : ([] : Text) = source at h
  cases h with
  | last =>
    subst hs
    exact ⟨rfl, rfl⟩
  | ended | cons => simp at hs

theorem Lined.of_newline {texts : List Text} {rest : Text} (h : Lined (t :: texts) (newline :: rest)) :
    t = [] ∧ (texts = [] ∧ rest = [] ∨ Lined texts rest) := by
  generalize hs : newline :: rest = source at h
  cases h with
  | last ht =>
    rw [← hs] at ht
    simp at ht
  | ended ht =>
    cases t with
    | nil =>
      cases hs
      exact ⟨rfl, .inl ⟨rfl, rfl⟩⟩
    | cons b t =>
      obtain ⟨rfl, -⟩ := List.cons.inj hs
      simp at ht
  | cons ht h =>
    cases t with
    | nil =>
      cases hs
      exact ⟨rfl, .inr h⟩
    | cons b t =>
      obtain ⟨rfl, -⟩ := List.cons.inj hs
      simp at ht

theorem Lined.of_cons {texts : List Text} {rest : Text} (h : Lined (t :: texts) (b :: rest))
    (hb : b ≠ newline) : ∃ t', t = b :: t' ∧ Lined (t' :: texts) rest := by
  generalize hs : b :: rest = source at h
  cases h with
  | last ht =>
    subst hs
    exact ⟨rest, rfl, .last fun hm => ht (.tail _ hm)⟩
  | ended ht =>
    cases t with
    | nil =>
      cases hs
      exact absurd rfl hb
    | cons c t =>
      cases hs
      exact ⟨t, rfl, .ended fun hm => ht (.tail _ hm)⟩
  | cons ht h =>
    cases t with
    | nil =>
      cases hs
      exact absurd rfl hb
    | cons c t =>
      cases hs
      exact ⟨t, rfl, .cons (fun hm => ht (.tail _ hm)) h⟩

theorem Lined.of_append {texts : List Text} {w rest : Text} (h : Lined (t :: texts) (w ++ rest))
    (hw : newline ∉ w) : ∃ t', t = w ++ t' ∧ Lined (t' :: texts) rest := by
  induction w generalizing t with
  | nil => exact ⟨t, rfl, h⟩
  | cons b w ih =>
    rw [List.mem_cons, not_or] at hw
    obtain ⟨t₁, rfl, h₁⟩ := h.of_cons (Ne.symm hw.1)
    obtain ⟨t', rfl, h'⟩ := ih h₁ hw.2
    exact ⟨t', rfl, h'⟩

/-! ### Scanning -/

/-- A token before `rest` ends where it should. -/
def Delimits (rest : Text) : Prop := ∀ b ∈ rest.head?, isDelimiter b ∨ b = newline

/-- `source` holds tokens of these contents, and white space and comments between them. -/
inductive Reads : Text → List (Kind × Text) → Prop
  | nil : Reads [] []
  | newline {rest : Text} {cs : List (Kind × Text)} (h : Reads rest cs) : Reads (newline :: rest) cs
  | blank {b : UInt8} {rest : Text} {cs : List (Kind × Text)} (hb : isBlank b) (h : Reads rest cs) :
      Reads (b :: rest) cs
  | comment {b : UInt8} {text rest : Text} {cs : List (Kind × Text)} (hb : startsComment b)
      (ht : Text.newline ∉ text) (hr : rest = [] ∨ ∃ next, rest = Text.newline :: next)
      (h : Reads rest cs) : Reads (b :: (text ++ rest)) cs
  | token {s : Spelling} {rest : Text} {cs : List (Kind × Text)} (hd : s.kind.isMark ∨ Delimits rest)
      (h : Reads rest cs) : Reads (s.word ++ rest) (s.content :: cs)

theorem Lined.delimits {texts : List Text} {rest : Text} (h : Lined (t :: texts) rest)
    (hd : Delimits rest) : t.head?.all isDelimiter := by
  cases t with
  | nil => rfl
  | cons b t =>
    have hfirst : rest.head? = some b ∧ b ≠ newline := by
      cases h with
      | last ht | ended ht | cons ht _ =>
        refine ⟨rfl, ?_⟩
        rintro rfl
        exact ht (.head _)
    have hb := (hd b hfirst.1).resolve_right hfirst.2
    simpa using hb

/-- Scanning the rest `t` of a line and the lines behind it gives tokens of the contents that are read
there. -/
theorem scan_reads (file : Text) {source : Text} {cs : List (Kind × Text)} (h : Reads source cs)
    {texts : List Text} (hl : Lined (t :: texts) source) (l : Line) (done : List Token) (i number start : Nat) :
    ∃ out, (l.scanFrom done i t >>= fun done =>
        (numbered file number start texts).foldlM (fun done l => l.scanFrom done 0 l.text) done) = .ok out ∧
      out.map Token.content = cs.reverse ++ done.map Token.content := by
  induction h generalizing t texts l done i number start with
  | nil =>
    obtain ⟨rfl, rfl⟩ := hl.of_nil
    rw [Line.scanFrom]
    exact ⟨done, rfl, rfl⟩
  | @newline rest cs h ih =>
    obtain ⟨rfl, ⟨rfl, rfl⟩ | hrest⟩ := hl.of_newline
    · exact ih (.last (by simp)) l done i number start
    · -- the next line is scanned from its start
      obtain ⟨t₁, texts, rfl⟩ := hrest.exists_cons
      rw [Line.scanFrom]
      exact ih hrest ⟨file, number, start, t₁⟩ done 0 (number + 1) (start + t₁.length + 1)
  | @blank b rest cs hb h ih =>
    have hne : b ≠ newline := by
      rintro rfl
      exact absurd hb (by decide)
    obtain ⟨t, rfl, hrest⟩ := hl.of_cons hne
    rw [Line.scanFrom, if_pos hb]
    exact ih hrest l done (i + 1) number start
  | @comment b text rest cs hb ht hr h ih =>
    obtain ⟨line, rfl, hline⟩ := hl.of_cons (startsComment_ne hb)
    obtain ⟨t, rfl, hrest⟩ := hline.of_append ht
    obtain rfl : t = [] := by
      rcases hr with rfl | ⟨next, rfl⟩
      · exact hrest.of_nil.1
      · exact hrest.of_newline.1
    have hblank : ∀ b : UInt8, startsComment b → isBlank b = false := Text.forall_byte (by decide +kernel)
    have hempty : l.scanFrom done i [] = .ok done := by rw [Line.scanFrom]
    rw [Line.scanFrom, if_neg (by simp [hblank b hb]), if_pos hb, ← hempty]
    exact ih hrest l done i number start
  | @token s rest cs hd h ih =>
    obtain ⟨t, rfl, hrest⟩ := hl.of_append s.oneLine
    rw [scanFrom_append l s done i (hd.imp_right hrest.delimits)]
    obtain ⟨out, hout, hcontent⟩ := ih hrest l
      (⟨s.kind, l.position i s.word.length, s.kind.fold s.word⟩ :: done) (i + s.word.length) number start
    refine ⟨out, hout, ?_⟩
    rw [hcontent]
    simp [Token.content, Spelling.content]

/-! ### Layouts -/

theorem IsGap.reads {gap rest : Text} {cs : List (Kind × Text)} (hg : IsGap gap) (h : Reads rest cs) :
    Reads (gap ++ rest) cs := by
  induction hg with
  | nil => exact h
  | space hb _ ih =>
    rcases hb with hb | rfl
    · exact .blank hb ih
    · exact .newline ih
  | comment hb ht _ ih =>
    rw [List.cons_append, List.append_assoc]
    exact .comment hb ht (.inr ⟨_, rfl⟩) (.newline ih)

theorem IsGap.delimits {gap rest : Text} (hg : IsGap gap) (h : gap ≠ [] ∨ Delimits rest) :
    Delimits (gap ++ rest) := by
  cases hg with
  | nil => exact h.resolve_left fun hne => hne rfl
  | space hb _ =>
    rintro b ⟨⟩
    refine hb.imp_left fun hb => ?_
    simp [isDelimiter, hb]
  | comment hb _ _ =>
    rintro b ⟨⟩
    exact .inl (by simp [isDelimiter, hb])

/-- What is left of a layout from one of its tokens on. -/
theorem reads_pieces {pieces : List (Text × Spelling)} {final : Text}
    (hg : ∀ p ∈ pieces, IsGap p.1)
    (ha : pieces.IsChain fun p q => q.1 ≠ [] ∨ p.2.kind.isMark ∨ q.2.kind.isMark)
    (hf : Reads final [] ∧ Delimits final) :
    Reads (pieces.flatMap (fun p => p.1 ++ p.2.word) ++ final) (pieces.map fun p => p.2.content) := by
  induction pieces with
  | nil => exact hf.1
  | cons p pieces ih =>
    obtain ⟨gap, s⟩ := p
    obtain ⟨hgap, hg⟩ := List.forall_mem_cons.mp hg
    have hrest := ih hg ha.of_cons
    have hd : s.kind.isMark ∨ Delimits (pieces.flatMap (fun p => p.1 ++ p.2.word) ++ final) := by
      cases pieces with
      | nil => exact .inr hf.2
      | cons q pieces =>
        rw [List.isChain_cons_cons] at ha
        rw [List.flatMap_cons, List.append_assoc, List.append_assoc]
        have hgap := hg q (.head _)
        rcases ha.1 with hne | hmark | hmark
        · exact .inr (hgap.delimits (.inl hne))
        · exact .inl hmark
        · obtain ⟨b, hw, hb, -⟩ := mark_of_spells q.2.spells hmark
          refine .inr (hgap.delimits (.inr ?_))
          rw [hw]
          rintro c ⟨⟩
          exact .inl (by simp [isDelimiter, hb])
    rw [List.flatMap_cons, List.append_assoc, List.append_assoc]
    exact hgap.reads (.token hd hrest)

theorem Layout.reads (l : Layout) : Reads l.print l.contents := by
  refine reads_pieces l.gaps l.apart ?_
  obtain ⟨gap, tail, hfinal, hgap, htail⟩ := l.ends
  rw [hfinal]
  rcases htail with rfl | ⟨b, text, rfl, hb, ht⟩
  · exact ⟨hgap.reads .nil, hgap.delimits (.inr (by rintro b ⟨⟩))⟩
  · have hcomment : Reads (b :: text) [] := by
      rw [← List.append_nil text]
      exact .comment hb ht (.inl rfl) .nil
    refine ⟨hgap.reads hcomment, hgap.delimits (.inr ?_)⟩
    rintro c ⟨⟩
    exact .inl (by simp [isDelimiter, hb])

theorem exists_tokens_of_reads {source : Text} {cs : List (Kind × Text)} (h : Reads source cs) (file : Text) :
    ∃ ts, tokens file source = .ok ts ∧ ts.map Token.content = cs ++ [(.endOfFile, [])] := by
  have hl := lined_lineTexts source
  obtain ⟨t, texts, ht⟩ := hl.exists_cons
  rw [ht] at hl
  obtain ⟨out, hout, hcontent⟩ := scan_reads file h hl ⟨file, 1, 0, t⟩ [] 0 2 (0 + t.length + 1)
  refine ⟨(endToken source ((lines file source).getLastD ⟨file, 1, 0, []⟩) :: out).reverse, ?_, ?_⟩
  · have hfold : (lines file source).foldlM (fun done l => l.scanFrom done 0 l.text) [] = .ok out := by
      rw [lines, ht]
      exact hout
    rw [tokens, hfold]
    rfl
  · rw [List.map_reverse, List.map_cons, hcontent]
    simp [Token.content, endToken]

/-- The text of every layout is scanned as its tokens, in any letter case and with any space and comments
between them; another layout of the same tokens makes no difference. -/
theorem tokens_print (l : Layout) (file : Text) :
    ∃ ts, tokens file l.print = .ok ts ∧ ts.map Token.content = l.contents ++ [(.endOfFile, [])] ∧
      ∀ m : Layout, m.contents = l.contents →
        ∃ us, tokens file m.print = .ok us ∧ us.map Token.content = ts.map Token.content := by
  obtain ⟨ts, hts, hcontent⟩ := exists_tokens_of_reads l.reads file
  refine ⟨ts, hts, hcontent, fun m hm => ?_⟩
  obtain ⟨us, hus, hcontent'⟩ := exists_tokens_of_reads m.reads file
  exact ⟨us, hus, by rw [hcontent, hcontent', hm]⟩

/-- A label glued to its colon, a comment between a directive and a string with an escaped quote, and a
comment without an end. -/
theorem tokens_print_glued :
    ∃ l : Layout, l.print = lit "_A:.ASCII ;x\r\n\"\\\"#\",Nop#" ∧
      l.contents = [(.label, lit "_A"), (.colon, lit ":"), (.ascii, lit ".ascii"),
        (.string, lit "\"\\\"#\""), (.comma, lit ","), (.mnemonic, lit "nop")] ∧
      ∃ ts, tokens (lit "f") l.print = .ok ts ∧ ts.map Token.content = l.contents ++ [(.endOfFile, [])] := by
  let name : Spelling := ⟨.label, lit "_A", lit "A", by decide +kernel, by decide, by decide +kernel⟩
  let colon : Spelling := ⟨.colon, lit ":", rfl⟩
  let ascii : Spelling := ⟨.ascii, lit ".ASCII", rfl⟩
  let string : Spelling := ⟨.string, lit "\"\\\"#\"", by decide +kernel, by decide +kernel⟩
  let comma : Spelling := ⟨.comma, lit ",", rfl⟩
  let nop : Spelling := ⟨.mnemonic, lit "Nop", by decide, by decide +kernel⟩
  have hgap : IsGap (lit " ;x\r\n") :=
    .space (.inl rfl) (@IsGap.comment _ (lit "x\r") _ rfl (by decide) .nil)
  have hne : lit " ;x\r\n" ≠ [] := by decide
  let l : Layout :=
    { pieces := [([], name), ([], colon), ([], ascii), (lit " ;x\r\n", string), ([], comma), ([], nop)]
      gaps := by simp [hgap, IsGap.nil]
      apart := by simp [colon, comma, Kind.isMark, hne]
      final := lit "#"
      ends := ⟨[], lit "#", rfl, .nil, .inr ⟨_, [], rfl, rfl, by simp⟩⟩ }
  obtain ⟨ts, hts, hcontent, -⟩ := tokens_print l (lit "f")
  exact ⟨l, rfl, rfl, ts, hts, hcontent⟩

end Scan
end AccAsm
