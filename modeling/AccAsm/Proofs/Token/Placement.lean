import AccAsm.Proofs.Token.Spelling
import AccAsm.Proofs.Traversal

/-! # Where tokens stand

`Scan.Laid file line start j rest ts`: from the byte `j` of a line on, `rest` falls into white space,
comments and the tokens `ts`, every token with the position of its own bytes. Scanning a source lays out
its tokens in this way (`laid_tokens`), and whatever else holds of the places of tokens is read off the
layout by induction: each token stands where its position says (`Laid.stands`), the ranges of tokens
follow one another, and no byte outside of them is lost (`Laid.accounts`). -/

namespace AccAsm
open Text (lit newline)

/-- The value of a token of this kind that is spelled so: directives and mnemonics are known in any
letter case. -/
def Kind.fold (k : Kind) (word : Text) : Text :=
  if k.isDirective ∨ k = .mnemonic then word.map Text.lowerByte else word

namespace Token

/-- The token is spelled `word`, and has the position of what comes after `before` in its file. -/
structure Stands (file before word : Text) (t : Token) : Prop where
  file : t.position.file = file
  offset : t.position.offset = before.length
  size : t.position.size = word.length
  ne_nil : word ≠ []
  oneLine : newline ∉ word
  value : t.value = t.kind.fold word
  spelled : t.Spelled
  line : t.position.line = 1 + before.count newline
  /-- The line starts behind the last newline, or with the file if there is none. -/
  lineStart : ∃ lines front, before = lines ++ front ∧ newline ∉ front ∧
    (lines = [] ∨ lines.getLast? = some newline) ∧ t.position.lineOffset = lines.length
  column : t.position.column = t.position.offset - t.position.lineOffset + 1

/-- The byte `i` of the file belongs to the token. -/
def Covers (t : Token) (i : Nat) : Prop :=
  t.position.offset ≤ i ∧ (i : Int) < t.position.offset + t.position.size

/-- The token ends before the other one starts. -/
def Precedes (t u : Token) : Prop := t.position.offset + t.position.size ≤ u.position.offset

end Token

namespace Scan

/-- The byte `i` of the source belongs to the comment that starts at the byte `j`: the two are on one
line, and the mark at `j` is part of no token and has none behind it on that line. -/
structure Comment (source : Text) (ts : List Token) (j i : Nat) : Prop where
  le : j ≤ i
  mark : ∃ b, source[j]? = some b ∧ startsComment b
  oneLine : ∀ m, j ≤ m → m ≤ i → source[m]? ≠ some newline
  apart : ∀ t ∈ ts, ¬ t.Covers j
  last : ∀ t ∈ ts, (j : Int) ≤ t.position.offset →
    ∃ m, j ≤ m ∧ (m : Int) < t.position.offset ∧ source[m]? = some newline

/-- The byte `i` of the source is white space, a newline included. -/
def IsSpace (source : Text) (i : Nat) : Prop :=
  ∃ b, source[i]? = some b ∧ (isBlank b ∨ b = newline)

/-- The tokens `body`, with the end `last` behind them, account for every byte of the source. -/
structure Accounts (file source : Text) (body : List Token) (last : Token) : Prop where
  ends : last.kind = .endOfFile ∧ last.position.offset = source.length
  inner : ∀ t ∈ body, t.kind ≠ .endOfFile
  stands : ∀ t ∈ body, ∃ before word after, source = before ++ word ++ after ∧ t.Stands file before word
  ordered : body.Pairwise Token.Precedes
  complete : ∀ i < source.length,
    (∃ t ∈ body, t.Covers i) ∨ IsSpace source i ∨ ∃ j, Comment source body j i

/-! ### Layouts -/

/-- The position of `size` bytes from the byte `j` of a line on. -/
def place (file : Text) (line start j size : Nat) : Position :=
  { file, line, column := j + 1, offset := start + j, size, lineOffset := start }

/-- From the byte `j` of the line on, `rest` holds the tokens `ts`, and white space and comments
between them. -/
inductive Laid (file : Text) : Nat → Nat → Nat → Text → List Token → Prop
  | nil {line start j : Nat} : Laid file line start j [] []
  | newline {line start j : Nat} {rest : Text} {ts : List Token}
      (h : Laid file (line + 1) (start + j + 1) 0 rest ts) :
      Laid file line start j (newline :: rest) ts
  | blank {line start j : Nat} {b : UInt8} {rest : Text} {ts : List Token} (hb : isBlank b)
      (h : Laid file line start (j + 1) rest ts) : Laid file line start j (b :: rest) ts
  | comment {line start j : Nat} {b : UInt8} {text rest : Text} {ts : List Token}
      (hb : startsComment b) (ht : Text.newline ∉ text)
      (hr : rest = [] ∨ ∃ next, rest = Text.newline :: next)
      (h : Laid file line start (j + (text.length + 1)) rest ts) :
      Laid file line start j (b :: (text ++ rest)) ts
  | token {line start j : Nat} {kind : Kind} {word rest : Text} {ts : List Token} (hw : word ≠ [])
      (hn : Text.newline ∉ word) (hs : kind.Spells (kind.fold word))
      (h : Laid file line start (j + word.length) rest ts) :
      Laid file line start j (word ++ rest)
        (⟨kind, place file line start j word.length, kind.fold word⟩ :: ts)

theorem startsComment_ne {b : UInt8} (hb : startsComment b) : b ≠ newline := by
  rintro rfl
  revert hb
  decide

theorem Laid.eq_nil {file : Text} {line start j : Nat} {ts : List Token}
    (h : Laid file line start j [] ts) : ts = [] := by
  generalize hs : ([] : Text) = rest at h
  cases h with
  | nil => rfl
  | token hw => exact absurd (List.append_eq_nil_iff.mp hs.symm).1 hw
  | newline | blank | comment => cases hs

theorem Laid.of_newline {file : Text} {line start j : Nat} {rest : Text} {ts : List Token}
    (h : Laid file line start j (Text.newline :: rest) ts) :
    Laid file (line + 1) (start + j + 1) 0 rest ts := by
  generalize hs : Text.newline :: rest = text at h
  cases h with
  | nil => cases hs
  | newline h => cases hs; exact h
  | blank hb h =>
    cases hs
    exact absurd hb (by decide)
  | comment hb =>
    obtain ⟨rfl, -⟩ := List.cons.inj hs
    exact absurd rfl (startsComment_ne hb)
  | @token line start j kind word rest' ts hw hn hs' h =>
    obtain ⟨b, word, rfl⟩ := List.exists_cons_of_ne_nil hw
    obtain ⟨rfl, -⟩ := List.cons.inj hs
    exact absurd (List.mem_cons_self ..) hn

/-! ### Scanning -/

theorem fold_word {b : UInt8} {t : Text} {w : Word} (h : word b t = .ok w) :
    w.value = w.kind.fold w.spelling := by
  have hregister {sigil : UInt8} {kind : Kind} (hk : ¬ (kind.isDirective ∨ kind = .mnemonic))
      (h : register sigil kind t = .ok w) : w.value = w.kind.fold w.spelling := by
    simp only [register] at h
    split at h <;> cases h
    exact (if_neg hk).symm
  unfold word at h
  split at h
  next =>
    simp only [directive] at h
    split at h
    next kind hk =>
      cases h
      have hm := List.mem_of_find?_eq_some hk
      have hd : kind.isDirective := by
        simp only [List.mem_cons, List.not_mem_nil, or_false] at hm
        rcases hm with rfl | rfl | rfl | rfl | rfl | rfl | rfl <;> rfl
      exact (if_pos (.inl hd)).symm
    next => cases h
  split at h
  next => exact hregister (by decide) h
  split at h
  next => exact hregister (by decide) h
  split at h
  next =>
    simp only [label] at h
    split at h <;> cases h
    rfl
  split at h
  next => cases h; rfl
  split at h
  next =>
    simp only [number] at h
    split at h <;> cases h
    rfl
  split at h
  next =>
    simp only [string] at h
    split at h
    next => cases h
    next => split at h <;> cases h; rfl
  cases h

theorem fold_mark {b : UInt8} {k : Kind} (h : mark? b = some k) (t : Text) : k.fold t = t := by
  unfold mark? at h
  repeat' split at h
  all_goals cases h
  all_goals rfl

/-- Scanning the rest of a line lays out its tokens before those of the lines that follow. -/
theorem laid_scanFrom (l : Line) {done out : List Token} {i : Nat} {t rest : Text} {us : List Token}
    (hn : newline ∉ t) (h : l.scanFrom done i t = .ok out)
    (hr : rest = [] ∨ ∃ next, rest = newline :: next)
    (hrest : Laid l.file l.number l.start (i + t.length) rest us) :
    ∃ ts, out = ts.reverse ++ done ∧ Laid l.file l.number l.start i (t ++ rest) (ts ++ us) := by
  fun_induction Line.scanFrom l done i t with
  | case1 done i =>
    cases h
    exact ⟨[], rfl, hrest⟩
  | case2 done i b t hb ih =>
    rw [List.mem_cons, not_or] at hn
    rw [List.length_cons, ← Nat.add_assoc, Nat.add_right_comm] at hrest
    obtain ⟨ts, rfl, hts⟩ := ih hn.2 h hrest
    exact ⟨ts, rfl, .blank hb hts⟩
  | case3 done i b t hb hc =>
    cases h
    rw [List.mem_cons, not_or] at hn
    exact ⟨[], rfl, .comment hc hn.2 hr hrest⟩
  | case4 done i b t hb hc kind hk ih =>
    rw [List.mem_cons, not_or] at hn
    rw [List.length_cons, ← Nat.add_assoc, Nat.add_right_comm] at hrest
    obtain ⟨ts, rfl, hts⟩ := ih hn.2 h hrest
    have hfold := fold_mark hk [b]
    have hspell : kind.Spells (kind.fold [b]) := by rw [hfold]; exact spells_mark hk
    refine ⟨⟨kind, l.position i 1, [b]⟩ :: ts, by simp, ?_⟩
    have htoken : Laid l.file l.number l.start i ([b] ++ (t ++ rest))
        (⟨kind, place l.file l.number l.start i 1, kind.fold [b]⟩ :: (ts ++ us)) :=
      .token (List.cons_ne_nil _ _) (by simpa using hn.1) hspell hts
    rwa [hfold] at htoken
  | case5 => cases h
  | case6 done i b t hb hc hk w hw size tail hd ih =>
    obtain ⟨r, hspell, hpre⟩ := spelling_word hw
    have hsize : size = r.length + 1 := by simp only [size, hspell, List.length_cons]
    have htail : t = r ++ tail := by
      obtain ⟨tail', rfl⟩ := hpre
      simp only [tail, hsize, Nat.add_sub_cancel, List.drop_left]
    have hn' : newline ∉ b :: r ∧ newline ∉ tail := by
      rw [htail, ← List.cons_append, List.mem_append, not_or] at hn
      exact hn
    have hlen : i + (b :: t).length = i + size + tail.length := by
      rw [htail, hsize, List.length_cons, List.length_append]
      omega
    rw [hlen] at hrest
    obtain ⟨ts, rfl, hts⟩ := ih hn'.2 h hrest
    refine ⟨⟨w.kind, l.position i size, w.value⟩ :: ts, by simp, ?_⟩
    have hval := fold_word hw
    have hs : w.kind.Spells (w.kind.fold w.spelling) := hval ▸ spells_word hw
    have htoken : Laid l.file l.number l.start i (w.spelling ++ (tail ++ rest))
        (⟨w.kind, place l.file l.number l.start i size, w.kind.fold w.spelling⟩ :: (ts ++ us)) :=
      .token (by rw [hspell]; exact List.cons_ne_nil _ _) (hspell ▸ hn'.1) hs hts
    rw [← hval] at htoken
    rw [htail, List.cons_append, List.append_assoc, ← List.cons_append, ← hspell]
    exact htoken
  | case7 => cases h

/-! ### Lines -/

/-- Lines of a text, which have newlines between them. -/
inductive Split : List Text → Text → Prop
  | last {t : Text} (ht : newline ∉ t) : Split [t] t
  | cons {t source : Text} {ts : List Text} (ht : newline ∉ t) (h : Split ts source) :
      Split (t :: ts) (t ++ newline :: source)

/-- Lines of a text, of which the last one may have a newline behind it. -/
inductive Lined : List Text → Text → Prop
  | last {t : Text} (ht : newline ∉ t) : Lined [t] t
  | ended {t : Text} (ht : newline ∉ t) : Lined [t] (t ++ [newline])
  | cons {t source : Text} {ts : List Text} (ht : newline ∉ t) (h : Lined ts source) :
      Lined (t :: ts) (t ++ newline :: source)

theorem split_splitOn (source : Text) : Split (Text.splitOn newline source) source := by
  induction source with
  | nil => exact .last (by simp)
  | cons b source ih =>
    rw [Text.splitOn] at ih ⊢
    rw [List.foldr_cons]
    generalize source.foldr _ _ = parts at ih ⊢
    split
    next hb =>
      rw [eq_of_beq hb]
      exact .cons (t := []) (by simp) ih
    next hb =>
      have hne : newline ≠ b := fun he => hb (by rw [he]; exact beq_self_eq_true _)
      -- the byte goes in front of the first line of the rest
      cases ih with
      | last ht => exact .last (by simp [hne, ht])
      | @cons t _ ts ht h => exact .cons (t := b :: t) (by simp [hne, ht]) h

theorem Split.lined {texts : List Text} {source : Text} (h : Split texts source) : Lined texts source := by
  induction h with
  | last ht => exact .last ht
  | cons ht _ ih => exact .cons ht ih

/-- An empty last line is none, unless it is the only one. -/
theorem Split.lined_init {texts init : List Text} {source : Text} (h : Split texts source)
    (hi : texts = init ++ [[]]) (hne : init ≠ []) : Lined init source := by
  induction h generalizing init with
  | @last t ht =>
    cases init with
    | nil => exact absurd rfl hne
    | cons t init => simp at hi
  | @cons t source ts ht h ih =>
    obtain ⟨t', init, rfl⟩ := List.exists_cons_of_ne_nil hne
    obtain ⟨rfl, hts⟩ := List.cons.inj hi
    cases init with
    | nil =>
      subst hts
      cases h with
      | last _ => exact .ended ht
      | cons _ h => cases h
    | cons t' init => exact .cons ht (ih hts (List.cons_ne_nil _ _))

theorem lined_lineTexts (source : Text) : Lined (lineTexts source) source := by
  have h := split_splitOn source
  unfold lineTexts
  split
  next last rest hrev =>
    have hparts := congrArg List.reverse hrev
    rw [List.reverse_reverse, List.reverse_cons] at hparts
    exact h.lined_init hparts (by simp)
  next =>
    rw [List.reverse_reverse]
    exact h.lined

theorem laid_lines {file source : Text} {texts : List Text} (ht : Lined texts source) {line start : Nat}
    {done out : List Token}
    (h : (numbered file line start texts).foldlM (fun done l => l.scanFrom done 0 l.text) done = .ok out) :
    ∃ ts, out = ts.reverse ++ done ∧ Laid file line start 0 source ts := by
  induction ht generalizing line start done with
  | @last t ht =>
    rw [numbered, List.foldlM_cons] at h
    obtain ⟨out', hl, he⟩ := except_bind_eq_ok.mp h
    cases he
    obtain ⟨ts, rfl, hts⟩ := laid_scanFrom ⟨file, line, start, t⟩ ht hl (.inl rfl) .nil
    simp only [List.append_nil] at hts
    exact ⟨ts, rfl, hts⟩
  | @ended t ht =>
    rw [numbered, List.foldlM_cons] at h
    obtain ⟨out', hl, he⟩ := except_bind_eq_ok.mp h
    cases he
    obtain ⟨ts, rfl, hts⟩ := laid_scanFrom ⟨file, line, start, t⟩ ht hl (.inr ⟨[], rfl⟩) (.newline .nil)
    simp only [List.append_nil] at hts
    exact ⟨ts, rfl, hts⟩
  | @cons t source texts ht _ ih =>
    rw [numbered, List.foldlM_cons] at h
    obtain ⟨done', hl, hrest⟩ := except_bind_eq_ok.mp h
    obtain ⟨us, rfl, hus⟩ := ih hrest
    have hnext : Laid file line start (0 + t.length) (newline :: source) us :=
      .newline (by rwa [Nat.zero_add])
    obtain ⟨ts, rfl, hts⟩ := laid_scanFrom ⟨file, line, start, t⟩ ht hl (.inr ⟨_, rfl⟩) hnext
    exact ⟨ts ++ us, by simp, hts⟩

/-- Scanning lays out the tokens of a source, and puts an end-of-file token behind them. -/
theorem laid_tokens {file source : Text} {ts : List Token} (h : tokens file source = .ok ts) :
    ∃ (body : List Token) (last : Token), ts = body ++ [last] ∧ last.kind = .endOfFile ∧
      last.position.offset = source.length ∧ Laid file 1 0 0 source body := by
  obtain ⟨out, hout, he⟩ := except_bind_eq_ok.mp h
  cases he
  obtain ⟨body, rfl, hbody⟩ := laid_lines (lined_lineTexts source) hout
  refine ⟨body, endToken source ((lines file source).getLastD ⟨file, 1, 0, []⟩), ?_, rfl, rfl, hbody⟩
  rw [List.append_nil, List.reverse_cons, List.reverse_reverse]

/-! ### Places -/

/-- The lines before a line, and its own bytes up to the byte `j`. -/
structure Reached (line start j : Nat) (lines front : Text) : Prop where
  start : lines.length = start
  column : front.length = j
  ended : lines = [] ∨ lines.getLast? = some newline
  oneLine : newline ∉ front
  line : line = 1 + (lines ++ front).count newline

namespace Reached
variable {line start j : Nat} {lines front word : Text}

theorem append (h : Reached line start j lines front) (hw : newline ∉ word) :
    Reached line start (j + word.length) lines (front ++ word) where
  start := h.start
  column := by rw [List.length_append, h.column]
  ended := h.ended
  oneLine := by rw [List.mem_append, not_or]; exact ⟨h.oneLine, hw⟩
  line := by rw [← List.append_assoc, List.count_append, List.count_eq_zero_of_not_mem hw]; exact h.line

theorem newline (h : Reached line start j lines front) :
    Reached (line + 1) (start + j + 1) 0 (lines ++ front ++ [newline]) [] where
  start := by simp [h.start, h.column, Nat.add_assoc]
  column := rfl
  ended := .inr (by simp)
  oneLine := by simp
  line := by rw [List.append_nil, List.count_append, h.line]; simp; omega

theorem stands (h : Reached line start j lines front) (hw : word ≠ []) (hn : Text.newline ∉ word)
    {kind : Kind} (hs : kind.Spells (kind.fold word)) (file : Text) :
    Token.Stands file (lines ++ front) word
      ⟨kind, place file line start j word.length, kind.fold word⟩ where
  file := rfl
  offset := by rw [List.length_append, h.start, h.column]; rfl
  size := rfl
  ne_nil := hw
  oneLine := hn
  value := rfl
  spelled := hs
  line := by have := h.line; simp only [place]; omega
  lineStart := ⟨lines, front, rfl, h.oneLine, h.ended, by rw [h.start]; rfl⟩
  column := by simp only [place]; omega

end Reached

theorem Laid.stands {file rest : Text} {line start j : Nat} {ts : List Token}
    (h : Laid file line start j rest ts) {lines front : Text} (hr : Reached line start j lines front) :
    ∀ t ∈ ts, ∃ before word after, lines ++ front ++ rest = before ++ word ++ after ∧
      t.Stands file before word := by
  induction h generalizing lines front with
  | nil => simp
  | newline _ ih => simpa using ih hr.newline
  | @blank _ _ _ b _ _ hb _ ih =>
    have hb : Text.newline ∉ [b] := by
      rw [List.mem_singleton]
      rintro rfl
      exact absurd hb (by decide)
    simpa using ih (hr.append hb)
  | @comment _ _ _ b text _ _ hb ht _ _ ih =>
    have hb : Text.newline ∉ b :: text := by
      rw [List.mem_cons, not_or]
      exact ⟨(startsComment_ne hb).symm, ht⟩
    simpa using ih (hr.append hb)
  | @token _ _ _ kind word rest ts hw hn hs _ ih =>
    intro t ht
    rcases List.mem_cons.mp ht with rfl | ht
    · exact ⟨lines ++ front, word, rest, by simp, hr.stands hw hn hs file⟩
    · simpa using ih (hr.append hn) t ht

/-! ### Ranges -/

theorem Laid.le_offset {file rest : Text} {line start j : Nat} {ts : List Token}
    (h : Laid file line start j rest ts) : ∀ t ∈ ts, ((start + j : Nat) : Int) ≤ t.position.offset := by
  induction h with
  | nil => simp
  | newline _ ih => intro t ht; have := ih t ht; omega
  | blank _ _ ih => intro t ht; have := ih t ht; omega
  | comment _ _ _ _ ih => intro t ht; have := ih t ht; omega
  | token _ _ _ _ ih =>
    intro t ht
    rcases List.mem_cons.mp ht with rfl | ht
    · simp [place]
    · have := ih t ht
      omega

theorem Laid.pairwise {file rest : Text} {line start j : Nat} {ts : List Token}
    (h : Laid file line start j rest ts) : ts.Pairwise Token.Precedes := by
  induction h with
  | nil => exact .nil
  | newline _ ih | blank _ _ ih | comment _ _ _ _ ih => exact ih
  | token _ _ _ h ih =>
    refine .cons (fun u hu => ?_) ih
    have := h.le_offset u hu
    simp only [Token.Precedes, place]
    omega

theorem Comment.cons {source : Text} {ts : List Token} {t : Token} {j i : Nat} (h : Comment source ts j i)
    (ht : t.position.offset + t.position.size ≤ j) (hs : 0 < t.position.size) :
    Comment source (t :: ts) j i where
  le := h.le
  mark := h.mark
  oneLine := h.oneLine
  apart := by
    intro u hu
    rcases List.mem_cons.mp hu with rfl | hu
    · rintro ⟨-, hlt⟩
      omega
    · exact h.apart u hu
  last := by
    intro u hu hj
    rcases List.mem_cons.mp hu with rfl | hu
    · omega
    · exact h.last u hu hj

/-- A comment takes the rest of its line, and tokens come again after the newline. -/
theorem Laid.comment_at {file before text rest : Text} {b : UInt8} {line start j i : Nat}
    {ts : List Token} (h : Laid file line start (j + (text.length + 1)) rest ts)
    (hb : startsComment b) (ht : Text.newline ∉ text)
    (hr : rest = [] ∨ ∃ next, rest = Text.newline :: next) (hlen : before.length = start + j)
    (hi : start + j ≤ i) (hlt : i < start + j + (text.length + 1)) :
    Comment (before ++ b :: (text ++ rest)) ts (start + j) i where
  le := hi
  mark := ⟨b, by simp [← hlen], hb⟩
  oneLine := by
    intro m hm hmi hnew
    have hmem : Text.newline ∈ b :: text := by
      rw [List.getElem?_append_right (by omega), ← List.cons_append,
        List.getElem?_append_left (by simp; omega)] at hnew
      exact List.mem_of_getElem? hnew
    rcases List.mem_cons.mp hmem with he | hmem
    · exact startsComment_ne hb he.symm
    · exact ht hmem
  apart := by
    rintro t ht ⟨hle, -⟩
    have := h.le_offset t ht
    omega
  last := by
    intro t htm _
    rcases hr with rfl | ⟨next, rfl⟩
    · rw [h.eq_nil] at htm
      cases htm
    · have := h.of_newline.le_offset t htm
      refine ⟨start + j + (text.length + 1), by omega, by omega, ?_⟩
      rw [List.getElem?_append_right (by omega), ← List.cons_append,
        List.getElem?_append_right (by simp; omega)]
      have hindex : start + j + (text.length + 1) - before.length - (b :: text).length = 0 := by
        rw [List.length_cons]
        omega
      rw [hindex]
      rfl

theorem Laid.accounts {file rest : Text} {line start j : Nat} {ts : List Token}
    (h : Laid file line start j rest ts) (before : Text) (hlen : before.length = start + j) {i : Nat}
    (hi : start + j ≤ i) (hlt : i < (before ++ rest).length) :
    (∃ t ∈ ts, t.Covers i) ∨ IsSpace (before ++ rest) i ∨
      ∃ k, start + j ≤ k ∧ Comment (before ++ rest) ts k i := by
  induction h generalizing before with
  | nil =>
    rw [List.append_nil] at hlt
    omega
  | @newline line start j rest ts _ ih =>
    rcases Nat.eq_or_lt_of_le hi with rfl | hi'
    · exact .inr (.inl ⟨Text.newline, by simp [← hlen], .inr rfl⟩)
    · have hcat : before ++ Text.newline :: rest = before ++ [Text.newline] ++ rest := by simp
      rw [hcat] at hlt ⊢
      refine (ih _ (by simp [hlen]) hi' hlt).imp_right (Or.imp_right ?_)
      rintro ⟨k, hk, hc⟩
      exact ⟨k, by omega, hc⟩
  | @blank line start j b rest ts hb _ ih =>
    rcases Nat.eq_or_lt_of_le hi with rfl | hi'
    · exact .inr (.inl ⟨b, by simp [← hlen], .inl hb⟩)
    · have hcat : before ++ b :: rest = before ++ [b] ++ rest := by simp
      rw [hcat] at hlt ⊢
      refine (ih _ (by simp [hlen, Nat.add_assoc]) hi' hlt).imp_right (Or.imp_right ?_)
      rintro ⟨k, hk, hc⟩
      exact ⟨k, by omega, hc⟩
  | @comment line start j b text rest ts hb ht hr h ih =>
    rcases Nat.lt_or_ge i (start + j + (text.length + 1)) with hi' | hi'
    · exact .inr (.inr ⟨start + j, Nat.le_refl _, h.comment_at hb ht hr hlen hi hi'⟩)
    · have hcat : before ++ b :: (text ++ rest) = before ++ b :: text ++ rest := by simp
      rw [hcat] at hlt ⊢
      refine (ih _ (by simp [hlen, Nat.add_assoc]) (by omega) hlt).imp_right (Or.imp_right ?_)
      rintro ⟨k, hk, hc⟩
      exact ⟨k, by omega, hc⟩
  | @token line start j kind word rest ts hw _ _ _ ih =>
    have hpos := List.length_pos_of_ne_nil hw
    rcases Nat.lt_or_ge i (start + j + word.length) with hi' | hi'
    · refine .inl ⟨_, .head _, ?_⟩
      simp only [Token.Covers, place]
      omega
    · rw [← List.append_assoc] at hlt ⊢
      rcases ih _ (by simp [hlen, Nat.add_assoc]) (by omega) hlt with ⟨t, ht, hc⟩ | hs | ⟨k, hk, hc⟩
      · exact .inl ⟨t, .tail _ ht, hc⟩
      · exact .inr (.inl hs)
      · refine .inr (.inr ⟨k, by omega, hc.cons ?_ ?_⟩)
        · simp only [place]
          omega
        · simp only [place]
          omega

/-- Scanning loses nothing of a source: the tokens stand one after the other where their positions say,
spelled as they are known, and what lies between them is white space and comments. -/
theorem tokens_accounts {file source : Text} {ts : List Token} (h : tokens file source = .ok ts) :
    ∃ body last, ts = body ++ [last] ∧ Accounts file source body last := by
  obtain ⟨body, last, rfl, hkind, hoffset, hlaid⟩ := laid_tokens h
  have hstart : Reached 1 0 0 [] [] := ⟨rfl, rfl, .inl rfl, by simp, rfl⟩
  have hstands := hlaid.stands hstart
  refine ⟨body, last, rfl, ⟨hkind, hoffset⟩, ?_, hstands, hlaid.pairwise, fun i hi => ?_⟩
  · intro t ht hk
    obtain ⟨before, word, after, -, ht⟩ := hstands t ht
    have hs := ht.spelled
    rw [Token.Spelled, hk] at hs
    exact hs
  · refine (hlaid.accounts [] rfl (Nat.zero_le i) hi).imp_right (Or.imp_right ?_)
    rintro ⟨k, -, hc⟩
    exact ⟨k, hc⟩

/-- Letter case, a comment behind two tokens, and comment marks inside a string. -/
theorem tokens_accounts_marks :
    let source := lit "ADD &0 ; $1\n.Ascii \"#;\""
    ∃ body last, tokens (lit "f") source = .ok (body ++ [last]) ∧
      body.map (fun t => (t.kind, t.value)) =
        [(.mnemonic, lit "add"), (.accumulator, lit "&0"), (.ascii, lit ".ascii"),
          (.string, lit "\"#;\"")] ∧
      Accounts (lit "f") source body last := by
  intro source
  have h : ((tokens (lit "f") source).toOption.map fun ts => ts.dropLast.map fun t => (t.kind, t.value)) =
      some [(.mnemonic, lit "add"), (.accumulator, lit "&0"), (.ascii, lit ".ascii"),
        (.string, lit "\"#;\"")] := by decide +kernel
  obtain ⟨ts, hts, hvalues⟩ := Option.map_eq_some_iff.mp h
  have hscan := except_toOption_eq_some.mp hts
  obtain ⟨body, last, rfl, hacc⟩ := tokens_accounts hscan
  rw [List.dropLast_concat] at hvalues
  exact ⟨body, last, hscan, hvalues, hacc⟩

end Scan
end AccAsm
