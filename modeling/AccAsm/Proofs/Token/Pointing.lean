import AccAsm.Command.Report
import AccAsm.Proofs.Token.Placement

/-! # Positions that point into a text

`Position.Points content p`: the line and the column of `p` are those of its offset in the text, and a
report that quotes the line puts its caret below the column, at most one place behind what it quotes.

The tokens of a source point into it, and so does the error if it cannot be scanned (`points_of_tokens`,
`points_of_scanError`): a word starts and ends beside a byte that is no carriage return, which a report
never cuts off. The end-of-file token has the offset of the end and the column behind the last line
(`Position.Ends`). It points into the source exactly if the source ends with neither a newline nor a
carriage return (`Position.Ends.points_iff`). -/

namespace AccAsm
open Text (newline carriageReturn dropTrailing byte)

/-- `line` is the line with this number, and starts at the offset `start`. -/
def Text.IsLine (content line : Text) (number start : Int) : Prop :=
  ∃ before after, content = before ++ (line ++ after) ∧ newline ∉ line ∧
    (before = [] ∨ before.getLast? = some newline) ∧ (after = [] ∨ ∃ next, after = newline :: next) ∧
    number = 1 + before.count newline ∧ start = before.length

/-- The position points to a place on `line`, which is a line of the text. -/
structure Position.PointsTo (content line : Text) (p : Position) : Prop where
  isLine : content.IsLine line p.line p.lineOffset
  column : p.column = p.offset - p.lineOffset + 1
  start_le : p.lineOffset ≤ p.offset
  le_end : p.offset ≤ p.lineOffset + line.length
  quoted : Report.sourceLine? content p.lineOffset = some (dropTrailing carriageReturn line)
  /-- The caret of a report stands below the column. -/
  agrees : ((Report.underline p).idxOf (byte '^') : Int) + 1 = p.column
  /-- It is at most one place behind the quoted line. -/
  caret : (Report.underline p).idxOf (byte '^') ≤ (dropTrailing carriageReturn line).length

def Position.Points (content : Text) (p : Position) : Prop := ∃ line, p.PointsTo content line

/-- The position has the offset of the end of the text, and the column behind the last line, which one
newline may follow. -/
def Position.Ends (content : Text) (p : Position) : Prop :=
  ∃ line, content.IsLine line p.line p.lineOffset ∧ p.column = line.length + 1 ∧
    p.offset = content.length ∧
    (content.getLast? = some newline ∧ p.offset = p.lineOffset + line.length + 1 ∨
      content.getLast? = line.getLast? ∧ p.offset = p.lineOffset + line.length)

/-! ### Lines -/

namespace Text
variable {b c : UInt8} {t content line : Text} {number start : Int}

theorem lt_length_dropTrailing (hc : c ≠ b) (front rest : Text) :
    front.length < (dropTrailing b (front ++ c :: rest)).length := by
  have hkeep : (c :: front.reverse).dropWhile (· == b) = c :: front.reverse :=
    List.dropWhile_cons_of_neg (by simpa using hc)
  rw [dropTrailing, List.length_reverse, List.reverse_append, List.reverse_cons, List.append_assoc,
    List.singleton_append, List.dropWhile_append, hkeep]
  split
  · simp
  · simp
    omega

theorem length_dropTrailing_le (b : UInt8) (t : Text) : (dropTrailing b t).length ≤ t.length := by
  rw [dropTrailing, List.length_reverse]
  exact (List.dropWhile_sublist _).length_le.trans_eq List.length_reverse

theorem length_le_dropTrailing :
    t.length ≤ (dropTrailing b t).length ↔ ∀ c ∈ t.getLast?, c ≠ b := by
  rcases List.eq_nil_or_concat t with rfl | ⟨front, c, rfl⟩
  · simp
  · rw [List.concat_eq_append]
    by_cases hc : c = b
    · have hdrop : dropTrailing b (front ++ [c]) = dropTrailing b front := by
        simp [dropTrailing, hc]
      have := length_dropTrailing_le b front
      rw [hdrop]
      simp [hc]
      omega
    · have := lt_length_dropTrailing hc front []
      simp [hc]
      omega

theorem IsLine.newline_notMem (h : content.IsLine line number start) : newline ∉ line := by
  obtain ⟨_, _, -, hline, -⟩ := h
  exact hline

theorem IsLine.eq_takeWhile (h : content.IsLine line number start) :
    line = (content.drop start.toNat).takeWhile (· != newline) := by
  obtain ⟨before, after, rfl, hline, -, hafter, -, rfl⟩ := h
  have hkeep : ∀ b ∈ line, (b != newline) = true := by
    intro b hb
    rw [bne_iff_ne]
    rintro rfl
    exact hline hb
  rw [Int.toNat_natCast, List.drop_left, List.takeWhile_append_of_pos hkeep]
  rcases hafter with rfl | ⟨next, rfl⟩
  · simp
  · rw [List.takeWhile_cons_of_neg (by simp), List.append_nil]

theorem IsLine.sourceLine? (h : content.IsLine line number start) :
    Report.sourceLine? content start = some (dropTrailing carriageReturn line) := by
  have heq := h.eq_takeWhile
  obtain ⟨before, after, rfl, -, -, -, -, rfl⟩ := h
  unfold Report.sourceLine?
  rw [if_neg, ← heq]
  rw [List.length_append]
  omega

end Text

namespace Position
variable {content line : Text} {p : Position}

theorem idxOf_underline (p : Position) :
    (Report.underline p).idxOf (byte '^') = (p.offset - p.lineOffset).toNat := by
  unfold Report.underline
  rw [List.idxOf_append_of_notMem, List.idxOf_cons_self, List.length_replicate, Nat.add_zero]
  rw [List.mem_replicate]
  rintro ⟨-, h⟩
  exact absurd h (by decide)

/-- On a line, only the column and the end matter. -/
theorem points_iff (h : content.IsLine line p.line p.lineOffset) :
    p.Points content ↔ p.column = p.offset - p.lineOffset + 1 ∧ p.lineOffset ≤ p.offset ∧
      p.offset ≤ p.lineOffset + (dropTrailing carriageReturn line).length := by
  have hidx := idxOf_underline p
  constructor
  · rintro ⟨line', hp⟩
    obtain rfl : line = line' := h.eq_takeWhile.trans hp.isLine.eq_takeWhile.symm
    have := hp.caret
    have := hp.start_le
    exact ⟨hp.column, hp.start_le, by omega⟩
  · rintro ⟨hcolumn, hstart, hcaret⟩
    have := Text.length_dropTrailing_le carriageReturn line
    exact ⟨line, h, hcolumn, hstart, by omega, h.sourceLine?, by omega, by omega⟩

theorem Ends.points_iff (h : p.Ends content) :
    p.Points content ↔ ∀ b ∈ content.getLast?, b ≠ newline ∧ b ≠ carriageReturn := by
  obtain ⟨line, hline, hcolumn, -, hend⟩ := h
  rw [Position.points_iff hline, hcolumn]
  rcases hend with ⟨hlast, hoffset⟩ | ⟨hlast, hoffset⟩
  · constructor
    · rintro ⟨hagree, -⟩
      omega
    · intro h
      exact absurd rfl (h newline hlast).1
  · have htrim : line.length ≤ (dropTrailing carriageReturn line).length ↔
        ∀ b ∈ line.getLast?, b ≠ newline ∧ b ≠ carriageReturn := by
      rw [Text.length_le_dropTrailing]
      refine forall₂_congr fun b hb => ?_
      have hne : b ≠ newline := by
        rintro rfl
        exact hline.newline_notMem (List.mem_of_getLast? hb)
      simp [hne]
    rw [hlast, ← htrim]
    omega

end Position

namespace Scan

theorem Lined.isLine {texts : List Text} {source : Text} (h : Lined texts source) (file : Text)
    {before : Text} (hb : before = [] ∨ before.getLast? = some newline) {number start : Nat}
    (hn : number = 1 + before.count newline) (hs : start = before.length) :
    ∀ l ∈ numbered file number start texts, (before ++ source).IsLine l.text l.number l.start := by
  induction h generalizing before number start with
  | @last t ht =>
    intro l hl
    obtain rfl := List.mem_singleton.mp hl
    exact ⟨before, [], by simp, ht, hb, .inl rfl, by simp [hn], by simp [hs]⟩
  | @ended t ht =>
    intro l hl
    obtain rfl := List.mem_singleton.mp hl
    exact ⟨before, [newline], by simp, ht, hb, .inr ⟨[], rfl⟩, by simp [hn], by simp [hs]⟩
  | @cons t source texts ht h ih =>
    intro l hl
    rcases List.mem_cons.mp hl with rfl | hl
    · exact ⟨before, newline :: source, by simp, ht, hb, .inr ⟨source, rfl⟩, by simp [hn], by simp [hs]⟩
    · have hcat : before ++ (t ++ newline :: source) = before ++ t ++ [newline] ++ source := by simp
      rw [hcat]
      refine ih (.inr (by simp)) ?_ ?_ l hl
      · simp [hn, List.count_eq_zero_of_not_mem ht]
        omega
      · simp [hs]
        omega

/-! ### Scanning -/

/-- The position is on the line, and not behind what a report quotes of it. -/
def Line.Marks (l : Line) (p : Position) : Prop :=
  ∃ i size, p = l.position i size ∧ i ≤ (dropTrailing carriageReturn l.text).length

theorem Line.marks_of_append {l : Line} {front rest : Text} {b : UInt8} (ht : l.text = front ++ b :: rest)
    (hb : b ≠ carriageReturn) {i : Nat} (hi : i ≤ front.length + 1) (size : Nat) :
    l.Marks (l.position i size) := by
  have := Text.lt_length_dropTrailing hb front rest
  rw [← ht] at this
  exact ⟨i, size, rfl, by omega⟩

theorem Line.position_unexpected (l : Line) (i : Nat) :
    ∃ size, (l.unexpected i).position = l.position i size := by
  unfold Line.unexpected
  split <;> exact ⟨_, rfl⟩

theorem le_of_word {b : UInt8} {t : Text} {i : Nat} (h : word b t = .error (.unexpected i)) : i ≤ 1 := by
  unfold word directive register label number string at h
  simp only at h
  repeat' split at h
  all_goals cases h
  all_goals omega

theorem append_of_word {b : UInt8} {t : Text} {w : Word} (h : word b t = .ok w) :
    w.spelling ++ t.drop (w.spelling.length - 1) = b :: t := by
  obtain ⟨r, hspell, tail, rfl⟩ := spelling_word h
  simp [hspell]

theorem isBlank_carriageReturn {b : UInt8} (hb : ¬ isBlank b) : b ≠ carriageReturn := by
  rintro rfl
  exact hb rfl

/-- What is scanned is placed on the line, apart from the tokens of lines before it. -/
structure Line.Places (l : Line) (done : List Token) (x : Except ScanError (List Token)) : Prop where
  ok : ∀ out, x = .ok out → ∀ u ∈ out, u ∈ done ∨ l.Marks u.position
  error : ∀ e, x = .error e → l.Marks e.position

theorem Line.places_ok (l : Line) (done : List Token) : l.Places done (.ok done) := by
  refine ⟨?_, by rintro e ⟨⟩⟩
  rintro out ⟨⟩ u hu
  exact .inl hu

theorem Line.places_error {l : Line} {e : ScanError} (he : l.Marks e.position) (done : List Token) :
    l.Places done (.error e) := by
  refine ⟨by rintro out ⟨⟩, ?_⟩
  rintro e ⟨⟩
  exact he

theorem Line.Places.cons {l : Line} {u : Token} {done : List Token} {x : Except ScanError (List Token)}
    (h : l.Places (u :: done) x) (hu : l.Marks u.position) : l.Places done x := by
  refine ⟨fun out hout v hv => ?_, h.error⟩
  rcases h.ok out hout v hv with hv | hv
  · rcases List.mem_cons.mp hv with rfl | hv
    · exact .inr hu
    · exact .inl hv
  · exact .inr hv

theorem places_scanFrom (l : Line) {done : List Token} {i : Nat} {front t : Text}
    (ht : l.text = front ++ t) (hi : front.length = i) : l.Places done (l.scanFrom done i t) := by
  fun_induction Line.scanFrom l done i t generalizing front with
  | case1 done i => exact l.places_ok done
  | case2 done i b t hb ih =>
    have hfront : l.text = (front ++ [b]) ++ t := by simp [ht]
    exact ih hfront (by simp [hi])
  | case3 done i b t hb hc => exact l.places_ok done
  | case4 done i b t hb hc kind hk ih =>
    have hmark := Line.marks_of_append ht (isBlank_carriageReturn hb) (hi.ge.trans (Nat.le_succ _)) 1
    have hfront : l.text = (front ++ [b]) ++ t := by simp [ht]
    exact (ih hfront (by simp [hi])).cons hmark
  | case5 done i b t hb hc hk flaw hw =>
    have hmark {j : Nat} (hj : j ≤ front.length + 1) (size : Nat) : l.Marks (l.position j size) :=
      Line.marks_of_append ht (isBlank_carriageReturn hb) hj size
    refine Line.places_error ?_ done
    cases flaw with
    | unexpected k =>
      obtain ⟨size, hsize⟩ := l.position_unexpected (i + k)
      have := le_of_word hw
      rw [Line.blame, hsize]
      exact hmark (by omega) size
    | unknownDirective w => exact hmark (by omega) _
    | invalidString n => exact hmark (by omega) _
  | case6 done i b t hb hc hk w hw size rest =>
    rename_i ih
    have hmark := Line.marks_of_append ht (isBlank_carriageReturn hb) (hi.ge.trans (Nat.le_succ _)) size
    have hfront : l.text = (front ++ w.spelling) ++ rest := by
      rw [List.append_assoc, append_of_word hw, ht]
    exact (ih hfront (by simp [hi, size])).cons hmark
  | case7 done i b t hb hc hk w hw size rest =>
    rename_i hd
    have hfront : l.text = (front ++ w.spelling) ++ rest := by
      rw [List.append_assoc, append_of_word hw, ht]
    obtain ⟨position, hposition⟩ := l.position_unexpected (i + size)
    refine Line.places_error ?_ done
    rw [hposition]
    -- the word is followed by a byte that is no delimiter
    cases hrest : rest with
    | nil => exact absurd (by rw [hrest]; rfl) hd
    | cons c tail =>
      have hc : c ≠ carriageReturn := by
        rintro rfl
        exact hd (by rw [hrest]; rfl)
      rw [hrest] at hfront
      exact Line.marks_of_append hfront hc (by simp [hi, size]) position

theorem places_foldlM (ls : List Line) (done : List Token) :
    (∀ out, ls.foldlM (fun done l => l.scanFrom done 0 l.text) done = .ok out →
      ∀ u ∈ out, u ∈ done ∨ ∃ l ∈ ls, l.Marks u.position) ∧
    ∀ e, ls.foldlM (fun done l => l.scanFrom done 0 l.text) done = .error e →
      ∃ l ∈ ls, l.Marks e.position := by
  induction ls generalizing done with
  | nil =>
    refine ⟨?_, by rintro e ⟨⟩⟩
    rintro out ⟨⟩ u hu
    exact .inl hu
  | cons l ls ih =>
    have hplaces : l.Places done (l.scanFrom done 0 l.text) :=
      places_scanFrom l (List.nil_append _).symm rfl
    rw [List.foldlM_cons]
    cases hl : l.scanFrom done 0 l.text with
    | error e =>
      refine ⟨by rintro out ⟨⟩, ?_⟩
      rintro e ⟨⟩
      exact ⟨l, .head _, hplaces.error e hl⟩
    | ok done' =>
      obtain ⟨hok, herror⟩ := ih done'
      refine ⟨fun out hout u hu => ?_, fun e he => ?_⟩
      · rcases hok out hout u hu with hu | ⟨m, hm, hmark⟩
        · exact (hplaces.ok done' hl u hu).imp_right fun hmark => ⟨l, .head _, hmark⟩
        · exact .inr ⟨m, .tail _ hm, hmark⟩
      · obtain ⟨m, hm, hmark⟩ := herror e he
        exact ⟨m, .tail _ hm, hmark⟩

theorem file_of_mem_numbered {file : Text} {number start : Nat} {texts : List Text} :
    ∀ l ∈ numbered file number start texts, l.file = file := by
  induction texts generalizing number start with
  | nil => simp [numbered]
  | cons t texts ih => exact List.forall_mem_cons.mpr ⟨rfl, ih⟩

theorem isLine_of_mem_lines {file source : Text} {l : Line} (hl : l ∈ lines file source) :
    source.IsLine l.text l.number l.start :=
  (lined_lineTexts source).isLine file (.inl rfl) rfl rfl l hl

theorem Line.Marks.points {file source : Text} {l : Line} (hl : l ∈ lines file source) {p : Position}
    (hp : l.Marks p) : p.file = file ∧ p.Points source := by
  obtain ⟨i, size, rfl, hi⟩ := hp
  refine ⟨file_of_mem_numbered l hl, (Position.points_iff (isLine_of_mem_lines hl)).mpr ?_⟩
  simp only [Line.position]
  omega

/-! ### The end -/

/-- How many bytes lines take, each with a newline behind it. -/
def extent : List Text → Nat
  | [] => 0
  | t :: texts => t.length + 1 + extent texts

theorem extent_concat (texts : List Text) (t : Text) :
    extent (texts ++ [t]) = extent texts + t.length + 1 := by
  induction texts with
  | nil => simp [extent]
  | cons u texts ih =>
    rw [List.cons_append, extent, extent, ih]
    omega

theorem numbered_concat (file : Text) (number start : Nat) (texts : List Text) (t : Text) :
    numbered file number start (texts ++ [t]) =
      numbered file number start texts ++ [⟨file, number + texts.length, start + extent texts, t⟩] := by
  induction texts generalizing number start with
  | nil => rfl
  | cons u texts ih =>
    have hnumber : number + 1 + texts.length = number + (u :: texts).length := by simp; omega
    have hstart : start + u.length + 1 + extent texts = start + extent (u :: texts) := by
      rw [extent]
      omega
    rw [List.cons_append, numbered, ih, hnumber, hstart]
    rfl

theorem Split.concat {texts : List Text} {t source : Text} (h : Split (texts ++ [t]) source) :
    ∃ before, source = before ++ t ∧ before.length = extent texts ∧
      (texts = [] ∨ before.getLast? = some newline) := by
  induction texts generalizing source with
  | nil =>
    cases h with
    | last => exact ⟨[], rfl, rfl, .inl rfl⟩
    | cons _ h => cases h
  | cons u texts ih =>
    rw [List.cons_append] at h
    generalize hts : texts ++ [t] = ts at h
    cases h with
    | last => simp at hts
    | cons hu h =>
      subst hts
      obtain ⟨before, rfl, hlen, hlast⟩ := ih h
      refine ⟨u ++ newline :: before, by simp, ?_, .inr ?_⟩
      · simp [hlen, extent]
        omega
      · rcases hlast with rfl | hlast
        · obtain rfl := List.eq_nil_of_length_eq_zero hlen
          simp
        · simp [List.getLast?_append, List.getLast?_cons, hlast]

/-- The last line ends with a newline, or it is not empty unless it is the only one. -/
theorem split_lineTexts (source : Text) :
    (lineTexts source ≠ [] ∧ Split (lineTexts source ++ [[]]) source) ∨
      Split (lineTexts source) source ∧
        ((lineTexts source).getLast? ≠ some [] ∨ lineTexts source = [[]]) := by
  have h := split_splitOn source
  unfold lineTexts
  split
  next last rest hrev =>
    have hparts := congrArg List.reverse hrev
    rw [List.reverse_reverse, List.reverse_cons] at hparts
    exact .inl ⟨by simp, hparts ▸ h⟩
  next hother =>
    refine .inr ⟨by rwa [List.reverse_reverse], ?_⟩
    generalize (Text.splitOn newline source).reverse = parts at hother ⊢
    cases parts with
    | nil => simp
    | cons part parts =>
      cases parts with
      | nil =>
        cases part with
        | nil => exact .inr rfl
        | cons b part => simp
      | cons last rest =>
        refine .inl ?_
        rw [List.getLast?_reverse, List.head?_cons]
        rintro ⟨⟩
        exact hother last rest rfl

theorem exists_lineTexts (source : Text) :
    ∃ texts last, lineTexts source = texts ++ [last] ∧
      (source.getLast? = some newline ∧ source.length = extent texts + last.length + 1 ∨
        source.getLast? = last.getLast? ∧ source.length = extent texts + last.length) := by
  have hsplit := split_lineTexts source
  rcases List.eq_nil_or_concat (lineTexts source) with hnil | ⟨texts, last, htexts⟩
  · rcases hsplit with ⟨hne, -⟩ | ⟨h, -⟩
    · exact absurd hnil hne
    · rw [hnil] at h
      cases h
  rw [List.concat_eq_append] at htexts
  refine ⟨texts, last, htexts, ?_⟩
  rw [htexts] at hsplit
  rcases hsplit with ⟨-, h⟩ | ⟨h, hempty⟩
  · obtain ⟨before, rfl, hlen, hlast⟩ := h.concat
    refine .inl ⟨by simpa using hlast, ?_⟩
    rw [List.append_nil, hlen, extent_concat]
  · obtain ⟨before, rfl, hlen, -⟩ := h.concat
    refine .inr ⟨?_, by simp [hlen]⟩
    cases last with
    | nil =>
      obtain rfl : texts = [] := by simpa using hempty
      rw [List.eq_nil_of_length_eq_zero hlen]
      rfl
    | cons b last => simp [List.getLast?_append, List.getLast?_cons]

theorem ends_endToken (file source : Text) (default : Line) :
    (endToken source ((lines file source).getLastD default)).position.file = file ∧
      (endToken source ((lines file source).getLastD default)).position.Ends source := by
  obtain ⟨texts, last, htexts, hend⟩ := exists_lineTexts source
  have hlines := numbered_concat file 1 0 texts last
  rw [← htexts, ← lines, Nat.zero_add] at hlines
  have hline := isLine_of_mem_lines (hlines ▸ List.mem_append_right _ (.head _))
  rw [hlines, List.getLastD_concat]
  refine ⟨rfl, last, hline, rfl, rfl, ?_⟩
  refine hend.imp (And.imp_right fun hlen => ?_) (And.imp_right fun hlen => ?_)
  all_goals
    simp only [endToken, Line.position]
    omega

/-! ### Sources -/

theorem points_of_tokens {file source : Text} {ts : List Token} (h : tokens file source = .ok ts) :
    ∃ body last, ts = body ++ [last] ∧
      (∀ t ∈ body, t.kind ≠ .endOfFile ∧ t.position.file = file ∧ t.position.Points source) ∧
      last.kind = .endOfFile ∧ last.position.file = file ∧ last.position.Ends source := by
  unfold tokens at h
  cases hd : (lines file source).foldlM (fun done l => l.scanFrom done 0 l.text) [] with
  | error e => simp only [hd] at h; cases h
  | ok done =>
    simp only [hd] at h
    cases h
    refine ⟨done.reverse, _, List.reverse_cons, fun t ht => ?_, rfl, ends_endToken file source _⟩
    rw [List.mem_reverse] at ht
    have hspelled : t.Spelled := spelled_foldlM _ (by simp) hd t ht
    have hplaces := (places_foldlM (lines file source) []).1 done hd t ht
    obtain ⟨l, hl, hmarks⟩ : ∃ l ∈ lines file source, l.Marks t.position := by simpa using hplaces
    refine ⟨fun hkind => ?_, hmarks.points hl⟩
    rw [Token.Spelled, hkind] at hspelled
    exact hspelled

theorem points_of_scanError {file source : Text} {e : ScanError} (h : tokens file source = .error e) :
    e.position.file = file ∧ e.position.Points source := by
  unfold tokens at h
  cases hd : (lines file source).foldlM (fun done l => l.scanFrom done 0 l.text) [] with
  | error e =>
    simp only [hd] at h
    cases h
    obtain ⟨l, hl, hmarks⟩ := (places_foldlM (lines file source) []).2 e hd
    exact hmarks.points hl
  | ok done => simp only [hd] at h; cases h

end Scan
end AccAsm
