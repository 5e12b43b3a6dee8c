import AccAsm.Proofs.Text.Decoding
import AccAsm.Proofs.Text.Path
import AccAsm.Proofs.Token.Pointing

/-! # Lexical errors are local

A source that cannot be scanned fails on one line, and whatever stands behind that line, the error is the same
(`scan_error`). Its position is on the line or right behind it. An unexpected character is the one that is
decoded there. The end of a line is shown as NUL, which is also what a zero byte is decoded as, so the two cannot be
told apart (`tokens_error_local`). -/

namespace AccAsm
open Text (newline lit)

namespace Text

/-- `line` is a whole line between the lines before it and what stands behind it. -/
structure Encloses (before line after : Text) : Prop where
  oneLine : newline ∉ line
  starts : before = [] ∨ before.getLast? = some newline
  ends : after = [] ∨ ∃ next, after = newline :: next

/-- The lines, each with a newline behind it. -/
def ended (lines : List Text) : Text := lines.flatMap fun t => t ++ [newline]

theorem ended_cons (t : Text) (ts : List Text) : ended (t :: ts) = t ++ newline :: ended ts := by
  simp [ended]

theorem length_ended (ts : List Text) : (ended ts).length = Scan.extent ts := by
  induction ts with
  | nil => rfl
  | cons t ts ih =>
    rw [ended_cons, Scan.extent, ← ih]
    simp
    omega

theorem count_ended {ts : List Text} (h : ∀ t ∈ ts, newline ∉ t) : (ended ts).count newline = ts.length := by
  induction ts with
  | nil => rfl
  | cons t ts ih =>
    obtain ⟨ht, h⟩ := List.forall_mem_cons.mp h
    rw [ended_cons, List.count_append, List.count_eq_zero_of_not_mem ht, List.count_cons_self, ih h]
    simp

theorem ended_eq_nil_or (ts : List Text) : ended ts = [] ∨ (ended ts).getLast? = some newline := by
  rcases List.eq_nil_or_concat ts with rfl | ⟨ts, t, rfl⟩
  · exact .inl rfl
  · right
    simp [ended]

end Text

namespace ScanError

/-- The error is `i` bytes into `line`, or right behind it. -/
structure LiesOn (e : ScanError) (file before line : Text) (i : Nat) : Prop where
  file_eq : e.position.file = file
  line_eq : e.position.line = 1 + before.count newline
  lineOffset_eq : e.position.lineOffset = before.length
  offset_eq : e.position.offset = before.length + i
  column_eq : e.position.column = i + 1
  le_length : i ≤ line.length

/-- What an unexpected character `i` bytes into `line` says of it. -/
structure Describes (line after : Text) (i : Nat) (p : Position) (found : Char) : Prop where
  reported : (unexpected p found).message = p.render ++ lit ": Unexpected end of line" ↔ found = '\x00'
  /-- The end of the line is not told from a zero byte on it. -/
  ends : found = '\x00' ↔ i = line.length ∨ (line.drop i).head? = some 0
  decoded : i < line.length → ∃ size : Nat, p.size = size ∧ Utf8.Decodes (line.drop i ++ after) found size

theorem message_unexpected_iff (p : Position) (found : Char) :
    (unexpected p found).message = p.render ++ lit ": Unexpected end of line" ↔ found = '\x00' := by
  rw [message]
  split
  next hnul => exact iff_of_true rfl (Char.toNat_inj.mp (beq_iff_eq.mp hnul))
  next hnul =>
    refine iff_of_false ?_ ?_
    · intro h
      have hprefix : lit ": Unexpected character " <+: lit ": Unexpected end of line" :=
        ⟨_, List.append_cancel_left h⟩
      exact absurd hprefix (by decide)
    · rintro rfl
      exact hnul rfl

end ScanError

namespace Scan
variable {file source : Text} {e : ScanError} {texts : List Text} {t after : Text}

/-! ### Lines -/

theorem Lined.exists_ended {rest : List Text} (h : Lined (texts ++ t :: rest) source) :
    ∃ after, source = Text.ended texts ++ (t ++ after) ∧ (after = [] ∨ ∃ next, after = newline :: next) ∧
      ∀ u ∈ texts ++ [t], newline ∉ u := by
  induction texts generalizing source with
  | nil =>
    rw [List.nil_append] at h
    cases h with
    | last ht => exact ⟨[], by simp [Text.ended], .inl rfl, by simpa using ht⟩
    | ended ht => exact ⟨[newline], by simp [Text.ended], .inr ⟨[], rfl⟩, by simpa using ht⟩
    | @cons _ source _ ht => exact ⟨newline :: source, by simp [Text.ended], .inr ⟨source, rfl⟩, by simpa using ht⟩
  | cons u texts ih =>
    rw [List.cons_append] at h
    generalize htexts : texts ++ t :: rest = more at h
    cases h with
    | last | ended => simp at htexts
    | cons hu h =>
      obtain ⟨after, rfl, hafter, hall⟩ := ih (htexts ▸ h)
      exact ⟨after, by simp [Text.ended_cons], hafter, List.forall_mem_cons.mpr ⟨hu, hall⟩⟩

theorem lineTexts_of_splitOn {rest : List Text} (hne : t ≠ [])
    (h : Text.splitOn newline source = texts ++ t :: rest) : ∃ rest', lineTexts source = texts ++ t :: rest' := by
  unfold lineTexts
  split
  next last more hrev =>
    -- the part that is left out is empty, so it stands behind `t`
    rw [h] at hrev
    rcases List.eq_nil_or_concat rest with rfl | ⟨rest, u, rfl⟩
    · simp [hne] at hrev
    · have hmore : rest.reverse ++ t :: texts.reverse = last :: more := by
        simp at hrev
        exact hrev.2
      exact ⟨rest, by rw [← hmore]; simp⟩
  next => exact ⟨rest, by rw [List.reverse_reverse, h]⟩

/-- What stands behind a line does not change the lines up to it. -/
theorem exists_lineTexts_ended (h : ∀ u ∈ texts ++ [t], newline ∉ u) (hne : t ≠ [])
    (ha : after = [] ∨ ∃ next, after = newline :: next) :
    ∃ rest, lineTexts (Text.ended texts ++ (t ++ after)) = texts ++ t :: rest := by
  obtain ⟨htexts, ht⟩ := List.forall_mem_append.mp h
  have ht : newline ∉ t := ht t (List.mem_singleton_self t)
  have hsplit : Text.splitOn newline (Text.ended texts ++ (t ++ after)) = texts ++ Text.splitOn newline (t ++ after) :=
    Text.splitOn_flatMap htexts (t ++ after)
  rcases ha with rfl | ⟨next, rfl⟩
  · rw [List.append_nil, Text.splitOn_of_notMem ht] at hsplit
    rw [List.append_nil]
    exact lineTexts_of_splitOn hne hsplit
  · rw [Text.splitOn_append, Text.splitOn_of_notMem ht] at hsplit
    exact lineTexts_of_splitOn hne hsplit

/-! ### The first line that fails -/

theorem tokens_eq_error_iff :
    tokens file source = .error e ↔
      (lines file source).foldlM (fun done l => l.scanFrom done 0 l.text) [] = .error e := by
  unfold tokens
  dsimp only
  generalize (lines file source).foldlM (fun done l => l.scanFrom done 0 l.text) [] = scanned
  cases scanned with
  | error found => exact Iff.rfl
  | ok done => exact iff_of_false (by rintro ⟨⟩) (by rintro ⟨⟩)

/-- Scanning ends at the first line that fails, and never looks at the lines behind it. -/
theorem scan_error {number start : Nat} {done : List Token}
    (h : (numbered file number start texts).foldlM (fun done l => l.scanFrom done 0 l.text) done = .error e) :
    ∃ front t rest done', texts = front ++ t :: rest ∧
      Line.scanFrom ⟨file, number + front.length, start + extent front, t⟩ done' 0 t = .error e ∧
      ∀ rest', (numbered file number start (front ++ t :: rest')).foldlM
        (fun done l => l.scanFrom done 0 l.text) done = .error e := by
  induction texts generalizing number start done with
  | nil => cases h
  | cons t texts ih =>
    rw [numbered, List.foldlM_cons] at h
    cases hline : Line.scanFrom ⟨file, number, start, t⟩ done 0 t with
    | error found =>
      rw [hline] at h
      cases h
      refine ⟨[], t, texts, done, rfl, hline, fun rest' => ?_⟩
      rw [List.nil_append, numbered, List.foldlM_cons, hline]
      rfl
    | ok done₁ =>
      rw [hline] at h
      obtain ⟨front, u, rest, done', rfl, hu, hrest⟩ := ih h
      have hnumber : number + 1 + front.length = number + (t :: front).length := by
        rw [List.length_cons]
        omega
      have hstart : start + t.length + 1 + extent front = start + extent (t :: front) := by
        rw [extent]
        omega
      rw [hnumber, hstart] at hu
      refine ⟨t :: front, u, rest, done', rfl, hu, fun rest' => ?_⟩
      rw [List.cons_append, numbered, List.foldlM_cons, hline]
      exact hrest rest'

/-! ### Unexpected characters -/

theorem exists_unexpected {l : Line} {done : List Token} {i : Nat} {p : Position} {found : Char}
    (h : l.scanFrom done i t = .error (.unexpected p found)) : ∃ j, l.unexpected j = .unexpected p found := by
  fun_induction Line.scanFrom l done i t with
  | case1 | case3 => cases h
  | case2 done i b t hb ih => exact ih h
  | case4 done i b t hb hc kind hk ih => exact ih h
  | case5 done i b t hb hc hk flaw hw =>
    cases flaw with
    | unexpected k => exact ⟨i + k, Except.error.inj h⟩
    | unknownDirective | invalidString => cases h
  | case6 done i b t hb hc hk w hw size rest =>
    rename_i ih
    exact ih h
  | case7 done i b t hb hc hk w hw size rest => exact ⟨i + size, Except.error.inj h⟩

theorem describes_unexpected {l : Line} {i : Nat} (hi : i ≤ l.text.length) {p : Position} {found : Char}
    (h : l.unexpected i = .unexpected p found) (ha : after = [] ∨ ∃ next, after = newline :: next) :
    ScanError.Describes l.text after i p found := by
  unfold Line.unexpected at h
  split at h
  next hrest =>
    have hend : i = l.text.length := hi.antisymm (List.drop_eq_nil_iff.mp hrest)
    cases h
    exact ⟨ScanError.message_unexpected_iff _ _, iff_of_true rfl (.inl hend), fun hlt => by omega⟩
  next hrest =>
    have hlt : i < l.text.length := by
      rw [← Nat.not_le, ← List.drop_eq_nil_iff]
      exact hrest
    have hdecodes := Utf8.decodes_head? hrest
    cases h
    refine ⟨ScanError.message_unexpected_iff _ _, ?_, fun _ => ⟨_, rfl, hdecodes.append ha⟩⟩
    rw [hdecodes.eq_nul_iff]
    exact (or_iff_right hlt.ne).symm

/-- A source that cannot be scanned fails in one line. What stands behind that line does not change the error, which is
placed on the line, and an unexpected character is the one found there. -/
theorem tokens_error_local (h : tokens file source = .error e) :
    ∃ before line after i, source = before ++ (line ++ after) ∧ Text.Encloses before line after ∧
      (∀ after', Text.Encloses before line after' → tokens file (before ++ (line ++ after')) = .error e) ∧
      e.LiesOn file before line i ∧
      ∀ p found, e = .unexpected p found → ScanError.Describes line after i p found := by
  obtain ⟨front, line, rest, done, htexts, hline, hsame⟩ := scan_error (tokens_eq_error_iff.mp h)
  obtain ⟨after, hsource, hafter, hall⟩ := Lined.exists_ended (htexts ▸ lined_lineTexts source)
  have hne : line ≠ [] := by
    rintro rfl
    rw [Line.scanFrom] at hline
    cases hline
  obtain ⟨hfront, hmem⟩ := List.forall_mem_append.mp hall
  obtain ⟨i, size, hposition, hi⟩ := (places_scanFrom _ (List.nil_append _).symm rfl).error e hline
  have hi : i ≤ line.length := hi.trans (Text.length_dropTrailing_le _ _)
  refine ⟨Text.ended front, line, after, i, hsource,
    ⟨hmem line (List.mem_singleton_self line), Text.ended_eq_nil_or front, hafter⟩, ?_, ?_, ?_⟩
  · intro after' h'
    obtain ⟨rest', hrest⟩ := exists_lineTexts_ended hall hne h'.ends
    rw [tokens_eq_error_iff, lines, hrest]
    exact hsame rest'
  · constructor <;> simp [hposition, Line.position, Text.count_ended hfront, Text.length_ended, hi]
  · rintro p found rfl
    obtain ⟨j, hj⟩ := exists_unexpected hline
    obtain ⟨size', hplace⟩ := Line.position_unexpected _ j
    rw [hj] at hplace
    obtain rfl : j = i := by
      have hcolumn := congrArg Position.column (hplace.symm.trans hposition)
      simp only [Line.position] at hcolumn
      omega
    exact describes_unexpected hi hj hafter

theorem tokens_error_local_second_line :
    let file := lit "a.s"
    let source := lit "add\n$é\n\""
    let e := ScanError.unexpected ⟨file, 2, 2, 5, 2, 4⟩ 'é'
    tokens file source = .error e ∧
      ∃ before line after i, source = before ++ (line ++ after) ∧ Text.Encloses before line after ∧
        (∀ after', Text.Encloses before line after' → tokens file (before ++ (line ++ after')) = .error e) ∧
        e.LiesOn file before line i ∧
        ∀ p found, e = .unexpected p found → ScanError.Describes line after i p found := by
  intro file source e
  have herror : tokens file source = .error e := by decide +kernel
  exact ⟨herror, tokens_error_local herror⟩

/-- A zero byte is reported as the end of its line, though a byte stands there and more may follow. -/
theorem tokens_error_nul :
    let file := lit "a.s"
    let p : Position := ⟨file, 1, 5, 4, 1, 0⟩
    let e := ScanError.unexpected p '\x00'
    tokens file (lit "nop \x00nop") = .error e ∧ e.message = lit "a.s:01:05: Unexpected end of line" ∧
      p.offset < p.lineOffset + (lit "nop \x00nop").length := by
  decide +kernel

end Scan
end AccAsm
