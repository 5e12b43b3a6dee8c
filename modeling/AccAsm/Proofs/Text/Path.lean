import AccAsm.Text.Path
import Mathlib.Data.List.TakeWhile

/-! # Cleaned paths

Cleaning a path that has been cleaned changes nothing (`clean_clean`). The elements that are left form a
normal stack: none is empty or a dot, and a parent mark stands on parent marks only. Pushing keeps a stack
normal, and pushing the elements of a normal stack one by one builds it again.

A path is its stem and its extension (`stem_append_extension`). A clean path stays clean with another
extension, and only the extension it has gives back the path (`Ending.clean_stem_eq_clean_iff`). -/

namespace AccAsm
open Text (byte lit)

namespace Text
variable {sep : UInt8}

theorem splitOn_eq (sep : UInt8) (t : Text) : splitOn sep t = List.splitOn sep t := by
  induction t with
  | nil => rfl
  | cons b t ih =>
    have hsplit : List.splitOn sep (b :: t) = if b == sep then [] :: List.splitOn sep t
        else (List.splitOn sep t).modifyHead (List.cons b) :=
      List.splitOnP_cons_eq_if_modifyHead b t
    have hne : List.splitOn sep t ≠ [] := List.splitOnP_ne_nil _ _
    rw [hsplit, ← ih]
    rw [← ih] at hne
    rw [splitOn, splitOn, List.foldr_cons]
    rw [splitOn] at hne
    generalize t.foldr _ _ = parts at hne ⊢
    obtain ⟨part, rest, rfl⟩ := List.exists_cons_of_ne_nil hne
    rfl

theorem notMem_splitOn {t : Text} : ∀ part ∈ splitOn sep t, sep ∉ part := by
  induction t with
  | nil => simp [splitOn]
  | cons b t ih =>
    rw [splitOn] at ih ⊢
    rw [List.foldr_cons]
    generalize t.foldr _ _ = parts at ih ⊢
    split
    · simpa using ih
    next hb =>
      have hne : sep ≠ b := fun he => hb (by rw [he]; exact beq_self_eq_true _)
      split
      next part rest =>
        obtain ⟨hpart, hrest⟩ := List.forall_mem_cons.mp ih
        refine List.forall_mem_cons.mpr ⟨?_, hrest⟩
        simp [hne, hpart]
      · simpa using hne

theorem splitOn_cons (b : UInt8) (t : Text) : splitOn sep (b :: t) =
    if b == sep then [] :: splitOn sep t else (splitOn sep t).modifyHead (List.cons b) := by
  rw [splitOn_eq, splitOn_eq]
  exact List.splitOnP_cons_eq_if_modifyHead b t

theorem splitOn_append (s t : Text) : splitOn sep (s ++ sep :: t) = splitOn sep s ++ splitOn sep t := by
  induction s with
  | nil =>
    rw [List.nil_append, splitOn_cons, beq_self_eq_true]
    rfl
  | cons b s ih =>
    have hne : splitOn sep s ≠ [] := by
      rw [splitOn_eq]
      exact List.splitOnP_ne_nil _ _
    obtain ⟨part, rest, hparts⟩ := List.exists_cons_of_ne_nil hne
    rw [List.cons_append, splitOn_cons, splitOn_cons, ih, hparts]
    split <;> rfl

theorem splitOn_of_notMem {t : Text} (h : sep ∉ t) : splitOn sep t = [t] := by
  induction t with
  | nil => rfl
  | cons b t ih =>
    obtain ⟨hb, ht⟩ := not_or.mp (mt List.mem_cons.mpr h)
    rw [splitOn_cons, beq_eq_false_iff_ne.mpr (Ne.symm hb), ih ht]
    rfl

theorem splitOn_flatMap {parts : List Text} (h : ∀ part ∈ parts, sep ∉ part) (t : Text) :
    splitOn sep (parts.flatMap (· ++ [sep]) ++ t) = parts ++ splitOn sep t := by
  induction parts with
  | nil => rfl
  | cons part parts ih =>
    obtain ⟨hpart, h⟩ := List.forall_mem_cons.mp h
    rw [List.flatMap_cons, List.append_assoc, List.append_assoc, List.singleton_append, splitOn_append,
      splitOn_of_notMem hpart, ih h]
    rfl

theorem exists_last {t : Text} (h : sep ∈ t) : ∃ s x, t = s ++ sep :: x ∧ sep ∉ x := by
  obtain ⟨x, s, hrev, hx⟩ := List.eq_append_cons_of_mem (List.mem_reverse.mpr h)
  refine ⟨s.reverse, x.reverse, ?_, by simpa using hx⟩
  rw [← List.reverse_reverse t, hrev, List.reverse_append, List.reverse_cons, List.append_assoc]
  rfl

end Text

namespace Path
variable {rooted : Bool} {done es : List Text} {e : Text}

/-- The elements of a cleaned path, the last one first. -/
inductive Normal (rooted : Bool) : List Text → Prop
  | nil : Normal rooted []
  | name {done : List Text} {e : Text} (hs : slash ∉ e) (hn : e ≠ [] ∧ e ≠ lit "." ∧ e ≠ lit "..")
      (h : Normal rooted done) : Normal rooted (e :: done)
  | parent {done : List Text} (hr : rooted = false) (hd : ∀ e ∈ done.head?, e = lit "..")
      (h : Normal rooted done) : Normal rooted (lit ".." :: done)

theorem Normal.push (h : Normal rooted done) (hs : slash ∉ e) : Normal rooted (push rooted done e) := by
  unfold Path.push
  split
  · exact h
  next hdot =>
    rw [Bool.or_eq_true, List.isEmpty_iff, beq_iff_eq, not_or] at hdot
    split
    next hparent =>
      obtain rfl := eq_of_beq hparent
      cases h with
      | nil =>
        cases rooted with
        | true => exact .nil
        | false => exact .parent rfl (by simp) .nil
      | name _ hn h =>
        simp only [beq_iff_eq, hn.2.2, if_false]
        exact h
      | parent hr hd h => exact .parent hr (by simp) (.parent hr hd h)
    next hparent => exact .name hs ⟨hdot.1, hdot.2, by simpa using hparent⟩ h

theorem Normal.foldl_push (h : Normal rooted done) (hs : ∀ e ∈ es, slash ∉ e) :
    Normal rooted (es.foldl (Path.push rooted) done) := by
  induction es generalizing done with
  | nil => exact h
  | cons e es ih =>
    obtain ⟨he, hs⟩ := List.forall_mem_cons.mp hs
    exact ih (h.push he) hs

theorem Normal.push_eq (h : Normal rooted (e :: done)) : Path.push rooted done e = e :: done := by
  cases h with
  | name _ hn _ => simp [Path.push, hn]
  | parent hr hd _ =>
    cases done with
    | nil => simp [Path.push, hr, show lit ".." ≠ [] by decide, show lit ".." ≠ lit "." by decide]
    | cons last rest =>
      obtain rfl := hd last rfl
      simp [Path.push, show lit ".." ≠ [] by decide, show lit ".." ≠ lit "." by decide]

theorem Normal.of_append (h : Normal rooted (es ++ done)) : Normal rooted done := by
  induction es with
  | nil => exact h
  | cons e es ih =>
    rw [List.cons_append] at h
    cases h with
    | name _ _ h | parent _ _ h => exact ih h

theorem Normal.foldl_push_eq (h : Normal rooted (es.reverse ++ done)) :
    es.foldl (Path.push rooted) done = es.reverse ++ done := by
  induction es generalizing done with
  | nil => rfl
  | cons e es ih =>
    rw [List.reverse_cons, List.append_assoc, List.singleton_append] at h ⊢
    rw [List.foldl_cons, h.of_append.push_eq, ih h]

theorem Normal.forall_mem (h : Normal rooted done) : ∀ e ∈ done, slash ∉ e ∧ e ≠ [] := by
  induction h with
  | nil => simp
  | name hs hn _ ih => exact List.forall_mem_cons.mpr ⟨⟨hs, hn.1⟩, ih⟩
  | parent _ _ _ ih => exact List.forall_mem_cons.mpr ⟨by decide, ih⟩

/-! ### Cleaning -/

theorem elements_intercalate (h : ∀ e ∈ es, slash ∉ e) (hne : es ≠ []) :
    elements (List.intercalate [slash] es) = es := by
  rw [elements, Text.splitOn_eq, List.splitOn_intercalate _ h hne]

theorem normal_elements (p : Text) : Normal (isRooted p) ((elements p).foldl (push (isRooted p)) []) :=
  Normal.nil.foldl_push Text.notMem_splitOn

theorem exists_cons_intercalate (h : ∀ e ∈ es, slash ∉ e ∧ e ≠ []) (hne : es ≠ []) :
    ∃ b t, List.intercalate [slash] es = b :: t ∧ b ≠ slash := by
  obtain ⟨first, rest, rfl⟩ := List.exists_cons_of_ne_nil hne
  obtain ⟨hs, hfirst⟩ := h first (.head _)
  obtain ⟨b, t, rfl⟩ := List.exists_cons_of_ne_nil hfirst
  have hb : b ≠ slash := by
    rintro rfl
    exact hs (.head _)
  cases rest with
  | nil => exact ⟨b, t, List.intercalate_singleton, hb⟩
  | cons second rest =>
    rw [List.intercalate_cons_cons]
    exact ⟨b, _, rfl, hb⟩

/-- The path with the elements of a stack. -/
def ofStack (rooted : Bool) (done : List Text) : Text :=
  let body := List.intercalate [slash] done.reverse
  if rooted then slash :: body else if body.isEmpty then lit "." else body

theorem clean_eq_ofStack {p : Text} (hr : isRooted p = rooted)
    (hs : (elements p).foldl (push rooted) [] = done) : clean p = ofStack rooted done := by
  subst hr hs
  rfl

/-- The path with the elements of a normal stack is clean. -/
theorem clean_ofStack (h : Normal rooted done) : clean (ofStack rooted done) = ofStack rooted done := by
  by_cases hne : done = []
  · subst hne
    cases rooted <;> decide
  have hne : done.reverse ≠ [] := by simpa using hne
  have hforall : ∀ e ∈ done.reverse, slash ∉ e ∧ e ≠ [] := fun e he => h.forall_mem e (List.mem_reverse.mp he)
  obtain ⟨b, t, hbody, hb⟩ := exists_cons_intercalate hforall hne
  -- the elements of the path are those of the stack, and build it again
  have helements : elements (b :: t) = done.reverse := by
    rw [← hbody]
    exact elements_intercalate (fun e he => (hforall e he).1) hne
  have hstack : (elements (b :: t)).foldl (push rooted) [] = done := by
    have hpush : done.reverse.foldl (push rooted) [] = done.reverse.reverse ++ [] :=
      Normal.foldl_push_eq (by simpa using h)
    rw [helements, hpush, List.reverse_reverse, List.append_nil]
  cases rooted with
  | true =>
    have hpath : ofStack true done = slash :: b :: t := by
      rw [← hbody]
      rfl
    have hagain : (elements (slash :: b :: t)).foldl (push true) [] = done := hstack
    rw [hpath, clean_eq_ofStack (by simp [isRooted]) hagain, hpath]
  | false =>
    have hpath : ofStack false done = b :: t := by
      rw [ofStack, hbody]
      rfl
    rw [hpath, clean_eq_ofStack (by simpa [isRooted] using hb) hstack, hpath]

theorem clean_clean (p : Text) : clean (clean p) = clean p := clean_ofStack (normal_elements p)

theorem clean_ne_nil (p : Text) : clean p ≠ [] := by
  unfold clean
  simp only
  split
  · simp
  · split
    · decide
    next hb => simpa using hb

/-- Joined paths are clean. -/
theorem clean_join {p : Text} (hp : p ≠ []) (q : Text) : clean (join p q) = join p q := by
  have hp : p.isEmpty = false := by simpa using hp
  unfold join
  rw [hp]
  simp only [Bool.false_and, Bool.false_eq_true, if_false]
  split <;> exact clean_clean _

/-! ### Last elements -/

/-- What stands before the element after the ones of a stack. -/
def front (rooted : Bool) (done : List Text) : Text :=
  (if rooted then [slash] else []) ++ done.reverse.flatMap (· ++ [slash])

/-- An element can stand right behind `t`. -/
def EndsOpen (t : Text) : Prop := t = [] ∨ ∃ s, t = s ++ [slash]

theorem exists_last (p : Text) : ∃ t e, p = t ++ e ∧ EndsOpen t ∧ slash ∉ e := by
  by_cases hp : slash ∈ p
  · obtain ⟨s, e, rfl, he⟩ := Text.exists_last hp
    exact ⟨s ++ [slash], e, by simp, .inr ⟨s, rfl⟩, he⟩
  · exact ⟨[], p, rfl, .inl rfl, hp⟩

theorem front_cons (rooted : Bool) (e : Text) (done : List Text) :
    front rooted (e :: done) = front rooted done ++ e ++ [slash] := by
  simp [front]

theorem endsOpen_front (rooted : Bool) (done : List Text) : EndsOpen (front rooted done) := by
  cases done with
  | nil =>
    cases rooted with
    | true => exact .inr ⟨[], rfl⟩
    | false => exact .inl rfl
  | cons e done => exact .inr ⟨_, front_cons rooted e done⟩

theorem intercalate_concat (es : List Text) (e : Text) :
    List.intercalate [slash] (es ++ [e]) = es.flatMap (· ++ [slash]) ++ e := by
  induction es with
  | nil => exact List.intercalate_singleton
  | cons first es ih =>
    obtain ⟨second, rest, hrest⟩ : ∃ second rest, es ++ [e] = second :: rest :=
      List.exists_cons_of_ne_nil (by simp)
    rw [List.cons_append, hrest, List.intercalate_cons_cons, ← hrest, ih]
    simp

theorem ofStack_cons (he : e ≠ []) : ofStack rooted (e :: done) = front rooted done ++ e := by
  have hbody : List.intercalate [slash] (e :: done).reverse = done.reverse.flatMap (· ++ [slash]) ++ e := by
    rw [List.reverse_cons, intercalate_concat]
  have hne : (done.reverse.flatMap (· ++ [slash]) ++ e).isEmpty = false := by simp [he]
  rw [ofStack, hbody, front]
  cases rooted with
  | true => rfl
  | false =>
    simp only [hne]
    rfl

theorem Normal.length_ofStack_le (h : Normal rooted done) :
    (ofStack rooted done).length ≤ (front rooted done).length + 1 := by
  cases done with
  | nil => cases rooted <;> decide
  | cons e done =>
    rw [ofStack_cons (h.forall_mem e (.head _)).2, front_cons]
    simp only [List.length_append]
    omega

/-- An element stands on top of the stack it is pushed on, or the stack does not grow. -/
theorem push_cases (rooted : Bool) (done : List Text) (e : Text) :
    push rooted done e = e :: done ∧ e ≠ [] ∨
      (front rooted (push rooted done e)).length ≤ (front rooted done).length := by
  unfold push
  split
  · exact .inr (Nat.le_refl _)
  next hdot =>
    rw [Bool.or_eq_true, List.isEmpty_iff, beq_iff_eq, not_or] at hdot
    split
    · split
      next last rest =>
        split
        · exact .inl ⟨rfl, hdot.1⟩
        · refine .inr ?_
          rw [front_cons, List.length_append, List.length_append]
          omega
      next =>
        split
        · exact .inr (Nat.le_refl _)
        · exact .inl ⟨rfl, hdot.1⟩
    · exact .inl ⟨rfl, hdot.1⟩

/-- Cleaning a path comes to cleaning what stands before its last element and then pushing that. -/
theorem exists_clean_append {t : Text} (ht : EndsOpen t) :
    ∃ rooted done, Normal rooted done ∧ ∀ e, slash ∉ e → clean (t ++ e) = ofStack rooted (push rooted done e) := by
  rcases ht with rfl | ⟨s, rfl⟩
  · refine ⟨false, [], .nil, fun e he => clean_eq_ofStack ?_ ?_⟩
    · cases e with
      | nil => rfl
      | cons b e => simpa [isRooted] using fun hb : b = slash => he (hb ▸ .head _)
    · rw [List.nil_append, elements, Text.splitOn_of_notMem he]
      rfl
  · refine ⟨isRooted (s ++ [slash]), (elements s).foldl (push (isRooted (s ++ [slash]))) [],
      Normal.nil.foldl_push Text.notMem_splitOn, fun e he => clean_eq_ofStack ?_ ?_⟩
    · cases s <;> rfl
    · rw [List.append_assoc, List.singleton_append, elements, Text.splitOn_append, Text.splitOn_of_notMem he,
        List.foldl_append]
      rfl

/-! ### Extensions -/

theorem extension_of_dot {s x : Text} (hd : byte '.' ∉ x) (hs : slash ∉ x) :
    extension (s ++ byte '.' :: x) = byte '.' :: x := by
  have hlast : (s ++ byte '.' :: x).reverse.takeWhile (· != slash) =
      x.reverse ++ byte '.' :: s.reverse.takeWhile (· != slash) := by
    rw [List.reverse_append, List.reverse_cons, List.append_assoc, List.singleton_append,
      List.takeWhile_append_of_pos (by simpa using fun b hb (he : b = slash) => hs (he ▸ hb)),
      List.takeWhile_cons_of_pos (by decide)]
  have hplain : ∀ b ∈ x.reverse, (b != byte '.') = true := by simpa using fun b hb (he : b = byte '.') => hd (he ▸ hb)
  rw [extension, hlast]
  simp only [List.dropWhile_append_of_pos hplain, List.takeWhile_append_of_pos hplain]
  simp

theorem stem_of_dot {s x : Text} (hd : byte '.' ∉ x) (hs : slash ∉ x) : stem (s ++ byte '.' :: x) = s := by
  rw [stem, extension_of_dot hd hs, List.length_append, Nat.add_sub_cancel, List.take_left]

theorem extension_append {t : Text} (ht : EndsOpen t) (he : slash ∉ e) : extension (t ++ e) = extension e := by
  have hplain : ∀ b ∈ e.reverse, (b != slash) = true := by simpa using fun b hb (h : b = slash) => he (h ▸ hb)
  have hlast : (t ++ e).reverse.takeWhile (· != slash) = e.reverse.takeWhile (· != slash) := by
    rw [List.reverse_append, List.takeWhile_append_of_pos hplain, List.takeWhile_eq_self_iff.mpr hplain]
    rcases ht with rfl | ⟨s, rfl⟩
    · simp
    · simp
  unfold extension
  rw [hlast]

theorem extension_of_notMem (he : byte '.' ∉ e) : extension e = [] := by
  have hplain : ∀ b ∈ e.reverse.takeWhile (· != slash), (b != byte '.') = true := by
    intro b hb
    have hmem : b ∈ e := List.mem_reverse.mp ((List.takeWhile_sublist _).subset hb)
    simpa using fun h : b = byte '.' => he (h ▸ hmem)
  rw [extension, List.dropWhile_eq_nil_iff.mpr hplain]

/-- A path is its stem and its extension. -/
theorem stem_append_extension (p : Text) : stem p ++ extension p = p := by
  obtain ⟨t, e, rfl, ht, he⟩ := exists_last p
  by_cases hdot : byte '.' ∈ e
  · obtain ⟨s, x, rfl, hx⟩ := Text.exists_last hdot
    have hs : slash ∉ x := fun hmem => he (List.mem_append_right _ (.tail _ hmem))
    rw [← List.append_assoc, stem_of_dot hx hs, extension_of_dot hx hs]
  · rw [stem, extension_append ht he, extension_of_notMem hdot, List.length_nil, Nat.sub_zero, List.take_length,
      List.append_nil]

theorem stem_append {t : Text} (ht : EndsOpen t) (he : slash ∉ e) : stem (t ++ e) = t ++ stem e := by
  have hboth : stem (t ++ e) ++ extension e = t ++ stem e ++ extension e := by
    rw [List.append_assoc, stem_append_extension, ← extension_append ht he, stem_append_extension]
  exact List.append_cancel_right hboth

/-- What can follow the last dot of a file's name. -/
structure Ending (x : Text) : Prop where
  ne_nil : x ≠ []
  no_dot : byte '.' ∉ x
  no_slash : slash ∉ x

namespace Ending
variable {x : Text}

theorem extension_eq (hx : Ending x) (s : Text) : extension (s ++ byte '.' :: x) = byte '.' :: x :=
  extension_of_dot hx.no_dot hx.no_slash

theorem stem_eq (hx : Ending x) (s : Text) : stem (s ++ byte '.' :: x) = s :=
  stem_of_dot hx.no_dot hx.no_slash

theorem name (hx : Ending x) (s : Text) :
    s ++ byte '.' :: x ≠ [] ∧ s ++ byte '.' :: x ≠ lit "." ∧ s ++ byte '.' :: x ≠ lit ".." := by
  have hext {d : Text} (hd : extension d = [byte '.']) : s ++ byte '.' :: x ≠ d := by
    intro heq
    rw [← heq, hx.extension_eq] at hd
    exact hx.ne_nil (List.cons.inj hd).2
  exact ⟨by simp, hext (by decide), hext (by decide)⟩

theorem notMem_slash (hx : Ending x) (he : slash ∉ e) : slash ∉ stem e ++ byte '.' :: x := by
  intro hmem
  rcases List.mem_append.mp hmem with hmem | hmem
  · exact he (List.mem_of_mem_take hmem)
  · rcases List.mem_cons.mp hmem with hdot | hmem
    · exact absurd hdot (by decide)
    · exact hx.no_slash hmem

theorem exists_stack (hx : Ending x) (h : Normal rooted done) :
    ∃ done', Normal rooted done' ∧ stem (ofStack rooted done) ++ byte '.' :: x = ofStack rooted done' := by
  cases done with
  | nil =>
    refine ⟨[byte '.' :: x], .name (hx.notMem_slash (e := []) (by simp)) (hx.name []) .nil, ?_⟩
    rw [ofStack_cons (List.cons_ne_nil _ _)]
    cases rooted <;> rfl
  | cons e rest =>
    obtain ⟨hs, hne⟩ := h.forall_mem e (.head _)
    have hrest : Normal rooted rest := Normal.of_append (show Normal rooted ([e] ++ rest) from h)
    refine ⟨(stem e ++ byte '.' :: x) :: rest, .name (hx.notMem_slash hs) (hx.name _) hrest, ?_⟩
    rw [ofStack_cons hne, ofStack_cons (hx.name _).1, stem_append (endsOpen_front rooted rest) hs,
      List.append_assoc]

/-- A clean path with another extension is clean. -/
theorem clean_stem (hx : Ending x) {p : Text} (hp : clean p = p) :
    clean (stem p ++ byte '.' :: x) = stem p ++ byte '.' :: x := by
  obtain ⟨done, hnormal, hdone⟩ := hx.exists_stack (normal_elements p)
  have hstack : stem p ++ byte '.' :: x = ofStack (isRooted p) done := by
    rw [← hdone]
    exact congrArg (stem · ++ byte '.' :: x) hp.symm
  rw [hstack, clean_ofStack hnormal]

/-- Another extension gives another path. -/
theorem clean_stem_eq_clean_iff (hx : Ending x) (p : Text) :
    clean (stem p ++ byte '.' :: x) = clean p ↔ extension p = byte '.' :: x := by
  constructor
  · obtain ⟨t, e, rfl, ht, he⟩ := exists_last p
    obtain ⟨rooted, done, hnormal, hclean⟩ := exists_clean_append ht
    have hname := hx.name (stem e)
    have hpush : push rooted done (stem e ++ byte '.' :: x) = (stem e ++ byte '.' :: x) :: done :=
      Normal.push_eq (.name (hx.notMem_slash he) hname hnormal)
    rw [stem_append ht he, extension_append ht he, List.append_assoc, hclean _ he, hclean _ (hx.notMem_slash he), hpush,
      ofStack_cons hname.1]
    intro heq
    rcases push_cases rooted done e with ⟨hcons, hne⟩ | hshort
    · rw [hcons, ofStack_cons hne] at heq
      rw [← List.append_cancel_left heq, hx.extension_eq]
    · have hlength := congrArg List.length heq
      have hbound := (hnormal.push he).length_ofStack_le
      have hpos := List.length_pos_iff.mpr hx.ne_nil
      simp only [List.length_append, List.length_cons] at hlength
      omega
  · intro h
    rw [← h, stem_append_extension]

end Ending
end Path
end AccAsm
