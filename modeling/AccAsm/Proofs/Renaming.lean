import AccAsm.Assembly
import AccAsm.Proofs.Encoding.Renaming
import AccAsm.Proofs.Linking

/-! # Names of labels

What the labels of a program are called has no influence on its bytes. If `f` gives different labels
different names, none of them empty, then the renamed program is linked exactly if the program is. The
bytes are the same, and the new names stand where the old ones stood; an error stays the same error at
the same place (`Program.image_rename`).

Encoding does not need `f` to be injective (`Program.encode_mirrors`), but linking looks labels up. The
labels it looks up are those of the program, so nothing is asked of other names. -/

namespace AccAsm
open Failure (Mirrors)
open Text (lit)

/-- `f` tells the given labels apart and leaves none of them without a name. -/
structure Renames (f : Text → Text) (labels : List Text) : Prop where
  injective : ∀ a ∈ labels, ∀ b ∈ labels, f a = f b → a = b
  named : ∀ l ∈ labels, f l ≠ []

def LinkError.rename (f : Text → Text) : LinkError → LinkError
  | oversized e => .oversized e
  | redeclaredLabel position label => .redeclaredLabel position (f label)
  | undefinedLabel position label => .undefinedLabel position (f label)

/-- The error with other names for labels. -/
def AssemblyError.rename (f : Text → Text) : AssemblyError → AssemblyError
  | encode e => .encode (e.rename f)
  | link e => .link (e.rename f)
  | e => e

theorem AssemblyError.position?_rename (f : Text → Text) (e : AssemblyError) :
    (e.rename f).position? = e.position? := by
  cases e with
  | encode e => exact congrArg some (e.position_rename f)
  | link e => cases e <;> rfl
  | _ => rfl

theorem Failure.Mirrors.mapError {ε δ ε' δ' α β : Type} {g : ε → δ} {g' : ε' → δ'} {R : α → β → Prop}
    {x : Except (Failure ε) α} {y : Except (Failure δ) β} {k : ε → ε'} {l : δ → δ'} (h : Mirrors g R x y)
    (hg : ∀ e, g' (k e) = l (g e)) :
    Mirrors g' R (x.mapError (Failure.mapError k)) (y.mapError (Failure.mapError l)) := by
  cases h with
  | ok h => exact .ok h
  | error e =>
    show Mirrors g' R (.error (.error (k e))) (.error (.error (l (g e))))
    rw [← hg]
    exact .error (k e)
  | fault b => exact .fault b

variable {f : Text → Text} {labels : List Text} {strict : Bool}

/-! ### Addresses -/

namespace LabelTable
variable {t t' : LabelTable} {label : Text}

/-- Tables of a program with the given labels and of the renamed one. -/
structure Renamed (f : Text → Text) (labels : List Text) (t t' : LabelTable) : Prop where
  entries : t'.entries = t.entries.map fun e => (f e.1, e.2)
  known : ∀ e ∈ t.entries, e.1 ∈ labels

theorem lookup_renamed {entries : List (Text × UInt16)} (hf : Renames f labels)
    (hknown : ∀ e ∈ entries, e.1 ∈ labels) (hl : label ∈ labels) :
    (entries.map fun e => (f e.1, e.2)).lookup (f label) = entries.lookup label := by
  induction entries with
  | nil => rfl
  | cons e rest ih =>
    obtain ⟨he, hrest⟩ := List.forall_mem_cons.mp hknown
    have hbeq : (f label == f e.1) = (label == e.1) := by
      rw [Bool.eq_iff_iff, beq_iff_eq, beq_iff_eq]
      exact ⟨hf.injective _ hl _ he, congrArg f⟩
    rw [List.map_cons, List.lookup_cons, List.lookup_cons, hbeq, ih hrest]

theorem Renamed.find? (hf : Renames f labels) (h : Renamed f labels t t') (hl : label ∈ labels) :
    t'.find? (f label) = t.find? label := by
  rw [LabelTable.find?, LabelTable.find?, h.entries]
  exact lookup_renamed hf h.known hl

theorem Renamed.add (hf : Renames f labels) (h : Renamed f labels t t') (hl : label ∈ labels) (a : UInt16) :
    Renamed f labels (t.add label a) (t'.add (f label) a) := by
  have hiff : f label ∈ t'.entries.map Prod.fst ↔ label ∈ t.entries.map Prod.fst := by
    rw [← find?_isSome_iff, ← find?_isSome_iff, h.find? hf hl]
  by_cases hm : label ∈ t.entries.map Prod.fst
  · rw [LabelTable.add, dif_pos hm, LabelTable.add, dif_pos (hiff.mpr hm)]
    exact h
  · rw [LabelTable.add, dif_neg hm, LabelTable.add, dif_neg fun hm' => hm (hiff.mp hm')]
    refine ⟨?_, List.forall_mem_append.mpr ⟨h.known, List.forall_mem_singleton.mpr hl⟩⟩
    show t'.entries ++ [(f label, a)] = _
    rw [List.map_append, h.entries]
    rfl

theorem declare_mirrors {c : Cell} (hf : Renames f labels) (h : Renamed f labels t t') (hc : c.LabelsIn labels)
    (address : Nat) :
    Mirrors (LinkError.rename f) (Renamed f labels) ((t.declare strict c address).mapError .error)
      ((t'.declare strict (c.rename f) address).mapError .error) := by
  by_cases hl : c.label = []
  · have hl' : (c.rename f).label = [] := if_pos hl
    rw [declare, declare, hl, hl']
    exact .ok h
  · have hm : c.label ∈ labels := hc.label hl
    have hname : (c.rename f).label = f c.label := if_neg hl
    rw [declare, declare, hname, h.find? hf hm, if_neg fun he => hl (List.isEmpty_iff.mp he),
      if_neg fun he => hf.named _ hm (List.isEmpty_iff.mp he)]
    by_cases hs : strict ∧ (t.find? c.label).isSome
    · rw [if_pos hs, if_pos hs]
      exact .error (LinkError.redeclaredLabel c.position c.label)
    · rw [if_neg hs, if_neg hs]
      exact .ok (h.add hf hm _)

theorem declareAll_mirrors {cells : List Cell} (hf : Renames f labels) (h : Renamed f labels t t')
    (hc : ∀ c ∈ cells, c.LabelsIn labels) (k : Nat) :
    Mirrors (LinkError.rename f) (Renamed f labels)
      (((cells.zipIdx k).foldlM (fun t (c, address) => declare strict t c address) t).mapError .error)
      ((((cells.map (Cell.rename f)).zipIdx k).foldlM
        (fun t (c, address) => declare strict t c address) t').mapError .error) := by
  have hbind {x : Except LinkError LabelTable} {l : LabelTable → Except LinkError LabelTable} :
      (x >>= l).mapError Failure.error = x.mapError .error >>= fun t => (l t).mapError .error := by
    cases x <;> rfl
  induction cells generalizing t t' k with
  | nil => exact .ok h
  | cons c cells ih =>
    obtain ⟨hc, hcells⟩ := List.forall_mem_cons.mp hc
    rw [List.map_cons, List.zipIdx_cons, List.zipIdx_cons, List.foldlM_cons, List.foldlM_cons, hbind, hbind]
    exact (declare_mirrors hf h hc k).bind fun t t' ht => ih ht hcells (k + 1)

theorem ofCells_mirrors {cells : List Cell} (hf : Renames f labels) (hc : ∀ c ∈ cells, c.LabelsIn labels) :
    Mirrors (LinkError.rename f) (Renamed f labels) ((ofCells strict cells).mapError .error)
      ((ofCells strict (cells.map (Cell.rename f))).mapError .error) := by
  rw [ofCells, ofCells, List.length_map]
  by_cases hs : addressSpace < cells.length
  · rw [if_pos hs, if_pos hs]
    exact .error (LinkError.oversized ⟨addressSpace, cells.length⟩)
  · rw [if_neg hs, if_neg hs]
    exact declareAll_mirrors hf ⟨rfl, by simp [empty]⟩ hc 0

/-! ### Placeholders -/

theorem fill_mirrors {c : Cell} {s : Segment} (hf : Renames f labels) (h : Renamed f labels t t')
    (hc : c.LabelsIn labels) (hs : s ∈ c.segments) :
    Mirrors (LinkError.rename f) Eq (t.fill s) (t'.fill (s.rename f)) := by
  cases s with
  | literal v w => exact .ok rfl
  | placeholder r w =>
    rw [Segment.rename, fill, fill, h.find? hf (hc.placeholder r w hs)]
    cases t.find? r.label with
    | none => exact .error (LinkError.undefinedLabel r.position r.label)
    | some a =>
      have hslice : Mirrors (LinkError.rename f) Eq ((Bits.slice a r.hi r.lo).mapError .fault)
          ((Bits.slice a r.hi r.lo).mapError .fault) := by
        cases Bits.slice a r.hi r.lo with
        | ok v => exact .ok rfl
        | error b => exact .fault b
      exact hslice.bind_same fun v => .ok rfl

end LabelTable

/-! ### Bytes -/

namespace ImageByte

def rename (f : Text → Text) (b : ImageByte) : ImageByte := { b with label := Cell.newLabel f b.label }

/-- The label of a cell is passed on to its byte and does nothing else. -/
theorem ofCell_relabel {c : Cell} {i : Nat} {b : ImageByte} (h : ofCell c i = .ok b) :
    ofCell { c with label := Cell.newLabel f c.label } i = .ok (b.rename f) := by
  unfold ofCell at h ⊢
  have hbyte : Cell.byte? { c with label := Cell.newLabel f c.label } = c.byte? := rfl
  have hwidth : Cell.width { c with label := Cell.newLabel f c.label } = c.width := rfl
  rw [hbyte, hwidth]
  cases hv : c.byte? with
  | none =>
    rw [hv] at h
    cases h
  | some v =>
    rw [hv] at h
    dsimp only at h ⊢
    by_cases hw : c.width = cellBits
    · rw [if_pos hw] at h ⊢
      cases h
      rfl
    · rw [if_neg hw] at h
      cases h

end ImageByte

namespace LabelTable
variable {t t' : LabelTable}

theorem resolveCell_mirrors {c : Cell} (hf : Renames f labels) (h : Renamed f labels t t')
    (hc : c.LabelsIn labels) (hw : c.Whole) :
    Mirrors (LinkError.rename f)
      (fun d d' => ∃ b : ImageByte, ∀ i, ImageByte.ofCell d i = .ok b ∧ ImageByte.ofCell d' i = .ok (b.rename f))
      (t.resolveCell c) (t'.resolveCell (c.rename f)) := by
  have hsegments : Mirrors (LinkError.rename f) (List.Forall₂ Eq) (c.segments.mapM t.fill)
      ((c.segments.map (Segment.rename f)).mapM t'.fill) :=
    Mirrors.mapM fun s hs => fill_mirrors hf h hc hs
  have hcells : Mirrors (LinkError.rename f) (fun d d' => d' = { d with label := Cell.newLabel f d.label })
      (t.resolveCell c) (t'.resolveCell (c.rename f)) := by
    refine hsegments.bind fun ss ss' hss => ?_
    rw [List.forall₂_eq_eq_eq] at hss
    rw [← hss]
    exact .ok rfl
  refine hcells.results.mono fun d d' hd => ?_
  obtain ⟨rfl, hres, -⟩ := hd
  obtain ⟨⟨b, hb, -⟩, -⟩ := exists_byte_of_resolveCell hw hres
  exact ⟨_, fun i => ⟨hb i, ImageByte.ofCell_relabel (hb i)⟩⟩

end LabelTable

namespace Image

/-- Images of a program and of the renamed one. -/
structure Renamed (f : Text → Text) (img img' : Image) : Prop where
  bytes : img'.bytes = img.bytes.map (ImageByte.rename f)
  labels : img'.labels.entries = img.labels.entries.map fun e => (f e.1, e.2)

theorem bytes_renamed {ds ds' : List Cell} (h : List.Forall₂ (fun d d' => ∃ b : ImageByte,
      ∀ i, ImageByte.ofCell d i = .ok b ∧ ImageByte.ofCell d' i = .ok (b.rename f)) ds ds') (k : Nat) :
    ∃ bytes, (ds.zipIdx k).mapM (fun (c, index) => ImageByte.ofCell c index) = .ok bytes ∧
      (ds'.zipIdx k).mapM (fun (c, index) => ImageByte.ofCell c index) = .ok (bytes.map (ImageByte.rename f)) := by
  induction h generalizing k with
  | nil => exact ⟨[], rfl, rfl⟩
  | cons hd _ ih =>
    obtain ⟨b, hb⟩ := hd
    obtain ⟨bytes, hbytes, hbytes'⟩ := ih (k + 1)
    refine ⟨b :: bytes, ?_, ?_⟩
    · rw [List.zipIdx_cons, List.mapM_cons, hbytes]
      exact except_bind_eq_ok.mpr ⟨_, (hb k).1, rfl⟩
    · rw [List.zipIdx_cons, List.mapM_cons, hbytes']
      exact except_bind_eq_ok.mpr ⟨_, (hb k).2, rfl⟩

theorem link_mirrors {cells : List Cell} (hf : Renames f labels) (hc : ∀ c ∈ cells, c.LabelsIn labels)
    (hw : ∀ c ∈ cells, c.Whole) :
    Mirrors (LinkError.rename f) (Renamed f) (link strict cells) (link strict (cells.map (Cell.rename f))) := by
  refine (LabelTable.ofCells_mirrors hf hc).bind fun t t' ht => ?_
  refine (Mirrors.mapM fun c hm => LabelTable.resolveCell_mirrors hf ht (hc c hm) (hw c hm)).bind fun ds ds' hds => ?_
  obtain ⟨bytes, hbytes, hbytes'⟩ := bytes_renamed hds 0
  rw [hbytes, hbytes']
  exact .ok ⟨rfl, ht.entries⟩

end Image

/-! ### Programs -/

namespace Program
variable {p : Program}

/-- The image of a program without inclusions. -/
def image (table : InstructionTable) (strict : Bool) (p : Program) : Except (Failure AssemblyError) Image := do
  let cells ← (p.encode table strict).mapError (·.mapError .encode)
  (Image.link strict cells).mapError (·.mapError .link)

/-- It is what an assembly makes of its program. -/
theorem map_image_assemble (a : Assembler) (file text : Text) :
    (a.assemble file text).outcome.map Assembly.image =
      (a.program file text).outcome >>= image a.table a.strict := by
  rw [Assembler.assemble, Logged.outcome_bind]
  cases (a.program file text).outcome with
  | error e => rfl
  | ok p =>
    show Except.map _ (Logged.outcome (_ >>= _)) = p.image a.table a.strict
    rw [Logged.outcome_bind, image]
    cases p.encode a.table a.strict with
    | error e => rfl
    | ok cells =>
      show Except.map _ (Logged.outcome (_ >>= fun _ => _ >>= _)) = (Image.link a.strict cells).mapError _
      rw [Logged.outcome_bind_of_ok rfl, Logged.outcome_bind]
      cases Image.link a.strict cells <;> rfl

theorem image_mirrors (hn : [] ∉ p.labels) (hf : Renames f p.labels) (table : InstructionTable) (strict : Bool) :
    Mirrors (AssemblyError.rename f) (Image.Renamed f) (p.image table strict) ((p.rename f).image table strict) := by
  have hcells : Mirrors (AssemblyError.rename f) _ ((p.encode table strict).mapError (·.mapError .encode))
      (((p.rename f).encode table strict).mapError (·.mapError .encode)) :=
    (encode_mirrors hn).results.mapError fun _ => rfl
  refine hcells.bind fun cells cells' h => ?_
  obtain ⟨hcells, hencode, -⟩ := h
  rw [hcells.eq]
  exact (Image.link_mirrors hf (labelsIn_of_encode hn hencode) hcells.whole).mapError fun _ => rfl

/-- A program with other names for its labels has an image exactly if the program has one: the same bytes
at the same addresses under the new names. Otherwise it fails for the same reason. -/
theorem image_rename (hn : [] ∉ p.labels) (hf : Renames f p.labels) (table : InstructionTable) (strict : Bool) :
    ((∃ img, (p.rename f).image table strict = .ok img) ↔ ∃ img, p.image table strict = .ok img) ∧
      (∀ img, p.image table strict = .ok img → ∃ img', (p.rename f).image table strict = .ok img' ∧
        img'.raw = img.raw ∧
        img'.bytes.map ImageByte.label = (img.bytes.map ImageByte.label).map (Cell.newLabel f) ∧
        img'.labels.entries = img.labels.entries.map fun e => (f e.1, e.2)) ∧
      (∀ e, p.image table strict = .error (.error e) →
        (p.rename f).image table strict = .error (.error (e.rename f)) ∧
          (e.rename f).position? = e.position?) ∧
      ∀ b, p.image table strict = .error (.fault b) → (p.rename f).image table strict = .error (.fault b) := by
  have hmirrors := image_mirrors hn hf table strict
  generalize p.image table strict = x, (p.rename f).image table strict = y at hmirrors
  rcases hmirrors with @⟨img, img', h⟩ | e | b
  · refine ⟨⟨fun _ => ⟨img, rfl⟩, fun _ => ⟨img', rfl⟩⟩, ?_, ?_, ?_⟩
    · rintro _ ⟨⟩
      refine ⟨img', rfl, ?_, ?_, h.labels⟩
      · rw [Image.raw, h.bytes, List.map_map]
        rfl
      · rw [h.bytes, List.map_map, List.map_map]
        rfl
    · rintro _ ⟨⟩
    · rintro _ ⟨⟩
  · refine ⟨⟨by rintro ⟨_, ⟨⟩⟩, by rintro ⟨_, ⟨⟩⟩⟩, by rintro _ ⟨⟩, ?_, by rintro _ ⟨⟩⟩
    rintro _ ⟨⟩
    exact ⟨rfl, e.position?_rename f⟩
  · refine ⟨⟨by rintro ⟨_, ⟨⟩⟩, by rintro ⟨_, ⟨⟩⟩⟩, by rintro _ ⟨⟩, by rintro _ ⟨⟩, ?_⟩
    rintro _ ⟨⟩
    rfl

/-- Two labels exchange their names, one before and one after the jump to it. -/
theorem image_rename_exchange :
    let f : Text → Text := fun l =>
      if l = lit "_a" then lit "_b" else if l = lit "_b" then lit "_a" else l
    ∃ ts p img, Scan.tokens (lit "f") (lit ".inst\n_a: jump _b\n_b: jump _a") = .ok ts ∧
      ofTokens .builtin ts = .ok p ∧ Renames f p.labels ∧
      (p.rename f).image .builtin true = .ok img ∧ img.labels.entries = [(lit "_b", 0), (lit "_a", 8)] := by
  intro f
  have h : ((Scan.tokens (lit "f") (lit ".inst\n_a: jump _b\n_b: jump _a")).toOption.bind fun ts =>
      (ofTokens .builtin ts).toOption.bind fun p => (p.image .builtin true).toOption.map fun img =>
        (p.labels, img.labels.entries)) =
      some ([lit "_a", lit "_b", lit "_b", lit "_a"], [(lit "_a", 0), (lit "_b", 8)]) := by
    decide +kernel
  simp only [Option.bind_eq_some_iff, Option.map_eq_some_iff, except_toOption_eq_some, Prod.mk.injEq] at h
  obtain ⟨ts, hscan, p, hread, img, himg, hlabels, hentries⟩ := h
  have hf : Renames f p.labels := by
    rw [hlabels]
    exact ⟨by decide +kernel, by decide +kernel⟩
  have hn : [] ∉ p.labels := by
    rw [hlabels]
    decide +kernel
  obtain ⟨-, hok, -⟩ := image_rename hn hf .builtin true
  obtain ⟨img', himg', -, -, htable⟩ := hok img himg
  refine ⟨ts, p, img', hscan, hread, hf, himg', ?_⟩
  rw [htable, hentries]
  decide +kernel

end Program
end AccAsm
