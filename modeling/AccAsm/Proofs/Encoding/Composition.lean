import AccAsm.Proofs.Encoding.Validity
import Mathlib.Logic.Relation

/-! # Programs put together

What has been put out only stays in front of what follows (`Emission.fields_behind`). So, if two programs have
encodings, the program with the fields of both has the one encoding behind the other. An error in the first
program ends this encoding too, unless it is that of a label which waits at the end of the program
(`Program.Dangles`): what follows may give that label its cell. Where one field ends and the next begins makes no
difference (`Field.Splits`). -/

namespace AccAsm
open Text (lit)

/-- Two lists of fields that differ in one field of the first, which is two fields of the second. -/
inductive Field.Splits : List Field → List Field → Prop
  | split (before after : List Field) {f g h : Field} (hf : f.isInclusion = false) (hg : g.isInclusion = false)
      (hh : h.isInclusion = false) (hitems : f.items = g.items ++ h.items) :
      Splits (before ++ f :: after) (before ++ g :: h :: after)

/-- All fields of the program are encoded, and the label waits for a cell then. -/
def Program.Dangles (table : InstructionTable) (strict : Bool) (p : Program) (name : Lexeme) : Prop :=
  ∃ e, p.fields.foldlM (Emission.field table strict) {} = .ok e ∧ e.pending = some name

namespace Emission
variable {table : InstructionTable} {strict : Bool} {e e' : Emission} {f : Field} {fields fields' : List Field}

/-- The emission with other cells in front. -/
def behind (front : Array Cell) (e : Emission) : Emission := ⟨front ++ e.cells, e.pending⟩

theorem emit_behind (front : Array Cell) (e : Emission) (cells : List Cell) :
    (e.behind front).emit cells = (e.emit cells).behind front := by
  obtain ⟨done, pending⟩ := e
  unfold emit
  cases cells with
  | nil => rfl
  | cons c rest => cases pending <;> simp [behind, ← Array.toList_inj]

theorem declare_behind (front : Array Cell) (e : Emission) (name : Lexeme) :
    (e.behind front).declare name = behind front <$> e.declare name := by
  obtain ⟨done, pending⟩ := e
  cases pending <;> rfl

theorem item_behind (front : Array Cell) (e : Emission) (i : Item) :
    (e.behind front).item table strict i = behind front <$> e.item table strict i := by
  cases hi : i.isLabel with
  | true =>
    cases i with
    | label name => exact declare_behind front e name
    | data position d | instruction position mnemonic o | pseudo position p => cases hi
  | false =>
    rw [item_eq hi, item_eq hi, map_bind]
    refine bind_congr fun cells => ?_
    rw [emit_behind, map_pure]

theorem field_behind (front : Array Cell) (e : Emission) (f : Field) :
    (e.behind front).field table strict f = behind front <$> e.field table strict f := by
  cases f with
  | data position items | code position items => exact foldlM_hom (item_behind front)
  | inclusion position path => rfl

theorem fields_behind (front : Array Cell) (fields : List Field) (e : Emission) :
    fields.foldlM (field table strict) (e.behind front) =
      behind front <$> fields.foldlM (field table strict) e :=
  foldlM_hom (field_behind front)

theorem finish_eq_ok {cells : List Cell} : e.finish = .ok cells ↔ e = ⟨cells.toArray, none⟩ := by
  obtain ⟨done, pending⟩ := e
  cases pending with
  | some name =>
    constructor
    · rintro ⟨⟩
    · rintro ⟨⟩
  | none =>
    constructor
    · intro h
      obtain rfl : done.toList = cells := Except.ok.inj h
      rfl
    · rintro ⟨⟩
      rfl

theorem field_eq (hf : f.isInclusion = false) :
    e.field table strict f = f.items.foldlM (item table strict) e := by
  cases f with
  | data position items | code position items => rfl
  | inclusion position path => cases hf

theorem fields_of_splits (h : Field.Splits fields fields') (e : Emission) :
    fields.foldlM (field table strict) e = fields'.foldlM (field table strict) e := by
  obtain ⟨before, after, hf, hg, hh, hitems⟩ := h
  rw [List.foldlM_append, List.foldlM_append]
  refine bind_congr fun e₁ => ?_
  simp only [List.foldlM_cons, field_eq hf, field_eq hg, field_eq hh, hitems, List.foldlM_append, bind_assoc]

end Emission

namespace Program
variable {table : InstructionTable} {strict : Bool} {p q : Program} {name : Lexeme} {u v : List Cell}
  {f : Failure EncodeError}

theorem encode_append (hp : p.encode table strict = .ok u) (hq : q.encode table strict = .ok v)
    (position : Position) : encode table strict ⟨position, p.fields ++ q.fields⟩ = .ok (u ++ v) := by
  obtain ⟨e, hrun, hfinish⟩ := except_bind_eq_ok.mp hp
  obtain ⟨e', hrun', hfinish'⟩ := except_bind_eq_ok.mp hq
  obtain rfl := Emission.finish_eq_ok.mp hfinish
  obtain rfl := Emission.finish_eq_ok.mp hfinish'
  -- no label waits between the two programs, so the second one starts as if it stood alone
  have hstart : (⟨u.toArray, none⟩ : Emission) = Emission.behind u.toArray {} := by simp [Emission.behind]
  rw [encode, List.foldlM_append, hrun]
  show q.fields.foldlM (Emission.field table strict) ⟨u.toArray, none⟩ >>= Emission.finish = _
  rw [hstart, Emission.fields_behind, hrun']
  have hend : Emission.behind u.toArray ⟨v.toArray, none⟩ = ⟨(u ++ v).toArray, none⟩ := by simp [Emission.behind]
  exact Emission.finish_eq_ok.mpr hend

theorem encode_of_dangles (h : p.Dangles table strict name) :
    p.encode table strict = .error (.error (.danglingLabel name.position name.text [])) := by
  obtain ⟨e, hrun, hpending⟩ := h
  rw [encode, hrun]
  show e.finish = _
  rw [Emission.finish, hpending]
  rfl

theorem fields_of_encode (h : p.encode table strict = .error f) (hd : ∀ name, ¬ p.Dangles table strict name) :
    p.fields.foldlM (Emission.field table strict) {} = .error f := by
  cases hrun : p.fields.foldlM (Emission.field table strict) {} with
  | error g =>
    rw [encode, hrun] at h
    cases h
    rfl
  | ok e =>
    rw [encode, hrun] at h
    have hfinish : e.finish = .error f := h
    unfold Emission.finish at hfinish
    split at hfinish
    next name hpending => exact absurd ⟨e, hrun, hpending⟩ (hd name)
    next => cases hfinish

theorem encode_append_of_error (h : p.encode table strict = .error f)
    (hd : ∀ name, ¬ p.Dangles table strict name) (q : Program) (position : Position) :
    encode table strict ⟨position, p.fields ++ q.fields⟩ = .error f := by
  rw [encode, List.foldlM_append, fields_of_encode h hd]
  rfl

/-- A single cell behind a waiting label is enough. -/
theorem encode_append_of_dangles (h : p.Dangles table strict name) (position : Position) :
    ∃ (q : Program) (cells : List Cell), encode table strict ⟨position, p.fields ++ q.fields⟩ = .ok cells := by
  obtain ⟨e, hrun, -⟩ := h
  let i : Item := .data {} (.space ⟨{}, lit "1"⟩)
  let c : Cell := { segments := [Encoding.zeros 8] }
  have hi : Encoding.item table strict i = .ok [c] := by
    show Encoding.space {} ⟨{}, lit "1"⟩ = .ok [c]
    decide +kernel
  have hfield : e.field table strict (.data {} [i]) = .ok (e.emit [c]) := by
    rw [Emission.field_eq rfl]
    show (e.item table strict i >>= pure) = _
    rw [bind_pure, Emission.item_eq rfl, hi]
    rfl
  refine ⟨⟨{}, [.data {} [i]]⟩, (e.emit [c]).cells.toList, ?_⟩
  rw [encode, List.foldlM_append, hrun]
  show (e.field table strict (.data {} [i]) >>= pure) >>= Emission.finish = _
  rw [bind_pure, hfield]
  have hsettled : (e.emit [c]).pending = none := by
    rw [Emission.pending_emit, if_neg (List.cons_ne_nil c [])]
  show (e.emit [c]).finish = _
  rw [Emission.finish, hsettled]
  rfl

theorem encode_of_splits (h : Relation.EqvGen Field.Splits p.fields q.fields) :
    p.encode table strict = q.encode table strict := by
  have hrun {fields fields' : List Field} (h : Relation.EqvGen Field.Splits fields fields') :
      fields.foldlM (Emission.field table strict) {} = fields'.foldlM (Emission.field table strict) {} := by
    induction h with
    | rel fields fields' h => exact Emission.fields_of_splits h {}
    | refl fields => rfl
    | symm fields fields' _ ih => exact ih.symm
    | trans fields fields' fields'' _ _ ih ih' => exact ih.trans ih'
  rw [encode, hrun h, encode]

/-- Programs with encodings can be put together, and so can their encodings; a program with an error cannot
be mended by what follows it, unless a label waits at its end; and fields can be split and merged. -/
theorem encode_compositional (table : InstructionTable) (strict : Bool) :
    (∀ (p q : Program) (u v : List Cell) (position : Position), p.encode table strict = .ok u →
      q.encode table strict = .ok v → encode table strict ⟨position, p.fields ++ q.fields⟩ = .ok (u ++ v)) ∧
    (∀ (p : Program) (f : Failure EncodeError), p.encode table strict = .error f →
      (∀ name, p.Dangles table strict name → f ≠ .error (.danglingLabel name.position name.text [])) →
        ∀ (q : Program) (position : Position),
          encode table strict ⟨position, p.fields ++ q.fields⟩ = .error f) ∧
    (∀ (p : Program) (name : Lexeme), p.Dangles table strict name →
      p.encode table strict = .error (.error (.danglingLabel name.position name.text [])) ∧
        ∀ position, ∃ (q : Program) (cells : List Cell),
          encode table strict ⟨position, p.fields ++ q.fields⟩ = .ok cells) ∧
    ∀ p q : Program, Relation.EqvGen Field.Splits p.fields q.fields →
      p.encode table strict = q.encode table strict := by
  refine ⟨?_, ?_, ?_, ?_⟩
  · intro p q u v position hp hq
    exact encode_append hp hq position
  · intro p f h hf q position
    refine encode_append_of_error h (fun name hd => hf name hd ?_) q position
    exact Except.error.inj (h.symm.trans (encode_of_dangles hd))
  · intro p name h
    exact ⟨encode_of_dangles h, encode_append_of_dangles h⟩
  · intro p q h
    exact encode_of_splits h

/-- A label and its byte in one field and in two, a byte that is out of bounds, and a label at the end. -/
theorem encode_compositional_label :
    let a : Lexeme := ⟨{}, lit "_a"⟩
    let byte (n : Text) : Item := .data {} (.bytes [⟨{}, n⟩])
    let p : Program := ⟨{}, [.data {} [.label a, byte (lit "1")]]⟩
    let p' : Program := ⟨{}, [.data {} [.label a], .code {} [byte (lit "1")]]⟩
    let q : Program := ⟨{}, [.code {} [.pseudo {} (.jump (.label a))]]⟩
    let large : Program := ⟨{}, [.data {} [byte (lit "256")]]⟩
    let waiting : Program := ⟨{}, [.data {} [.label a]]⟩
    let e : EncodeError := .numberOutOfBounds {} (lit ".byte") 8 (lit "256")
    (∃ u v, p.encode .builtin true = .ok u ∧ q.encode .builtin true = .ok v ∧
      encode .builtin true ⟨{}, p.fields ++ q.fields⟩ = .ok (u ++ v)) ∧
    (large.encode .builtin true = .error (.error e) ∧
      encode .builtin true ⟨{}, large.fields ++ q.fields⟩ = .error (.error e)) ∧
    (waiting.Dangles .builtin true a ∧
      ∃ (r : Program) (cells : List Cell), encode .builtin true ⟨{}, waiting.fields ++ r.fields⟩ = .ok cells) ∧
    Relation.EqvGen Field.Splits p.fields p'.fields ∧ p.encode .builtin true = p'.encode .builtin true := by
  intro a byte p p' q large waiting e
  obtain ⟨happend, herror, hdangles, hsplits⟩ := encode_compositional .builtin true
  have hencodes : (p.encode .builtin true).toOption.isSome ∧ (q.encode .builtin true).toOption.isSome := by
    decide +kernel
  simp only [Option.isSome_iff_exists, except_toOption_eq_some] at hencodes
  obtain ⟨⟨u, hu⟩, v, hv⟩ := hencodes
  have hlarge : large.encode .builtin true = .error (.error e) := by decide +kernel
  have hwaiting : waiting.Dangles .builtin true a := ⟨⟨#[], some a⟩, rfl, rfl⟩
  have hsplit : Relation.EqvGen Field.Splits p.fields p'.fields := .rel _ _ (.split [] [] rfl rfl rfl rfl)
  refine ⟨⟨u, v, hu, hv, happend p q u v {} hu hv⟩, ⟨hlarge, ?_⟩, ⟨hwaiting, ?_⟩, hsplit, hsplits p p' hsplit⟩
  · refine herror large _ hlarge ?_ q {}
    intro name _
    simp [e]
  · exact (hdangles waiting a hwaiting).2 {}

end Program
end AccAsm
