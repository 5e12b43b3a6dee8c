import AccAsm.Command.Options
import AccAsm.Proofs.Text.Path
import Mathlib.Data.List.Nodup

/-! # Where a run writes

The name of an output is that of its input with another extension, unless it is given. Outputs of two inputs
have the same name exactly if the inputs differ in their extensions at most, and an output has the name of an
input exactly if that has the extension of an output already. Neither is checked before a run. Names are
compared after cleaning. Two of them that differ can still lead to one file, one from the root and the other
from the working directory. -/

namespace AccAsm
open Text (byte lit)

variable {o : Options} {r : Rendering} {p : Text} {inputs : List Text}

/-- The cleaned names of what a run writes if nothing fails. -/
def Options.targets (o : Options) (inputs : List Text) : List Text :=
  inputs.flatMap fun p => (o.written (o.outputName p)).map Path.clean

/-- The extensions of the files that a run writes next to its inputs. -/
def Options.extensions (o : Options) (r : Rendering) : List Text :=
  r.extension :: if o.debug then [lit ".ac16db"] else []

/-! ### Extensions of outputs -/

theorem ending_symbolFile : Path.Ending (lit "ac16db") := ⟨by decide, by decide, by decide⟩

theorem Rendering.exists_ending (r : Rendering) : ∃ x, Path.Ending x ∧ r.extension = byte '.' :: x := by
  cases r with
  | binary => exact ⟨lit "bin", ⟨by decide, by decide, by decide⟩, rfl⟩
  | hex => exact ⟨lit "hex", ⟨by decide, by decide, by decide⟩, rfl⟩
  | listing => exact ⟨lit "txt", ⟨by decide, by decide, by decide⟩, rfl⟩

namespace Options

theorem mem_extensions {e : Text} :
    e ∈ o.extensions r ↔ e = r.extension ∨ o.debug = true ∧ e = lit ".ac16db" := by
  unfold extensions
  cases o.debug <;> simp

theorem exists_ending {e : Text} (he : e ∈ o.extensions r) : ∃ x, Path.Ending x ∧ e = byte '.' :: x := by
  rcases mem_extensions.mp he with rfl | ⟨-, rfl⟩
  · exact r.exists_ending
  · exact ⟨lit "ac16db", ending_symbolFile, rfl⟩

theorem nodup_extensions (o : Options) (r : Rendering) : (o.extensions r).Nodup := by
  unfold extensions
  cases o.debug <;> cases r <;> decide

theorem written_outputName (hr : Rendering.ofFormat? o.format = some r) (hout : o.out = []) :
    o.written (o.outputName p) = (o.extensions r).map (Path.stem p ++ ·) := by
  have houtput : o.outputName p = Path.stem p ++ r.extension := by
    rw [outputName, hout, hr]
    rfl
  have hsymbols : symbolFile (Path.stem p ++ r.extension) = Path.stem p ++ lit ".ac16db" := by
    obtain ⟨x, hx, hext⟩ := r.exists_ending
    rw [symbolFile, hext, hx.stem_eq]
  unfold written extensions
  rw [houtput, hsymbols]
  cases o.debug <;> rfl

/-! ### Outputs next to the inputs -/

theorem targets_eq (hr : Rendering.ofFormat? o.format = some r) (hout : o.out = [])
    (hclean : ∀ p ∈ inputs, Path.clean p = p) :
    o.targets inputs = (inputs.map Path.stem).flatMap fun s => (o.extensions r).map (s ++ ·) := by
  rw [targets, List.flatMap_map]
  refine List.flatMap_congr fun p hp => ?_
  rw [written_outputName hr hout, List.map_map]
  refine List.map_congr_left fun e he => ?_
  obtain ⟨x, hx, rfl⟩ := exists_ending he
  exact hx.clean_stem (hclean p hp)

theorem nodup_targets_iff (hr : Rendering.ofFormat? o.format = some r) (hout : o.out = [])
    (hclean : ∀ p ∈ inputs, Path.clean p = p) :
    (o.targets inputs).Nodup ↔ (inputs.map Path.stem).Nodup := by
  rw [targets_eq hr hout hclean, List.nodup_flatMap]
  have hinner : ∀ s ∈ inputs.map Path.stem, ((o.extensions r).map (s ++ ·)).Nodup := fun s _ =>
    (nodup_extensions o r).map fun _ _ => List.append_cancel_left
  refine (and_iff_right hinner).trans (List.Pairwise.iff fun s t => ?_)
  constructor
  · rintro hdisjoint rfl
    have hmem : s ++ r.extension ∈ (o.extensions r).map (s ++ ·) := List.mem_map_of_mem (.head _)
    exact hdisjoint hmem hmem
  · intro hne a ha hb
    obtain ⟨e, he, rfl⟩ := List.mem_map.mp ha
    obtain ⟨f, hf, heq⟩ := List.mem_map.mp hb
    obtain ⟨x, hx, rfl⟩ := exists_ending he
    obtain ⟨y, hy, rfl⟩ := exists_ending hf
    have hstem := congrArg Path.stem heq
    rw [hx.stem_eq, hy.stem_eq] at hstem
    exact hne hstem.symm

theorem mem_targets_iff (hr : Rendering.ofFormat? o.format = some r) (hout : o.out = [])
    (hclean : ∀ p ∈ inputs, Path.clean p = p) (hp : p ∈ inputs) :
    p ∈ o.targets inputs ↔ Path.extension p ∈ o.extensions r := by
  rw [targets_eq hr hout hclean]
  simp only [List.mem_flatMap, List.mem_map]
  constructor
  · rintro ⟨s, -, e, he, rfl⟩
    obtain ⟨x, hx, rfl⟩ := exists_ending he
    rwa [hx.extension_eq]
  · intro he
    exact ⟨Path.stem p, ⟨p, hp, rfl⟩, Path.extension p, he, Path.stem_append_extension p⟩

/-! ### Named outputs -/

theorem targets_singleton (hout : o.out ≠ []) :
    o.targets [p] =
      Path.clean o.out :: if o.debug then [Path.clean (symbolFile o.out)] else [] := by
  have houtput : o.outputName p = o.out := by
    rw [outputName, if_neg (by simpa using hout)]
  rw [targets, List.flatMap_singleton, written, houtput]
  cases o.debug <;> rfl

/-- Exactly when the outputs of a run have different names, and exactly when one of them has the name of an
input. -/
theorem targets_exact (hr : Rendering.ofFormat? o.format = some r)
    (hsingle : o.out = [] ∨ inputs.length ≤ 1) (hclean : ∀ p ∈ inputs, Path.clean p = p) :
    (o.out = [] →
      ((o.targets inputs).Nodup ↔ (inputs.map Path.stem).Nodup) ∧
      ∀ p ∈ inputs, p ∈ o.targets inputs ↔
        Path.extension p = r.extension ∨ o.debug = true ∧ Path.extension p = lit ".ac16db") ∧
    (o.out ≠ [] → ∀ p ∈ inputs,
      ((o.targets inputs).Nodup ↔ (o.debug = true → Path.extension o.out ≠ lit ".ac16db")) ∧
      (p ∈ o.targets inputs ↔
        Path.clean o.out = p ∨ o.debug = true ∧ Path.clean (symbolFile o.out) = p)) := by
  constructor
  · intro hout
    exact ⟨nodup_targets_iff hr hout hclean,
      fun p hp => (mem_targets_iff hr hout hclean hp).trans mem_extensions⟩
  · intro hout p hp
    obtain rfl : inputs = [p] := by
      rcases inputs with _ | ⟨q, _ | ⟨q', rest⟩⟩
      · cases hp
      · rw [List.mem_singleton.mp hp]
      · exact absurd (hsingle.resolve_left hout) (by simp)
    rw [targets_singleton hout]
    cases hdebug : o.debug with
    | false => simp [eq_comm]
    | true =>
      have hsymbols : Path.clean (symbolFile o.out) = Path.clean o.out ↔ Path.extension o.out = lit ".ac16db" :=
        ending_symbolFile.clean_stem_eq_clean_iff o.out
      constructor
      · rw [if_pos rfl, List.nodup_cons, List.mem_singleton, eq_comm, hsymbols]
        simp
      · simp [eq_comm]

/-- Outputs are told apart by the names of the inputs up to their extensions. -/
theorem targets_exact_debug :
    let o : Options := { debug := true }
    let inputs : List Text := [lit "a.s", lit "b/a.s", lit "../c.d.s"]
    Rendering.ofFormat? o.format = some .binary ∧ o.out = [] ∧ (∀ p ∈ inputs, Path.clean p = p) ∧
      (o.targets inputs).Nodup ∧ ∀ p ∈ inputs, p ∉ o.targets inputs := by
  intro o inputs
  have hr : Rendering.ofFormat? o.format = some .binary := by decide
  have hclean : ∀ p ∈ inputs, Path.clean p = p := by decide +kernel
  obtain ⟨hnodup, hmem⟩ := (targets_exact hr (.inl rfl) hclean).1 rfl
  refine ⟨hr, rfl, hclean, hnodup.mpr (by decide +kernel), fun p hp h => ?_⟩
  have hext : ∀ p ∈ inputs, Path.extension p ≠ lit ".bin" ∧ Path.extension p ≠ lit ".ac16db" := by decide +kernel
  rcases (hmem p hp).mp h with hbin | ⟨-, hsymbols⟩
  · exact (hext p hp).1 hbin
  · exact (hext p hp).2 hsymbols

/-- An input is written over by its own output, two inputs have the same output, and a symbol table takes
the place of its image. -/
theorem targets_collide :
    let plain : Options := {}
    let named : Options := { debug := true, out := lit "x.ac16db" }
    (Rendering.ofFormat? plain.format).isSome ∧ lit "a.bin" ∈ plain.targets [lit "a.bin"] ∧
      ¬ (plain.targets [lit "a.s", lit "a.asm"]).Nodup ∧
    (Rendering.ofFormat? named.format).isSome ∧ ¬ (named.targets [lit "a.s"]).Nodup := by
  decide +kernel

end Options
end AccAsm
