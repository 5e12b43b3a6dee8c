import AccAsm.Instruction
import AccAsm.Proofs.Traversal
import Mathlib.Data.List.Nodup

/-! # Instruction tables by their rows

A table is its rows. Building one from a list succeeds exactly if there is a table with these rows
(`ofList_eq_ok`), and a look-up finds the row of the mnemonic in lower case (`find?_eq_some`). -/

namespace AccAsm
namespace InstructionTable
variable {s t table : InstructionTable} {rows : List Instruction}

theorem eq_of_rows (h : s.rows = t.rows) : s = t := by
  cases s
  cases t
  subst h
  rfl

theorem exists_rows_of_sublist (h : rows.Sublist t.rows) : ∃ s : InstructionTable, s.rows = rows :=
  ⟨⟨rows, fun i hi => t.mnemonic_ne_nil i (h.subset hi), fun i hi => t.opcode_lt i (h.subset hi),
    (h.map Instruction.mnemonic).nodup t.nodup⟩, rfl⟩

theorem add_eq_ok {i : Instruction} : s.add i = .ok t ↔ t.rows = s.rows ++ [i] := by
  unfold add
  constructor
  · intro h
    split at h
    · cases h
    · split at h
      · cases h
      · split at h
        · cases h
        · cases h
          rfl
  · intro h
    have hi : i ∈ t.rows := by rw [h]; exact List.mem_concat_self
    have hnew : i.mnemonic ∉ s.rows.map Instruction.mnemonic := by
      have hnodup := t.nodup
      rw [h, List.map_append, List.nodup_append] at hnodup
      exact fun hm => hnodup.2.2 _ hm _ (.head _) rfl
    rw [dif_neg (t.mnemonic_ne_nil i hi), dif_neg (Nat.not_le.mpr (t.opcode_lt i hi)), dif_neg hnew]
    exact congrArg Except.ok (eq_of_rows h.symm)

/-- Rows make a table exactly if there is one of these rows. -/
theorem ofList_eq_ok : ofList rows = .ok t ↔ t.rows = rows := by
  have hfold (rows : List Instruction) (s : InstructionTable) :
      rows.foldlM add s = .ok t ↔ t.rows = s.rows ++ rows := by
    induction rows generalizing s with
    | nil =>
      rw [List.append_nil]
      exact ⟨fun h => by cases h; rfl, fun h => congrArg Except.ok (eq_of_rows h.symm)⟩
    | cons i rows ih =>
      rw [List.foldlM_cons, except_bind_eq_ok]
      constructor
      · rintro ⟨s', hs', h⟩
        rw [(ih s').mp h, add_eq_ok.mp hs', List.append_assoc, List.singleton_append]
      · intro h
        have hsub : (s.rows ++ [i]).Sublist t.rows := by
          rw [h]
          exact (List.Sublist.refl s.rows).append (List.singleton_sublist.mpr (.head _))
        obtain ⟨s', hs'⟩ := exists_rows_of_sublist hsub
        exact ⟨s', add_eq_ok.mpr hs', (ih s').mpr (by rw [hs', List.append_assoc, List.singleton_append, h])⟩
  exact hfold rows empty

theorem find?_eq_some {m : Text} {i : Instruction} :
    table.find? m = some i ↔ i ∈ table.rows ∧ i.mnemonic = LowerCase.lower m := by
  have hfound {j : Instruction} (h : table.find? m = some j) : j.mnemonic = LowerCase.lower m := by
    have hb := List.find?_some h
    exact eq_of_beq hb
  constructor
  · intro h
    exact ⟨List.mem_of_find?_eq_some h, hfound h⟩
  · rintro ⟨hi, hm⟩
    have hsome : (table.find? m).isSome := by
      rw [find?, List.find?_isSome]
      exact ⟨i, hi, beq_iff_eq.mpr hm⟩
    obtain ⟨j, hj⟩ := Option.isSome_iff_exists.mp hsome
    rw [hj, List.inj_on_of_nodup_map table.nodup (List.mem_of_find?_eq_some hj) hi ((hfound hj).trans hm.symm)]

end InstructionTable
end AccAsm
