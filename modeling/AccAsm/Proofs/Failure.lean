import AccAsm.Assembly.Log
import AccAsm.Proofs.Traversal

/-! # Failures

`Failure.Only P x`: whatever makes `x` fail is an error of which `P` holds, and no fault.
`Failure.Meets P Q x`: besides, `Q` holds of the result if there is one. Both are shown step by step
along a computation, where a later step may rely on what the earlier ones have established. -/

namespace AccAsm

namespace Failure
variable {ε δ α β : Type} {P Q : ε → Prop}

/-- Whatever makes `x` fail is an error of which `P` holds. -/
def Only (P : ε → Prop) (x : Except (Failure ε) α) : Prop :=
  ∀ f, x = .error f → ∃ e, f = .error e ∧ P e

theorem only_ok (a : α) : Only P (.ok a : Except (Failure ε) α) := fun _ h => nomatch h

theorem only_error {e : ε} (h : P e) : Only P (.error (.error e) : Except (Failure ε) α) := by
  intro f hf
  cases hf
  exact ⟨e, rfl, h⟩

theorem Only.mono {x : Except (Failure ε) α} (hx : Only P x) (h : ∀ e, P e → Q e) : Only Q x := by
  intro f hf
  obtain ⟨e, rfl, he⟩ := hx f hf
  exact ⟨e, rfl, h e he⟩

theorem Only.exists_ok {x : Except (Failure ε) α} (h : Only (fun _ => False) x) : ∃ a, x = .ok a := by
  cases x with
  | ok a => exact ⟨a, rfl⟩
  | error f =>
    obtain ⟨e, -, he⟩ := h f rfl
    exact he.elim

theorem Only.bind {x : Except (Failure ε) α} {f : α → Except (Failure ε) β} (hx : Only P x)
    (hf : ∀ a, x = .ok a → Only P (f a)) : Only P (x >>= f) := by
  cases x with
  | error e => exact fun g hg => hx g (by cases hg; rfl)
  | ok a => exact hf a rfl

theorem Only.mapM {f : α → Except (Failure ε) β} {l : List α} (hf : ∀ a ∈ l, Only P (f a)) :
    Only P (l.mapM f) := by
  induction l with
  | nil => exact only_ok _
  | cons a l ih =>
    obtain ⟨ha, hl⟩ := List.forall_mem_cons.mp hf
    rw [List.mapM_cons]
    exact ha.bind fun b _ => (ih hl).bind fun bs _ => only_ok _

theorem Only.mapError {R : δ → Prop} {x : Except (Failure ε) α} (f : ε → δ) (hx : Only P x)
    (h : ∀ e, P e → R (f e)) : Only R (x.mapError (·.mapError f)) := by
  cases x with
  | ok a => exact only_ok a
  | error e =>
    obtain ⟨e, rfl, he⟩ := hx e rfl
    exact only_error (h e he)

theorem Only.logged {P : AssemblyError → Prop} {x : Logged α} {f : α → Logged β}
    (hx : Only P x.outcome) (hf : ∀ a, x.outcome = .ok a → Only P (f a).outcome) :
    Only P (x >>= f).outcome := by
  rw [Logged.outcome_bind]
  exact hx.bind hf

/-! ### Results -/

/-- If `x` succeeds, `Q` holds of the result; if it fails, `P` holds of the error. -/
structure Meets (P : ε → Prop) (Q : α → Prop) (x : Except (Failure ε) α) : Prop where
  ok : ∀ a, x = .ok a → Q a
  only : Only P x

theorem meets_ok {Q : α → Prop} {a : α} (h : Q a) : Meets P Q (.ok a) :=
  ⟨fun _ hb => Except.ok.inj hb ▸ h, only_ok a⟩

theorem meets_error {Q : α → Prop} {e : ε} (h : P e) : Meets P Q (.error (.error e)) :=
  ⟨fun _ hb => (nomatch hb), only_error h⟩

theorem Meets.bind {Q : α → Prop} {R : β → Prop} {x : Except (Failure ε) α}
    {f : α → Except (Failure ε) β} (hx : Meets P Q x) (hf : ∀ a, Q a → Meets P R (f a)) :
    Meets P R (x >>= f) where
  ok b hb := by
    obtain ⟨a, ha, hb⟩ := except_bind_eq_ok.mp hb
    exact (hf a (hx.ok a ha)).ok b hb
  only := hx.only.bind fun a ha => (hf a (hx.ok a ha)).only

theorem Meets.mono {Q R : α → Prop} {P' : ε → Prop} {x : Except (Failure ε) α} (hx : Meets P Q x)
    (he : ∀ e, P e → P' e) (h : ∀ a, Q a → R a) : Meets P' R x :=
  ⟨fun a ha => h a (hx.ok a ha), hx.only.mono he⟩

theorem Meets.mapM {Q : α → β → Prop} {f : α → Except (Failure ε) β} {l : List α}
    (hf : ∀ a ∈ l, Meets P (Q a) (f a)) : Meets P (List.Forall₂ Q l) (l.mapM f) := by
  induction l with
  | nil => exact meets_ok .nil
  | cons a l ih =>
    obtain ⟨ha, hl⟩ := List.forall_mem_cons.mp hf
    rw [List.mapM_cons]
    exact ha.bind fun b hb => (ih hl).bind fun bs hbs => meets_ok (.cons hb hbs)

/-- A fold establishes what each of its steps adds. -/
theorem Meets.foldlM {I : List α → β → Prop} {f : β → α → Except (Failure ε) β} {l : List α} {b : β}
    (done : List α) (hb : I done b)
    (hf : ∀ done a b, a ∈ l → I done b → Meets P (I (done ++ [a])) (f b a)) :
    Meets P (I (done ++ l)) (l.foldlM f b) := by
  induction l generalizing done b with
  | nil => exact meets_ok (by rwa [List.append_nil])
  | cons a l ih =>
    rw [List.foldlM_cons]
    refine (hf done a b (.head _) hb).bind fun b' hb' => ?_
    have := ih _ hb' fun done a' b ha => hf done a' b (.tail _ ha)
    rwa [List.append_assoc, List.singleton_append] at this

end Failure
end AccAsm
