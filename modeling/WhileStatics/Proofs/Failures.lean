import WhileStatics.Proofs.Outcomes

/-!
# Failures of computations

`FailsOnly P x` says that a computation yields a value or fails with something
that has the property `P`. A computation of several steps fails with what its
first failing step fails with, so the property passes from the steps to the
whole, and a later step may rely on the values of the earlier ones.
-/

namespace WhileStatics

variable {ε α β : Type} {P : ε → Prop}

/-- Whatever the computation fails with has the property. -/
def FailsOnly (P : ε → Prop) (x : Except ε α) : Prop :=
  ∀ e, x = .error e → P e

@[simp] theorem failsOnly_ok (a : α) : FailsOnly P (.ok a : Except ε α) := by
  intro e he
  cases he

@[simp] theorem failsOnly_pure (a : α) : FailsOnly P (pure a : Except ε α) :=
  failsOnly_ok a

@[simp] theorem failsOnly_error_iff {e : ε} :
    FailsOnly P (.error e : Except ε α) ↔ P e := by
  simp [FailsOnly]

theorem FailsOnly.mono {Q : ε → Prop} {x : Except ε α} (h : FailsOnly P x)
    (hPQ : ∀ e, P e → Q e) : FailsOnly Q x :=
  fun e he => hPQ e (h e he)

/-- A computation that has nothing to fail with yields a value. -/
theorem FailsOnly.exists_ok {x : Except ε α} (h : FailsOnly (fun _ => False) x) :
    ∃ a, x = .ok a := by
  cases x with
  | error e => exact (h e rfl).elim
  | ok a => exact ⟨a, rfl⟩

theorem FailsOnly.bind {x : Except ε α} {f : α → Except ε β} (hx : FailsOnly P x)
    (hf : ∀ a, x = .ok a → FailsOnly P (f a)) : FailsOnly P (x.bind f) := by
  cases x with
  | error e => simpa [Except.bind] using hx
  | ok a => exact hf a rfl

theorem FailsOnly.bindM {x : Except ε α} {f : α → Except ε β} (hx : FailsOnly P x)
    (hf : ∀ a, x = .ok a → FailsOnly P (f a)) : FailsOnly P (x >>= f) :=
  hx.bind hf

/-- A fault that is reported at a span is the fault of the computation itself. -/
theorem failsOnly_atSpan_iff {P : Failure → Prop} {span : Span} {x : Except Fault α}
    {path? : Option String} :
    FailsOnly P (atSpan span x path?) ↔ FailsOnly (fun fault => P ⟨fault, span, path?⟩) x := by
  cases x <;> simp

/-- A pass over a list fails with what it fails with on some item. -/
theorem Logged.failsOnly_mapM {P : Failure → Prop} {f : α → Logged β} {as : List α}
    (h : ∀ a ∈ as, FailsOnly P (f a).result) : FailsOnly P (as.mapM f).result := by
  induction as with
  | nil => simp
  | cons a as ih =>
      rw [List.forall_mem_cons] at h
      rw [List.mapM_cons, Logged.result_bind]
      refine h.1.bind fun b _ => ?_
      rw [Logged.result_bind]
      refine (ih h.2).bind fun bs _ => ?_
      rw [Logged.result_pure]
      exact failsOnly_ok _

/-- A walk goes on with the value of its first part, in the scope that this part leaves. -/
theorem Walk.failsOnly_bind {P : Failure → Prop} {w : Walk α} {f : α → Walk β} {scope : Scope}
    (hw : FailsOnly P (w.result scope))
    (hf : ∀ a, w.result scope = .ok a → FailsOnly P ((f a).result (w.scopeAfter scope))) :
    FailsOnly P ((w >>= f).result scope) := by
  rw [Walk.result_bind]
  exact hw.bind hf

end WhileStatics
