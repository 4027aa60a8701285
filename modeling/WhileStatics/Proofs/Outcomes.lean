import WhileStatics.Walk
import Mathlib.Data.List.Forall2

/-!
# Outcomes of computations

When a computation of several steps yields a value, every step yielded one. The
equivalences here take such a computation apart, whether it can only fail, also
tells events, or works on a scope as it goes.
-/

namespace WhileStatics

variable {ε α β : Type}

@[simp] theorem bind_eq_ok_iff {x : Except ε α} {f : α → Except ε β} {b : β} :
    x.bind f = .ok b ↔ ∃ a, x = .ok a ∧ f a = .ok b := by
  cases x <;> simp [Except.bind]

@[simp] theorem bindM_eq_ok_iff {x : Except ε α} {f : α → Except ε β} {b : β} :
    (x >>= f) = .ok b ↔ ∃ a, x = .ok a ∧ f a = .ok b :=
  bind_eq_ok_iff

theorem bind_eq_error_iff {x : Except ε α} {f : α → Except ε β} {e : ε} :
    x.bind f = .error e ↔ x = .error e ∨ ∃ a, x = .ok a ∧ f a = .error e := by
  cases x <;> simp [Except.bind]

theorem ok_bindM (a : α) (f : α → Except ε β) : ((.ok a : Except ε α) >>= f) = f a := rfl

@[simp] theorem pureM_eq_ok_iff {a b : α} : (pure a : Except ε α) = .ok b ↔ a = b := by
  simp [pure, Except.pure]

@[simp] theorem atSpan_eq_ok_iff {span : Span} {x : Except Fault α} {path? : Option String}
    {a : α} : atSpan span x path? = .ok a ↔ x = .ok a := by
  cases x <;> simp

theorem forall₂_imp_of_mem {R S : α → β → Prop} {as : List α} {bs : List β}
    (h : List.Forall₂ R as bs) (hRS : ∀ a ∈ as, ∀ b, R a b → S a b) : List.Forall₂ S as bs := by
  induction h with
  | nil => exact .nil
  | cons hab _ ih =>
      exact .cons (hRS _ (by simp) _ hab) (ih fun a ha => hRS a (by simp [ha]))

theorem forall_mem_of_forall₂ {R : α → β → Prop} {p : β → Prop} {as : List α} {bs : List β}
    (h : List.Forall₂ R as bs) (hp : ∀ a ∈ as, ∀ b, R a b → p b) : ∀ b ∈ bs, p b := by
  induction h with
  | nil => simp
  | cons hab _ ih =>
      exact List.forall_mem_cons.2 ⟨hp _ (by simp) _ hab, ih fun a ha => hp a (by simp [ha])⟩

theorem exists_mem_of_forall₂ {R : α → β → Prop} {as : List α} {bs : List β}
    (h : List.Forall₂ R as bs) {b : β} (hb : b ∈ bs) : ∃ a ∈ as, R a b :=
  forall_mem_of_forall₂ h (p := fun b => ∃ a ∈ as, R a b) (fun a ha _ hab => ⟨a, ha, hab⟩) b hb

/-- Keys that avoid a list with one more name avoid that name and the list. -/
theorem forall_not_mem_cons_iff {fs : List (String × α)} {n : String} {seen : List String} :
    (∀ f ∈ fs, f.1 ∉ n :: seen) ↔ n ∉ fs.map Prod.fst ∧ ∀ f ∈ fs, f.1 ∉ seen := by
  simp only [List.mem_cons, not_or, forall_and, List.mem_map, not_exists, not_and]

/-- A pass over a list succeeds when it succeeds on every item. -/
theorem Logged.result_mapM_eq_ok_iff {f : α → Logged β} {as : List α} {bs : List β} :
    (as.mapM f).result = .ok bs ↔ List.Forall₂ (fun a b => (f a).result = .ok b) as bs := by
  induction as generalizing bs with
  | nil => simp [eq_comm]
  | cons a as ih =>
      simp only [List.mapM_cons, Logged.result_bind, bind_eq_ok_iff, Logged.result_pure,
        Except.ok.injEq, List.forall₂_cons_left_iff]
      constructor
      · rintro ⟨b, hb, bs', hbs, rfl⟩
        exact ⟨b, bs', hb, ih.1 hbs, rfl⟩
      · rintro ⟨b, bs', hb, hbs, rfl⟩
        exact ⟨b, hb, bs', ih.2 hbs, rfl⟩

end WhileStatics
