import Mathlib.Order.RelClasses

/-!
# Nested calls

A recursion is given by the calls that each call can make. Some of them are
counted, because they begin something that must not nest too deep; the others go
on with parts of what is there. A pair of numbers that decreases with each call
shows that the recursion comes to an end.
-/

namespace WhileStatics

/-- The second call is nested in the first one, with `k` counted calls on the way. -/
inductive Nests {α : Type} (plain counted : α → α → Prop) : (k : Nat) → α → α → Prop
  | refl (a : α) : Nests plain counted 0 a a
  | plain {k a b c} (h : plain a b) (rest : Nests plain counted k b c) : Nests plain counted k a c
  | counted {k a b c} (h : counted a b) (rest : Nests plain counted k b c) :
      Nests plain counted (k + 1) a c

variable {α : Type} {plain counted : α → α → Prop} {P : α → Prop} {k : Nat} {a b : α}

/-- What every call passes on to the calls that it makes holds of all nested ones. -/
theorem Nests.preserves (hplain : ∀ a b, plain a b → P a → P b)
    (hcounted : ∀ a b, counted a b → P a → P b) (h : Nests plain counted k a b) (ha : P a) :
    P b := by
  induction h with
  | refl => exact ha
  | plain h _ ih => exact ih (hplain _ _ h ha)
  | counted h _ ih => exact ih (hcounted _ _ h ha)

/-- A measure that grows by one with each counted call tells how many there were. -/
theorem Nests.measure_eq (depth : α → Nat) (hplain : ∀ a b, plain a b → depth b = depth a)
    (hcounted : ∀ a b, counted a b → depth b = depth a + 1) (h : Nests plain counted k a b) :
    depth b = depth a + k := by
  induction h with
  | refl => rfl
  | plain h _ ih => rw [ih, hplain _ _ h]
  | counted h _ ih =>
      rw [ih, hcounted _ _ h]
      omega

/-- Where each call decreases a rank and stays within a property, no chain of calls goes on forever
that begins within it. -/
theorem acc_of_rank {calls : α → α → Prop} (rank : α → Nat × Nat)
    (hP : ∀ a b, calls a b → P a → P b)
    (hrank : ∀ a b, calls a b → P a → Prod.Lex (· < ·) (· < ·) (rank b) (rank a)) (ha : P a) :
    Acc (fun inner outer => calls outer inner) a := by
  have hlex : WellFounded (Prod.Lex (· < ·) (· < ·) : Nat × Nat → Nat × Nat → Prop) :=
    WellFounded.prod_lex wellFounded_lt wellFounded_lt
  induction hr : rank a using hlex.induction generalizing a with
  | h r ih =>
      subst hr
      exact ⟨_, fun b hcall => ih _ (hrank a b hcall ha) (hP a b hcall ha) rfl⟩

end WhileStatics
