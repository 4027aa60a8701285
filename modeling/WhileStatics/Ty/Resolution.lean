import WhileStatics.Declarations
import WhileStatics.Fault

/-!
# Resolution of type names

A type name stands for the type its declaration gives it, which may be a name
again. Resolving follows the names until a type with a shape is reached, and
fails on a name without a declaration or on a name that comes back.

## Implementation notes

Each step visits a declared name that was not visited before, so one step more
than there are declared types always suffices.
-/

namespace WhileStatics

/-- The declared types by name. -/
abbrev TypeTable := Table TypeDecl

namespace Ty

/-- Follows names for at most `steps` steps; `visited` holds the names followed so far. -/
def follow (types : TypeTable) : (steps : Nat) → (visited : List String) → Ty → Except Fault Ty
  | 0, visited, .named n => .error (.cyclicType visited n)
  | steps + 1, visited, .named n =>
      if n ∈ visited then .error (.cyclicType visited n)
      else
        match types.get? n with
        | none => .error (.unknownType n)
        | some d => follow types steps (visited ++ [n]) d.ty
  | _, _, t => .ok t

/-- The type with a shape that a type stands for. -/
def resolve (types : TypeTable) (t : Ty) : Except Fault Ty :=
  follow types (types.size + 1) [] t

theorem follow_of_shape {types : TypeTable} {steps : Nat} {visited : List String} {t : Ty}
    (h : t.shape? ≠ none) : follow types steps visited t = .ok t := by
  cases t <;> simp_all [follow, shape?]

theorem resolve_of_shape {types : TypeTable} {t : Ty} (h : t.shape? ≠ none) :
    t.resolve types = .ok t :=
  follow_of_shape h

/-- What resolving yields has a shape. -/
theorem shape_of_follow {types : TypeTable} {steps : Nat} {visited : List String} {t u : Ty}
    (h : follow types steps visited t = .ok u) : u.shape? ≠ none := by
  fun_induction follow types steps visited t with
  | case1 => cases h
  | case2 => cases h
  | case3 => cases h
  | case4 _ _ _ _ _ _ ih => exact ih h
  | case5 steps visited t h0 h1 =>
      obtain rfl : t = u := by simpa using h
      intro hn
      obtain ⟨n, rfl⟩ := shape?_eq_none_iff.1 hn
      cases steps with
      | zero => exact h0 n rfl rfl
      | succ k => exact h1 k n rfl rfl

/-- The resolved type, provided that its shape is one of those asked for. -/
def requireShape (types : TypeTable) (shapes : List Shape) (t : Ty) : Except Fault Ty := do
  let resolved ← t.resolve types
  match resolved.shape? with
  | some shape =>
      if shape ∈ shapes then .ok resolved else .error (.notInstance shapes t)
  | none => .error (.notInstance shapes t)

end Ty
end WhileStatics
