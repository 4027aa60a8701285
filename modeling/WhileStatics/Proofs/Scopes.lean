import WhileStatics.Proofs.Outcomes
import WhileStatics.Proofs.Sites

/-!
# Scopes and what walks leave of them

The frames of a scope hold the bindings of one context. A walk that touches only
the innermost frame leaves the scope as it was once the block around it is
closed, whether or not it fails.
-/

namespace WhileStatics

namespace Scope

variable {s : Scope} {name : String}

/-- The bindings of all frames, from the innermost outwards. -/
def context (s : Scope) : Context := s.frames.flatten

theorem findSome?_lookup (frames : List Frame) (name : String) :
    frames.findSome? (fun frame => frame.lookup name) = frames.flatten.lookup name := by
  induction frames with
  | nil => rfl
  | cons frame frames ih =>
      rw [List.findSome?_cons, List.flatten_cons, List.lookup_append, ih]
      cases frame.lookup name <;> rfl

theorem lookup_eq_lookup_context (s : Scope) (name : String) :
    s.lookup name = s.context.lookup name :=
  findSome?_lookup s.frames name

theorem contains_eq_false_iff : s.contains name = false ↔ s.context.lookup name = none := by
  rw [contains, lookup_eq_lookup_context, Option.isSome_eq_false_iff, Option.isNone_iff_eq_none]

@[simp] theorem context_empty : empty.context = [] := rfl

@[simp] theorem context_push (s : Scope) : s.push.context = s.context := rfl

theorem context_declare (ty : Ty) (h : s.context.lookup name = none) :
    (s.declare name ty).context = (name, ty) :: s.context := by
  simp [declare, declare?, contains_eq_false_iff.2 h, context, frames]

end Scope

namespace Walk

variable {α : Type} {w : Walk α}

/-- The walk leaves the scope as it was. -/
def KeepsScope (w : Walk α) : Prop := ∀ scope, w.scopeAfter scope = scope

/-- The walk leaves all frames but the innermost one as they were. -/
def KeepsOuter (w : Walk α) : Prop := ∀ scope, (w.scopeAfter scope).outer = scope.outer

/-- Closing a block restores the scope, because the walk in it kept the frames outside. -/
theorem keepsScope_inBlock (hw : w.KeepsOuter) : w.inBlock.KeepsScope := by
  intro scope
  rw [scopeAfter_inBlock, Scope.pop, hw scope.push]
  rfl

end Walk
end WhileStatics
