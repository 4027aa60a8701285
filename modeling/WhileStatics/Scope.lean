import WhileStatics.Program

/-!
# Scopes

The variables in scope at a point of a method body, as a stack of frames. A
name that is bound in any frame cannot be bound again, so there is no shadowing.
-/

namespace WhileStatics

/-- The variables of one block, latest first. -/
abbrev Frame := List (String × Ty)

/-- A stack of frames that always has an innermost one. -/
structure Scope where
  inner : Frame := []
  outer : List Frame := []
  deriving DecidableEq, Inhabited

namespace Scope

/-- One frame without variables. -/
def empty : Scope := {}

/-- All frames from the innermost outwards. -/
def frames (s : Scope) : List Frame := s.inner :: s.outer

/-- The type of a variable, looked for from the innermost frame outwards. -/
def lookup (s : Scope) (name : String) : Option Ty :=
  s.frames.findSome? fun frame => frame.lookup name

/-- A variable in scope. -/
def contains (s : Scope) (name : String) : Bool := (s.lookup name).isSome

/-- Opens a block. -/
def push (s : Scope) : Scope := ⟨[], s.frames⟩

/-- Closes the innermost block; closing the outermost one only empties it. -/
def pop (s : Scope) : Scope :=
  match s.outer with
  | [] => empty
  | frame :: rest => ⟨frame, rest⟩

@[simp] theorem pop_push (s : Scope) : s.push.pop = s := rfl

/-- Binds a name in the innermost frame; refused when some frame binds it already. -/
def declare? (s : Scope) (name : String) (ty : Ty) : Option Scope :=
  if s.contains name then none else some { s with inner := (name, ty) :: s.inner }

/-- Binds a name in the innermost frame, or leaves the scope alone if the name is bound. -/
def declare (s : Scope) (name : String) (ty : Ty) : Scope :=
  (s.declare? name ty).getD s

theorem declare?_eq_none_iff {s : Scope} {name : String} {ty : Ty} :
    s.declare? name ty = none ↔ s.contains name = true := by
  simp [declare?]

theorem declare_of_contains {s : Scope} {name : String} (ty : Ty)
    (h : s.contains name = true) : s.declare name ty = s := by
  simp [declare, declare?, h]

theorem lookup_declare_self {s : Scope} {name : String} (ty : Ty)
    (h : s.contains name = false) : (s.declare name ty).lookup name = some ty := by
  simp [declare, declare?, h, lookup, frames]

theorem lookup_declare_of_ne {s : Scope} {name other : String} (ty : Ty)
    (h : other ≠ name) : (s.declare name ty).lookup other = s.lookup other := by
  have hne : (other == name) = false := by simpa using h
  unfold declare declare?
  split
  · rfl
  · simp [lookup, frames, List.findSome?_cons, List.lookup_cons, hne]

@[simp] theorem lookup_push (s : Scope) (name : String) : s.push.lookup name = s.lookup name := by
  simp [lookup, push, frames, List.findSome?_cons]

/-- The parameters of a method, the first one winning where a name is repeated. -/
def ofParams (params : List Param) : Scope :=
  params.foldl (fun s p => s.declare p.name p.ty) empty

end Scope
end WhileStatics
