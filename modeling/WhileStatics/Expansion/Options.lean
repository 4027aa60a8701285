import WhileStatics.Text

/-!
# Options of macro expansion

How deep instantiations may nest and whether argument counts are checked, with
their defaults and the texts that override them.
-/

namespace WhileStatics

/-- The largest number of nested instantiations where nothing else is said. -/
def defaultDepthLimit : Nat := 32

/-- The options of macro expansion. -/
structure ExpandOptions where
  /-- The largest number of nested macro instantiations. -/
  depthLimit : Nat := defaultDepthLimit
  /-- Refuse calls whose argument count differs from the macro's parameter count. -/
  validateArity : Bool := true
  deriving DecidableEq, Inhabited

namespace ExpandOptions

/-- Reads digits after at most one plus sign, provided that the number fits 64 bits. -/
def readLimit? (text : String) : Option Nat :=
  let digits :=
    match Text.stripBlank text.toList with
    | '+' :: cs => cs
    | cs => cs
  match Text.readDecimal? digits with
  | some n => if n < UInt64.size then some n else none
  | none => none

/-- The texts that switch the check of argument counts off. -/
def isLenient (text : String) : Bool :=
  String.ofList (Text.stripBlank text.toList) ∈ ["1", "true", "yes"]

/-- The defaults, overridden by a text for the limit and a text for leniency where given. -/
def ofSettings (limit lenient : Option String) : ExpandOptions where
  depthLimit := (limit.bind readLimit?).getD defaultDepthLimit
  validateArity := !(lenient.map isLenient).getD false

end ExpandOptions
end WhileStatics
