import WhileStatics.Expr.Dump

/-!
# Faults

What can be wrong with a program, one constructor for each cause. A cause holds
the data of the situation; its kind and its wording are functions of it.

## Implementation notes

Rules about types find faults without knowing where they are in the source. A
`Failure` is a fault together with the span it is reported at and the path of the
file, which it takes from the context that it arises in.
-/

namespace WhileStatics

/-- The classes of faults that a reader of diagnostics can tell apart. -/
inductive Kind where
  | unknownType
  | cyclicType
  | unknownVariable
  | unknownMethod
  | duplicateVariable
  | typeMismatch
  | missingField
  | duplicateField
  | arityMismatch
  | recursionLimit
  | internal
  deriving DecidableEq, Inhabited

namespace Kind

/-- The stable code of a kind. -/
def code : Kind → String
  | unknownType => "while_sema::unknown_type"
  | cyclicType => "while_sema::cyclic_type"
  | unknownVariable => "while_sema::unknown_variable"
  | unknownMethod => "while_sema::unknown_method"
  | duplicateVariable => "while_sema::duplicate_variable"
  | typeMismatch => "while_sema::type_mismatch"
  | missingField => "while_sema::missing_field"
  | duplicateField => "while_sema::duplicate_field"
  | arityMismatch => "while_sema::arity_mismatch"
  | recursionLimit => "while_sema::recursion_limit"
  | internal => "while_sema::internal"

/-- A kind in words. -/
def text : Kind → String
  | unknownType => "unknown type"
  | cyclicType => "cyclic type"
  | unknownVariable => "unknown variable"
  | unknownMethod => "unknown method"
  | duplicateVariable => "duplicate variable"
  | typeMismatch => "type mismatch"
  | missingField => "missing field"
  | duplicateField => "duplicate field"
  | arityMismatch => "arity mismatch"
  | recursionLimit => "macro recursion limit"
  | internal => "internal failure"

end Kind

/-- The causes for which a program is refused. -/
inductive Fault where
  /-- A type name without a declaration. -/
  | unknownType (name : String)
  /-- A chain of aliases that comes back to `name`; `chain` holds the names met before. -/
  | cyclicType (chain : List String) (name : String)
  /-- A variable that is not in scope. -/
  | unknownVariable (name : String)
  /-- A call of a name that is neither a method nor a macro. -/
  | unknownMethod (name : String)
  /-- A variable whose name is in scope already. -/
  | duplicateVariable (name : String)
  /-- A type that is not below the one asked for. -/
  | notSubtype (expected found : Ty)
  /-- A type whose shape is none of those asked for. -/
  | notInstance (expected : List Shape) (found : Ty)
  /-- Operands of an equality test neither of whose types is below the other. -/
  | incomparable (op : BinaryOp) (lhs rhs : Ty)
  /-- Two types of array elements neither of which is below the other. -/
  | noCommonSupertype (best found : Ty)
  /-- A field that the accessed record type lacks. -/
  | missingField (ty : Ty) (field : String)
  /-- A field that a record literal gives twice. -/
  | repeatedLiteralField (field : String)
  /-- A field that the record type `ty` declares twice. -/
  | repeatedField (field : String) (ty : Ty)
  /-- A method call with the wrong number of arguments. -/
  | methodArity (name : String) (expected found : Nat)
  /-- A macro call with the wrong number of arguments. -/
  | macroArity (name : String) (expected found : Nat)
  /-- A macro call nested deeper than `limit` instantiations. -/
  | recursionLimit (name : String) (limit : Nat)
  /-- An assignment to something that cannot be assigned to. -/
  | notLvalue (target : Expr)
  /-- An assignment target that expansion turned into something that cannot be assigned to. -/
  | notLvalueExpanded (target : Expr)
  /-- A case guard that is not a constant once it is expanded. -/
  | guardNotConst (guard : Expr)
  /-- A macro call that is still there when types are checked. -/
  | unexpandedCall (name : String)
  deriving DecidableEq, Inhabited

namespace Fault

/-- The class that a cause belongs to. -/
def kind : Fault → Kind
  | unknownType _ => .unknownType
  | cyclicType .. => .cyclicType
  | unknownVariable _ => .unknownVariable
  | unknownMethod _ => .unknownMethod
  | duplicateVariable _ => .duplicateVariable
  | notSubtype .. => .typeMismatch
  | notInstance .. => .typeMismatch
  | incomparable .. => .typeMismatch
  | noCommonSupertype .. => .typeMismatch
  | missingField .. => .missingField
  | repeatedLiteralField _ => .duplicateField
  | repeatedField .. => .duplicateField
  | methodArity .. => .arityMismatch
  | macroArity .. => .arityMismatch
  | recursionLimit .. => .recursionLimit
  | notLvalue _ => .internal
  | notLvalueExpanded _ => .internal
  | guardNotConst _ => .internal
  | unexpandedCall _ => .internal

/-- The sentence that reports a cause. -/
def message : Fault → String
  | unknownType name => s!"unknown type `{name}`"
  | cyclicType _ name => s!"type `{name}` is defined in terms of itself"
  | unknownVariable name => s!"unknown variable `{name}`"
  | unknownMethod name => s!"unknown method `{name}`"
  | duplicateVariable name => s!"variable `{name}` is already declared"
  | notSubtype expected found => s!"expected type `{expected.text}`, found `{found.text}`"
  | notInstance expected found =>
      let shapes := " or ".intercalate (expected.map Shape.name)
      s!"expected instance of {shapes}, found `{found.text}`"
  | incomparable op lhs rhs =>
      s!"cannot compare `{lhs.text}` with `{rhs.text}` using `{op.symbol}`"
  | noCommonSupertype best found =>
      s!"no common supertype for `{best.text}` and `{found.text}`"
  | missingField ty field => s!"expected type `{ty.text}` to contain field `{field}`"
  | repeatedLiteralField field => s!"duplicate field `{field}` in record literal"
  | repeatedField field ty =>
      s!"field `{field}` is declared more than once in `{ty.text}`"
  | methodArity name expected found =>
      s!"method `{name}` expects {expected} argument(s), found {found}"
  | macroArity name expected found =>
      s!"macro `{name}` expects {expected} argument(s), found {found}"
  | recursionLimit name limit =>
      s!"expansion of macro `{name}` exceeded the limit of {limit} nested instantiations"
  | notLvalue target => s!"assignment target is not an lvalue: {target.dump}"
  | notLvalueExpanded target =>
      s!"assignment target is not an lvalue after expansion: {target.dump}"
  | guardNotConst guard =>
      s!"switch case is not a constant after expansion: {guard.dump}"
  | unexpandedCall name => s!"macro invocation `{name}` survived expansion"

/-- The words at the marked place, those of the message where a cause has none of its own. -/
def label : Fault → String
  | noCommonSupertype .. => "elements of this literal have incompatible types"
  | fault => fault.message

/-- Advice, for the causes that have some. -/
def help? : Fault → Option String
  | cyclicType chain name => some ("alias chain: " ++ " -> ".intercalate (chain ++ [name]))
  | recursionLimit .. => some "a macro body may not invoke itself, directly or indirectly"
  | unexpandedCall name =>
      some s!"`{name}` is a macro and could not be expanded at this position"
  | _ => none

end Fault

/-- A fault and where it is reported: a span, and the path of the file that the context is about.
A rule that is asked on its own has no file. -/
structure Failure where
  fault : Fault
  span : Span
  path? : Option String := none
  deriving DecidableEq, Inhabited

/-- Reports the fault of a computation at the given span, in the file of the context if it has
one. -/
def atSpan {α : Type} (span : Span) (x : Except Fault α) (path? : Option String := none) :
    Except Failure α :=
  match x with
  | .ok a => .ok a
  | .error fault => .error ⟨fault, span, path?⟩

@[simp] theorem atSpan_ok {α : Type} (span : Span) (a : α) (path? : Option String) :
    atSpan span (.ok a) path? = .ok a := rfl

@[simp] theorem atSpan_error {α : Type} (span : Span) (fault : Fault) (path? : Option String) :
    atSpan span (.error fault : Except Fault α) path? = .error ⟨fault, span, path?⟩ := rfl

end WhileStatics
