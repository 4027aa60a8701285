import WhileStatics.Expansion.Calls
import WhileStatics.Expansion.Options
import WhileStatics.Scope
import WhileStatics.Table

/-!
# Macro instances

A call of a macro is replaced by an instance of its body. The body is expanded
first; then those immediate operands of a binary or unary body that are bare
parameters are replaced by the arguments. Parameters deeper in the body stay as
they are, and a call of a macro with any other body than a binary, unary or
constant expression stays in place.

## Implementation notes

The recursion is on the number of instantiations that may still nest, so a
macro that reaches itself ends at the limit. Arguments are expanded at the depth
of the call; the body, and the operand of a unary instance, one level deeper.
-/

namespace WhileStatics

/-- What the calls in the program at `path` are expanded with. -/
structure Expansion where
  path : String
  macros : Table MacroDecl
  options : ExpandOptions := {}
  deriving Inhabited

/-- Arguments by parameter name. -/
abbrev Bindings := List (String × Expr)

namespace Bindings

/-- Binds parameters to arguments by position; the last one of a repeated parameter counts. -/
def ofArgs (params : List Ident) (args : List Expr) : Bindings :=
  ((params.map Ident.name).zip args).reverse

/-- Replaces a bare parameter by its argument and tells of a name that is bound nowhere. -/
def apply (bindings : Bindings) (scope : Scope) (callee : String) (call : Span)
    (operand : Expr) : Logged Expr :=
  match operand with
  | .var i n =>
      match bindings.lookup n with
      | some arg => pure arg
      | none =>
          if scope.contains n then pure (.var i n)
          else do
            Logged.tell (.unbound callee n call)
            return .var i n
  | e => pure e

end Bindings

namespace Expansion

/-- The instance of a macro body for a call with the given arguments. -/
def instantiate (expandBody : Expr → Logged Expr) (scope : Scope) (name : String)
    (bindings : Bindings) (info : Info) (args : List Expr) (body : Expr) : Logged Expr :=
  match body with
  | .binary _ op l r => do
      let l' ← bindings.apply scope name info.span l
      let r' ← bindings.apply scope name info.span r
      return .binary info op l' r'
  | .unary _ op x => do
      let x' ← bindings.apply scope name info.span x
      let x'' ← expandBody x'
      return .unary info op x''
  | .const _ v => pure (.const info v)
  | _ => do
      Logged.tell (.leftInPlace name)
      return .call info name args

/-- Replaces a call whose arguments are expanded, inside `depth` other instantiations. -/
def replaceCall (x : Expansion) (expandBody : Expr → Logged Expr) (scope : Scope)
    (depth : Nat) (d : MacroDecl) (info : Info) (name : String) (args : List Expr) :
    Logged Expr :=
  if x.options.validateArity && d.params.length != args.length then
    Logged.fail (.macroArity name d.params.length args.length) info.span x.path
  else do
    Logged.tell (.instantiating name info.span depth)
    let body ← expandBody d.body
    instantiate expandBody scope name (.ofArgs d.params args) info args body

/-- Expands an expression inside which at most `budget` instantiations may nest. -/
def exprWithin (x : Expansion) (scope : Scope) : (budget : Nat) → Expr → Logged Expr
  | 0 => Expr.mapCalls fun info name args =>
      match x.macros.get? name with
      | none => pure (.call info name args)
      | some _ => Logged.fail (.recursionLimit name x.options.depthLimit) info.span x.path
  | budget + 1 => Expr.mapCalls fun info name args =>
      match x.macros.get? name with
      | none => pure (.call info name args)
      | some d =>
          x.replaceCall (exprWithin x scope budget) scope
            (x.options.depthLimit - (budget + 1)) d info name args

/-- Expands an expression inside `depth` instantiations. -/
def exprAt (x : Expansion) (scope : Scope) (depth : Nat) (e : Expr) : Logged Expr :=
  x.exprWithin scope (x.options.depthLimit - depth) e

/-- Expands an expression of a method body. -/
def expr (x : Expansion) (scope : Scope) (e : Expr) : Logged Expr := x.exprAt scope 0 e

end Expansion
end WhileStatics
