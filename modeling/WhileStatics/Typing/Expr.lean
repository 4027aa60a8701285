import WhileStatics.Declarations
import WhileStatics.Scope
import WhileStatics.Ty.Validity
import WhileStatics.Value.Typing

/-!
# Types of expressions

Inference gives an expression its type in a scope and writes the type of every
node into its slot. Operands are inferred from left to right before anything is
asked of their types; whatever the slots held before is ignored.
-/

namespace WhileStatics

/-- An expression whose slots are filled, and its type. -/
structure Typed where
  expr : Expr
  ty : Ty
  deriving DecidableEq, Inhabited

/-- The same node with the given type in its slot. -/
def Info.withTy (info : Info) (ty : Ty) : Info := { info with ty := some ty }

namespace Typed

/-- The type of an operand, resolved, if its shape is one of those asked for. -/
def require (ds : Declarations) (shapes : List Shape) (e : Typed) : Except Failure Ty :=
  atSpan e.expr.span (e.ty.requireShape ds.types shapes) ds.path

/-- Fails unless the type of the expression is below the given one. -/
def requireBelow (ds : Declarations) (sup : Ty) (e : Typed) : Except Failure Unit :=
  atSpan e.expr.span (Ty.requireSubtype ds.types sup e.ty) ds.path

end Typed

/-- The type of a binary operation at `span`. -/
def BinaryOp.typeOf (ds : Declarations) (span : Span) (lhs rhs : Typed) :
    BinaryOp → Except Failure Ty
  | .and | .or => do
      let _ ← lhs.require ds [.bool]
      let _ ← rhs.require ds [.bool]
      return .bool
  | .add | .sub | .mul | .div | .rem => do
      let _ ← lhs.require ds [.int]
      let _ ← rhs.require ds [.int]
      return .int
  | .lt | .ltEq | .gt | .gtEq => do
      let _ ← lhs.require ds [.int]
      let _ ← rhs.require ds [.int]
      return .bool
  | op => do
      if ← atSpan span (Ty.comparable ds.types lhs.ty rhs.ty) ds.path then return .bool
      else .error ⟨.incomparable op lhs.ty rhs.ty, span, ds.path⟩

/-- The type of a unary operation. -/
def UnaryOp.typeOf (ds : Declarations) (operand : Typed) : UnaryOp → Except Failure Ty
  | .not => do
      let _ ← operand.require ds [.bool]
      return .bool
  | .neg => do
      let _ ← operand.require ds [.int]
      return .int
  | .lengthOf => do
      let _ ← operand.require ds [.array, .string]
      return .int

/-- The type of what stands at a position of an array or a string. -/
def Typed.elementType (ds : Declarations) (source : Typed) : Except Failure Ty := do
  match ← source.require ds [.array, .string] with
  | .array element => return element
  | _ => return .char

/-- The type of a field of a record, missing fields being reported at `span`. -/
def Typed.fieldType (ds : Declarations) (span : Span) (source : Typed) (field : String) :
    Except Failure Ty := do
  let resolved ← source.require ds [.record]
  match resolved.field? field with
  | some t => return t
  | none => .error ⟨.missingField source.ty field, span, ds.path⟩

namespace Declarations

/-- The method that a call with `count` arguments goes to. -/
def callee (ds : Declarations) (name : String) (count : Nat) : Except Fault Method :=
  match ds.methods.get? name with
  | some m =>
      if m.params.length = count then .ok m
      else .error (.methodArity name m.params.length count)
  | none =>
      if ds.macros.contains name then .error (.unexpandedCall name)
      else .error (.unknownMethod name)

mutual

/-- Infers the type of an expression. -/
def infer (ds : Declarations) (scope : Scope) : Expr → Except Failure Typed
  | .binary i op l r => do
      let l' ← infer ds scope l
      let r' ← infer ds scope r
      let t ← op.typeOf ds i.span l' r'
      return ⟨.binary (i.withTy t) op l'.expr r'.expr, t⟩
  | .unary i op x => do
      let x' ← infer ds scope x
      let t ← op.typeOf ds x'
      return ⟨.unary (i.withTy t) op x'.expr, t⟩
  | .const i v => do
      let t ← atSpan i.span (v.typeOf ds.types) ds.path
      return ⟨.const (i.withTy t) v, t⟩
  | .var i n =>
      match scope.lookup n with
      | some t => .ok ⟨.var (i.withTy t) n, t⟩
      | none => .error ⟨.unknownVariable n, i.span, ds.path⟩
  | .index i s p => do
      let s' ← infer ds scope s
      let p' ← infer ds scope p
      let _ ← p'.require ds [.int]
      let t ← s'.elementType ds
      return ⟨.index (i.withTy t) s'.expr p'.expr, t⟩
  | .call i n as => do
      let m ← atSpan i.span (ds.callee n as.length) ds.path
      let as' ← inferArgs ds scope m.params as
      return ⟨.call (i.withTy m.ret) n as', m.ret⟩
  | .generate i v c => do
      let v' ← infer ds scope v
      let c' ← infer ds scope c
      let _ ← c'.require ds [.int]
      return ⟨.generate (i.withTy (.array v'.ty)) v'.expr c'.expr, .array v'.ty⟩
  | .array i es => do
      let es' ← inferList ds scope es
      let element ← atSpan i.span (Ty.leastUpperBound ds.types (es'.map Typed.ty)) ds.path
      return ⟨.array (i.withTy (.array element)) (es'.map Typed.expr), .array element⟩
  | .access i s f => do
      let s' ← infer ds scope s
      let t ← s'.fieldType ds i.span f
      return ⟨.access (i.withTy t) s'.expr f, t⟩
  | .record i fs => do
      let fs' ← inferFields ds scope fs
      let t := Ty.record (fs'.map fun f => (f.1, f.2.ty))
      atSpan i.span (t.validate ds.types) ds.path
      return ⟨.record (i.withTy t) (fs'.map fun f => (f.1, f.2.expr)), t⟩

/-- Infers arguments in their order, each of which has to be below its parameter's type. -/
def inferArgs (ds : Declarations) (scope : Scope) :
    List Param → List Expr → Except Failure (List Expr)
  | p :: ps, a :: as => do
      let a' ← infer ds scope a
      a'.requireBelow ds p.ty
      let as' ← inferArgs ds scope ps as
      return a'.expr :: as'
  | _, _ => .ok []

/-- Infers expressions in their order. -/
def inferList (ds : Declarations) (scope : Scope) : List Expr → Except Failure (List Typed)
  | [] => .ok []
  | e :: es => do
      let e' ← infer ds scope e
      let es' ← inferList ds scope es
      return e' :: es'

/-- Infers the values of record fields in their order. -/
def inferFields (ds : Declarations) (scope : Scope) :
    List (String × Expr) → Except Failure (List (String × Typed))
  | [] => .ok []
  | (n, e) :: fs => do
      let e' ← infer ds scope e
      let fs' ← inferFields ds scope fs
      return (n, e') :: fs'

end

/-- Infers the arguments of a call statement at `span`. -/
def inferCall (ds : Declarations) (scope : Scope) (span : Span) (name : String)
    (args : List Expr) : Except Failure (List Expr) := do
  let m ← atSpan span (ds.callee name args.length) ds.path
  inferArgs ds scope m.params args

/-- Infers a condition, whose type has to be boolean. -/
def inferCondition (ds : Declarations) (scope : Scope) (e : Expr) : Except Failure Expr := do
  let e' ← ds.infer scope e
  let _ ← e'.require ds [.bool]
  return e'.expr

/-- Infers an expression, whose type has to be below the given one. -/
def inferBelow (ds : Declarations) (scope : Scope) (sup : Ty) (e : Expr) :
    Except Failure Expr := do
  let e' ← ds.infer scope e
  e'.requireBelow ds sup
  return e'.expr

/-- Infers a part that may be absent and otherwise has to be below the given type. -/
def inferOptionBelow (ds : Declarations) (scope : Scope) (sup : Ty) :
    Option Expr → Except Failure (Option Expr)
  | none => .ok none
  | some e => do
      let e' ← ds.inferBelow scope sup e
      return some e'

end Declarations
end WhileStatics
