import WhileStatics.Typing.Expr
import WhileStatics.Walk

/-!
# Type checking of programs

Checking goes through the declarations of a program in their order and stops at
the first violation. The return type of the method that it is at is carried along.
A program that passes comes back with the type of every expression in its method
bodies filled in.
-/

namespace WhileStatics

/-- The options of type checking. -/
structure CheckOptions where
  /-- Fill in the types of expressions instead of giving the program back as it was. -/
  annotate : Bool := true
  deriving DecidableEq, Inhabited

namespace Declarations

/-- Checks the type, the name and the initial value of a variable, and then declares it. -/
def checkVarDecl (ds : Declarations) (d : VarDecl) : Walk VarDecl := do
  let init ← Walk.ask fun scope => do
    atSpan d.span (d.ty.validate ds.types) ds.path
    if scope.contains d.name then .error ⟨.duplicateVariable d.name, d.span, ds.path⟩
    else ds.inferOptionBelow scope d.ty d.init
  Walk.declare d.name d.ty
  return { d with init }

/-- Checks both sides of an assignment; what is assigned has to be below the target's type. -/
def checkAssign (ds : Declarations) (scope : Scope) (target value : Expr) :
    Except Failure (Expr × Expr) := do
  if target.isLvalue then
    let t ← ds.infer scope target
    let v ← ds.inferBelow scope t.ty value
    return (t.expr, v)
  else .error ⟨.notLvalue target, target.span, ds.path⟩

mutual

/-- Checks a statement of a method that returns `ret`. -/
def checkStmt (ds : Declarations) (ret : Ty) : Stmt → Walk Stmt
  | .assertion span c => do
      let c' ← Walk.ask fun scope => ds.inferCondition scope c
      return .assertion span c'
  | .print span e => do
      let e' ← Walk.ask fun scope => ds.infer scope e
      return .print span e'.expr
  | .assign span t e => do
      let (t', e') ← Walk.ask fun scope => ds.checkAssign scope t e
      return .assign span t' e'
  | .ret span e => do
      let e' ← Walk.ask fun scope => ds.inferOptionBelow scope ret e
      return .ret span e'
  | .jump span j => pure (.jump span j)
  | .decl d => do
      let d' ← ds.checkVarDecl d
      return .decl d'
  | .branch span c yes no => do
      let c' ← Walk.ask fun scope => ds.inferCondition scope c
      let yes' ← (checkBlock ds ret yes).inBlock
      let no' ← (checkBlock ds ret no).inBlock
      return .branch span c' yes' no'
  | .forLoop span d c step body => Walk.inBlock do
      let d' ← ds.checkVarDecl d
      let c' ← Walk.ask fun scope => ds.inferCondition scope c
      let step' ← checkStmt ds ret step
      let body' ← (checkBlock ds ret body).inBlock
      return .forLoop span d' c' step' body'
  | .loop span test c body => do
      let c' ← Walk.ask fun scope => ds.inferCondition scope c
      let body' ← (checkBlock ds ret body).inBlock
      return .loop span test c' body'
  | .switch span e cs => do
      let e' ← Walk.ask fun scope => ds.infer scope e
      let cs' ← checkCases ds ret e'.ty cs
      return .switch span e'.expr cs'
  | .call span n as => do
      let as' ← Walk.ask fun scope => ds.inferCall scope span n as
      return .call span n as'

/-- Checks the statements of a block in their order. -/
def checkBlock (ds : Declarations) (ret : Ty) : List Stmt → Walk (List Stmt)
  | [] => pure []
  | s :: ss => do
      let s' ← checkStmt ds ret s
      let ss' ← checkBlock ds ret ss
      return s' :: ss'

/-- Checks cases one after another; a guard has to be below the type `on` of the scrutinee. -/
def checkCases (ds : Declarations) (ret on : Ty) : List Case → Walk (List Case)
  | [] => pure []
  | .mk span g body :: cs => do
      let g' ← Walk.ask fun scope => ds.inferOptionBelow scope on g
      let body' ← (checkBlock ds ret body).inBlock
      let cs' ← checkCases ds ret on cs
      return .mk span g' body' :: cs'

end

/-- Checks parameters in their order and puts them into the scope. -/
def checkParams (ds : Declarations) (scope : Scope) : List Param → Except Failure Scope
  | [] => .ok scope
  | p :: ps => do
      atSpan p.span (p.ty.validate ds.types) ds.path
      match scope.declare? p.name p.ty with
      | none => .error ⟨.duplicateVariable p.name, p.span, ds.path⟩
      | some inner => checkParams ds inner ps

/-- Checks the signature of a method and then its body. The return type that is carried along
becomes that of the method before the body is checked against it, and stays for what follows. -/
def visitMethod (ds : Declarations) (m : Method) : StateT Ty Logged Method := do
  Logged.tell (.checking m.name)
  Logged.ofExcept (atSpan m.span (m.ret.validate ds.types) ds.path)
  let scope ← Logged.ofExcept (ds.checkParams .empty m.params)
  set m.ret
  let ret ← get
  let body ← (ds.checkBlock ret m.body scope).1
  return { m with body }

/-- Checks a declaration; macros are not checked on their own. -/
def visitDecl (ds : Declarations) : Decl → StateT Ty Logged Decl
  | .method m => do
      let m' ← ds.visitMethod m
      return .method m'
  | .type t => do
      Logged.ofExcept (atSpan t.span (t.ty.validate ds.types) ds.path)
      let _ ← Logged.ofExcept (atSpan t.span (Ty.resolve ds.types (.named t.name)) ds.path)
      return .type t
  | .macroDecl m => pure (.macroDecl m)

end Declarations

/-- Checks the types of a program. The return type that is carried along is `void` at first. -/
def Program.check (p : Program) (options : CheckOptions := {}) : Logged Program := do
  Logged.tellAll p.declarationEvents
  let decls ← (p.decls.mapM p.declarations.visitDecl).run' .void
  return if options.annotate then { p with decls } else p

end WhileStatics
