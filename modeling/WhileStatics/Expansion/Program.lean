import WhileStatics.Expansion.Instance
import WhileStatics.Declarations
import WhileStatics.Walk

/-!
# Expansion of programs

Expansion walks through the method bodies of a program and expands every
expression in them. Types and macros stay as they are, and so do the names of
call statements. What an assignment writes to must still be assignable
afterwards, and the guard of a case must be a constant.
-/

namespace WhileStatics

namespace Expansion

/-- Expands an expression in the scope that the walk is in. -/
def walkExpr (x : Expansion) (e : Expr) : Walk Expr :=
  Walk.read fun scope => x.expr scope e

/-- Expands a part that may be absent. -/
def walkOption (x : Expansion) : Option Expr → Walk (Option Expr)
  | none => pure none
  | some e => do
      let e' ← x.walkExpr e
      return some e'

/-- Expands expressions from left to right. -/
def walkList (x : Expansion) : List Expr → Walk (List Expr)
  | [] => pure []
  | e :: es => do
      let e' ← x.walkExpr e
      let es' ← x.walkList es
      return e' :: es'

/-- Expands the initial value and then declares the variable; a repeated name is no fault here. -/
def varDecl (x : Expansion) (d : VarDecl) : Walk VarDecl := do
  let init ← x.walkOption d.init
  Walk.declare d.name d.ty
  return { d with init }

/-- Expands an assignment target, which has to stay assignable. -/
def target (x : Expansion) (e : Expr) : Walk Expr := do
  let e' ← x.walkExpr e
  if e'.isLvalue then pure e' else Walk.fail (.notLvalueExpanded e') e.span x.path

/-- Expands the guard of the case at `span`, which has to become a constant. -/
def guard (x : Expansion) (span : Span) : Option Expr → Walk (Option Expr)
  | none => pure none
  | some e => do
      let e' ← x.walkExpr e
      if e'.isConst then pure (some e') else Walk.fail (.guardNotConst e') span x.path

mutual

/-- Expands a statement. -/
def stmt (x : Expansion) : Stmt → Walk Stmt
  | .assertion span c => do
      let c' ← x.walkExpr c
      return .assertion span c'
  | .print span e => do
      let e' ← x.walkExpr e
      return .print span e'
  | .assign span t e => do
      let t' ← x.target t
      let e' ← x.walkExpr e
      return .assign span t' e'
  | .ret span e => do
      let e' ← x.walkOption e
      return .ret span e'
  | .jump span j => pure (.jump span j)
  | .decl d => do
      let d' ← x.varDecl d
      return .decl d'
  | .branch span c yes no => do
      let c' ← x.walkExpr c
      let yes' ← (block x yes).inBlock
      let no' ← (block x no).inBlock
      return .branch span c' yes' no'
  | .forLoop span d c step body => Walk.inBlock do
      let d' ← x.varDecl d
      let c' ← x.walkExpr c
      let step' ← stmt x step
      let body' ← (block x body).inBlock
      return .forLoop span d' c' step' body'
  | .loop span test c body => do
      let c' ← x.walkExpr c
      let body' ← (block x body).inBlock
      return .loop span test c' body'
  | .switch span e cs => do
      let e' ← x.walkExpr e
      let cs' ← cases x cs
      return .switch span e' cs'
  | .call span n as => do
      let as' ← x.walkList as
      return .call span n as'

/-- Expands the statements of a block in their order. -/
def block (x : Expansion) : List Stmt → Walk (List Stmt)
  | [] => pure []
  | s :: ss => do
      let s' ← stmt x s
      let ss' ← block x ss
      return s' :: ss'

/-- Expands cases one after another, the guard of a case before its body. -/
def cases (x : Expansion) : List Case → Walk (List Case)
  | [] => pure []
  | .mk span g body :: cs => do
      let g' ← x.guard span g
      let body' ← (block x body).inBlock
      let cs' ← cases x cs
      return .mk span g' body' :: cs'

end

/-- Expands the body of a method in the scope of its parameters. -/
def method (x : Expansion) (m : Method) : Logged Method := do
  Logged.tell (.expanding m.name)
  let body ← (x.block m.body (.ofParams m.params)).1
  return { m with body }

/-- Expands a method and leaves other declarations as they are. -/
def decl (x : Expansion) : Decl → Logged Decl
  | .method m => do
      let m' ← x.method m
      return .method m'
  | d => pure d

end Expansion

/-- Replaces the macro calls in the method bodies of a program. -/
def Program.expand (p : Program) (options : ExpandOptions := {}) : Logged Program := do
  Logged.tellAll p.declarationEvents
  let x : Expansion := { path := p.path, macros := p.declarations.macros, options }
  let decls ← p.decls.mapM x.decl
  return { p with decls }

end WhileStatics
