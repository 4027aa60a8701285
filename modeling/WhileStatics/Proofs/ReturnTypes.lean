import WhileStatics.Typing.Program

/-!
# Return types carried along

Checking carries the return type of the method that it is at from one
declaration to the next. As every method puts its own in place before its body
is checked, what was carried before plays no part: a declaration can be checked
on its own, and a program is checked by checking its declarations one by one.
-/

namespace WhileStatics

namespace Declarations

variable (ds : Declarations)

/-- Checks the signature and the body of a method on its own. -/
def checkMethod (m : Method) : Logged Method := do
  Logged.tell (.checking m.name)
  Logged.ofExcept (atSpan m.span (m.ret.validate ds.types) ds.path)
  let scope ← Logged.ofExcept (ds.checkParams .empty m.params)
  let body ← (ds.checkBlock m.ret m.body scope).1
  return { m with body }

/-- Checks a declaration on its own. -/
def checkDecl : Decl → Logged Decl
  | .method m => do
      let m' ← ds.checkMethod m
      return .method m'
  | .type t => do
      Logged.ofExcept (atSpan t.span (t.ty.validate ds.types) ds.path)
      let _ ← Logged.ofExcept (atSpan t.span (Ty.resolve ds.types (.named t.name)) ds.path)
      return .type t
  | .macroDecl m => pure (.macroDecl m)

/-- A method is checked against its own return type, whatever is carried, and leaves that type
behind. -/
theorem run_visitMethod (m : Method) (carried : Ty) :
    (ds.visitMethod m).run carried = (fun m' => (m', m.ret)) <$> ds.checkMethod m := by
  simp [visitMethod, checkMethod, map_bind]

/-- Whatever return type was carried before, a method is checked as it is on its own. -/
theorem run'_visitMethod (m : Method) (carried : Ty) :
    (ds.visitMethod m).run' carried = ds.checkMethod m := by
  simp [StateT.run'_eq, run_visitMethod]

/-- The return type that is carried on after a declaration. -/
def carriedAfter (carried : Ty) : Decl → Ty
  | .method m => m.ret
  | _ => carried

theorem run_visitDecl (d : Decl) (carried : Ty) :
    (ds.visitDecl d).run carried = (fun d' => (d', carriedAfter carried d)) <$> ds.checkDecl d := by
  cases d with
  | method m => simp [visitDecl, checkDecl, run_visitMethod, carriedAfter]
  | type t => simp [visitDecl, checkDecl, carriedAfter]
  | macroDecl m => simp [visitDecl, checkDecl, carriedAfter]

/-- After a row of declarations the return type of the last method among them is carried on. -/
theorem run_mapM_visitDecl (decls : List Decl) (carried : Ty) :
    (decls.mapM ds.visitDecl).run carried =
      (fun decls' => (decls', decls.foldl carriedAfter carried)) <$> decls.mapM ds.checkDecl := by
  induction decls generalizing carried with
  | nil => simp
  | cons d rest ih => simp [List.mapM_cons, run_visitDecl, ih]

end Declarations

/-- Declarations are checked one by one; nothing but the tables is common to their checks. -/
theorem Program.check_eq (p : Program) (options : CheckOptions) :
    p.check options = do
      Logged.tellAll p.declarationEvents
      let decls ← p.decls.mapM p.declarations.checkDecl
      return if options.annotate then { p with decls } else p := by
  simp [Program.check, StateT.run'_eq, Declarations.run_mapM_visitDecl]

end WhileStatics
