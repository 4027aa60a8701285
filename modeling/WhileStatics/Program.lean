import WhileStatics.Stmt

/-!
# Programs

A program is a list of declarations read from one file. Methods, types and
macros live in separate name spaces, and a name may be declared more than once.
-/

namespace WhileStatics

/-- A parameter of a method. -/
structure Param where
  name : String
  ty : Ty
  span : Span := {}
  deriving DecidableEq, Inhabited

/-- A parameter of a macro, which has no type. -/
structure Ident where
  name : String
  span : Span := {}
  deriving DecidableEq, Inhabited

/-- A method with its signature and its body. -/
structure Method where
  name : String
  ret : Ty
  params : List Param
  body : List Stmt
  span : Span := {}
  deriving DecidableEq, Inhabited

/-- A name for a type. -/
structure TypeDecl where
  name : String
  ty : Ty
  span : Span := {}
  deriving DecidableEq, Inhabited

/-- A macro: an expression with parameters, instantiated at each call. -/
structure MacroDecl where
  name : String
  params : List Ident
  body : Expr
  span : Span := {}
  deriving DecidableEq, Inhabited

/-- A declaration at the top level. -/
inductive Decl where
  | method (m : Method)
  | type (t : TypeDecl)
  | macroDecl (m : MacroDecl)
  deriving DecidableEq, Inhabited

/-- The declared name. -/
def Decl.name : Decl → String
  | .method m => m.name
  | .type t => t.name
  | .macroDecl m => m.name

/-- The method of a declaration that declares one. -/
def Decl.method? : Decl → Option Method
  | .method m => some m
  | _ => none

/-- The declarations of one file. -/
structure Program where
  path : String
  decls : List Decl
  deriving DecidableEq, Inhabited

namespace Program

/-- The methods in the order of their declarations. -/
def methods (p : Program) : List Method := p.decls.filterMap Decl.method?

/-- The first method with the given name. -/
def method? (p : Program) (name : String) : Option Method :=
  p.methods.find? fun m => m.name == name

end Program
end WhileStatics
