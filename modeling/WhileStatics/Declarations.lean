import WhileStatics.Event
import WhileStatics.Program
import WhileStatics.Table

/-!
# Declarations

The declarations of a program by kind and name. Where a name is declared more
than once within a kind, the last declaration counts.
-/

namespace WhileStatics

/-- The tables of a program, and the path of the file that it stands in. -/
structure Declarations where
  path : String
  methods : Table Method := .empty
  types : Table TypeDecl := .empty
  macros : Table MacroDecl := .empty
  deriving Inhabited

namespace Declarations

/-- A declaration of the same kind and name is in the tables. -/
def declares (ds : Declarations) : Decl → Bool
  | .method m => ds.methods.contains m.name
  | .type t => ds.types.contains t.name
  | .macroDecl m => ds.macros.contains m.name

/-- Enters a declaration in the table of its kind. -/
def insert (ds : Declarations) : Decl → Declarations
  | .method m => { ds with methods := ds.methods.insert m.name m }
  | .type t => { ds with types := ds.types.insert t.name t }
  | .macroDecl m => { ds with macros := ds.macros.insert m.name m }

/-- The tables after all declarations of a list. -/
def insertAll (ds : Declarations) (decls : List Decl) : Declarations :=
  decls.foldl insert ds

/-- One event for every declaration that takes the place of an earlier one. -/
def redeclarations (ds : Declarations) : List Decl → List Event
  | [] => []
  | d :: rest =>
      (if ds.declares d then [.redeclared d.name] else []) ++
        redeclarations (ds.insert d) rest

/-- The event that counts the entries of the tables. -/
def tally (ds : Declarations) : Event :=
  .declared ds.methods.size ds.types.size ds.macros.size

end Declarations

namespace Program

/-- The tables of a program. -/
def declarations (p : Program) : Declarations :=
  Declarations.insertAll { path := p.path } p.decls

/-- What is told when the tables are built: the redeclarations, then the counts. -/
def declarationEvents (p : Program) : List Event :=
  Declarations.redeclarations { path := p.path } p.decls ++ [p.declarations.tally]

end Program
end WhileStatics
