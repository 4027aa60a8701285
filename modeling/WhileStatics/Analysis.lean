import WhileStatics.Diagnostic
import WhileStatics.Expansion.Program
import WhileStatics.Typing.Program

/-!
# Analysis

The analysis of a program expands its macros and then checks its types. Passes
can also be run one by one, each on what the last successful one produced.
-/

namespace WhileStatics

/-- The options of both passes. -/
structure AnalysisOptions where
  expand : ExpandOptions := {}
  check : CheckOptions := {}
  deriving DecidableEq, Inhabited

/-- The defaults, overridden by the texts for expansion where given. -/
def AnalysisOptions.ofSettings (limit lenient : Option String) : AnalysisOptions where
  expand := .ofSettings limit lenient

/-- Expands the macros of a program and checks the types of the result. -/
def Program.analyze (p : Program) (options : AnalysisOptions := {}) : Logged Program := do
  Logged.tell (.analyzing p.decls.length)
  let q ← p.expand options.expand
  q.check options.check

/-- The passes over a program. -/
inductive Pass where
  | expand
  | check
  | analyze
  deriving DecidableEq, Inhabited

/-- Runs a pass with the options that it has. -/
def Pass.run (pass : Pass) (options : AnalysisOptions) (p : Program) : Logged Program :=
  match pass with
  | .expand => p.expand options.expand
  | .check => p.check options.check
  | .analyze => p.analyze options

/-- The value of a computation, or the diagnostic of its failure; a failure of a rule on its own is
put down to the file at `path`. -/
def Logged.outcome {α : Type} (x : Logged α) (path : String) : Except Diagnostic α :=
  x.result.mapError fun f => f.diagnostic path

/-- The result of one pass in a row of passes. -/
structure PassResult where
  outcome : Except Diagnostic Program
  /-- The pass succeeded and gave back the program it was run on. -/
  unchanged : Bool

/-- Runs passes in a row; one that fails leaves the program as it was. -/
def Program.runPasses (p : Program) :
    List (Pass × AnalysisOptions) → List PassResult × List Event
  | [] => ([], [])
  | (pass, options) :: rest =>
      let out := pass.run options p
      let next :=
        match out.result with
        | .ok q => q
        | .error _ => p
      let unchanged :=
        match out.result with
        | .ok q => decide (q = p)
        | .error _ => false
      let after := next.runPasses rest
      (⟨out.outcome p.path, unchanged⟩ :: after.1, out.events ++ after.2)

end WhileStatics
