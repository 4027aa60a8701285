import WhileStatics.Fault

/-!
# Diagnostics

A diagnostic is what a user sees of a failure: its kind, the file and span, a
message, the label of the marked place and possibly advice. A report shows one
diagnostic against the source text.
-/

namespace WhileStatics

/-- A failure as it is shown. -/
structure Diagnostic where
  kind : Kind
  path : String
  span : Span
  message : String
  label : String
  help : Option String
  deriving DecidableEq, Inhabited

/-- A marked place of the source text. -/
structure Label where
  text : String
  offset : Nat
  length : Nat
  deriving DecidableEq, Inhabited

/-- A diagnostic against the text that it is about. -/
structure Report where
  message : String
  labels : List Label
  help : Option String
  sourceName : String
  source : String
  deriving DecidableEq, Inhabited

namespace Diagnostic

/-- A diagnostic without advice whose label repeats its message. -/
def ofMessage (kind : Kind) (path : String) (span : Span) (message : String) : Diagnostic :=
  { kind, path, span, message, label := message, help := none }

/-- The same diagnostic under another label. -/
def withLabel (d : Diagnostic) (label : String) : Diagnostic := { d with label }

/-- The same diagnostic with the given advice. -/
def withHelp (d : Diagnostic) (help : String) : Diagnostic := { d with help := some help }

/-- The message after the code of its kind. -/
def headline (d : Diagnostic) : String := s!"[{d.kind.code}] {d.message}"

/-- The report of a diagnostic marks its span and nothing else. -/
def report (d : Diagnostic) (source : String) : Report where
  message := d.message
  labels := [⟨d.label, d.span.start, d.span.length⟩]
  help := d.help
  sourceName := d.path
  source := source

end Diagnostic

/-- The diagnostic of a failure, which is put down to the file at `path` if it names none. -/
def Failure.diagnostic (f : Failure) (path : String) : Diagnostic where
  kind := f.fault.kind
  path := f.path?.getD path
  span := f.span
  message := f.fault.message
  label := f.fault.label
  help := f.fault.help?

end WhileStatics
