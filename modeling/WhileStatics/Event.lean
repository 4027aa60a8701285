import WhileStatics.Span

/-!
# Events

What a pass tells about its progress besides its result. An event is data; its
level and its text are functions of it.
-/

namespace WhileStatics

/-- How much attention an event asks for. -/
inductive Level where
  | warn
  | debug
  | trace
  deriving DecidableEq, Inhabited

/-- The position of a level, the most severe first. -/
def Level.rank : Level → Nat
  | warn => 0
  | debug => 1
  | trace => 2

/-- Something worth telling that happened during a pass. -/
inductive Event where
  /-- A declaration took the place of an earlier one. -/
  | redeclared (name : String)
  /-- The numbers of declared methods, types and macros. -/
  | declared (methods types macros : Nat)
  /-- A program with this number of declarations is about to be analyzed. -/
  | analyzing (decls : Nat)
  /-- A method is about to be expanded. -/
  | expanding (method : String)
  /-- A method is about to be checked. -/
  | checking (method : String)
  /-- A macro is instantiated at `span`, inside `depth` other instantiations. -/
  | instantiating (name : String) (span : Span) (depth : Nat)
  /-- A macro body that cannot take part in expansion, so that its call stays. -/
  | leftInPlace (name : String)
  /-- An operand of a macro body that is neither a parameter nor a variable at the call. -/
  | unbound (name operand : String) (span : Span)
  deriving DecidableEq, Inhabited

namespace Event

/-- The level of an event. -/
def level : Event → Level
  | redeclared _ => .warn
  | declared .. => .debug
  | analyzing _ => .debug
  | expanding _ => .debug
  | checking _ => .debug
  | instantiating .. => .trace
  | leftInPlace _ => .warn
  | unbound .. => .warn

/-- The line that tells an event in the file at `path`. -/
def message (path : String) : Event → String
  | redeclared name => s!"{path}: redeclaration of `{name}` replaces the earlier one"
  | declared methods types macros =>
      s!"{path}: {methods} method(s), {types} type(s), {macros} macro(s)"
  | analyzing decls => s!"{path}: analyzing {decls} declaration(s)"
  | expanding method => s!"{path}: expanding method `{method}`"
  | checking method => s!"{path}: checking method `{method}`"
  | instantiating name span depth =>
      s!"{path}: instantiating macro `{name}` at {span.text} (depth {depth})"
  | leftInPlace name =>
      s!"{path}: body of macro `{name}` is not a binary, unary or constant expression; " ++
        "invocation left unexpanded"
  | unbound name operand span =>
      s!"macro `{name}` refers to `{operand}`, which is neither a parameter nor in scope at " ++
        span.text

/-- An event at least as severe as the given level. -/
def isAtLeast (threshold : Level) (e : Event) : Bool := e.level.rank ≤ threshold.rank

/-- The lines of the events that are at least as severe as the given level. -/
def lines (path : String) (threshold : Level) (events : List Event) : List (Level × String) :=
  (events.filter (isAtLeast threshold)).map fun e => (e.level, e.message path)

end Event
end WhileStatics
