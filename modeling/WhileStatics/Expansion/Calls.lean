import WhileStatics.Logged

/-!
# Calls in expressions

`mapCalls f e` puts `f` in the place of every call in `e`, from the inside out
and from left to right. The arguments that `f` is given are mapped already.
-/

namespace WhileStatics.Expr

mutual

/-- Replaces every call in an expression, arguments first. -/
def mapCalls (f : Info → String → List Expr → Logged Expr) : Expr → Logged Expr
  | .binary i op l r => do
      let l' ← mapCalls f l
      let r' ← mapCalls f r
      return .binary i op l' r'
  | .unary i op x => do
      let x' ← mapCalls f x
      return .unary i op x'
  | .const i v => pure (.const i v)
  | .var i n => pure (.var i n)
  | .index i s p => do
      let s' ← mapCalls f s
      let p' ← mapCalls f p
      return .index i s' p'
  | .call i n as => do
      let as' ← mapCallsList f as
      f i n as'
  | .generate i v c => do
      let v' ← mapCalls f v
      let c' ← mapCalls f c
      return .generate i v' c'
  | .array i es => do
      let es' ← mapCallsList f es
      return .array i es'
  | .access i s n => do
      let s' ← mapCalls f s
      return .access i s' n
  | .record i fs => do
      let fs' ← mapCallsFields f fs
      return .record i fs'

/-- Replaces every call in a list of expressions. -/
def mapCallsList (f : Info → String → List Expr → Logged Expr) :
    List Expr → Logged (List Expr)
  | [] => pure []
  | e :: es => do
      let e' ← mapCalls f e
      let es' ← mapCallsList f es
      return e' :: es'

/-- Replaces every call in the values of record fields. -/
def mapCallsFields (f : Info → String → List Expr → Logged Expr) :
    List (String × Expr) → Logged (List (String × Expr))
  | [] => pure []
  | (n, e) :: fs => do
      let e' ← mapCalls f e
      let fs' ← mapCallsFields f fs
      return (n, e') :: fs'

end

end WhileStatics.Expr
