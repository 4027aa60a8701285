import WhileStatics.Expr.Basic
import WhileStatics.Text

/-!
# Expression dumps

The one-line text of an expression inside messages about programs that should
not have reached a pass. It shows every node with its span and its type slot;
only the outermost node is shown without them.
-/

namespace WhileStatics

open Text

/-- Both ends of the span by name. -/
def Span.dump (s : Span) : String :=
  dumpNode "Span" [("start", toString s.start), ("end", toString s.stop)]

namespace Ty

mutual

/-- The constructors of a type, fields as records of type and name. -/
def dump : Ty → String
  | .void => "Void"
  | .bool => "Bool"
  | .char => "Char"
  | .int => "Int"
  | .string => "String"
  | .array e => dumpWrap "Array" e.dump
  | .record fs => dumpWrap "Record" (dumpList (fieldDumps fs))
  | .named n => dumpWrap "Named" (quoteString n)

/-- Each field on its own. -/
def fieldDumps : List (String × Ty) → List String
  | [] => []
  | (n, t) :: fs =>
      dumpNode "RecordField" [("ty", t.dump), ("name", quoteString n)] :: fieldDumps fs

end

end Ty

namespace Value

mutual

/-- The constructors of a literal. -/
def dump : Value → String
  | .bool b => dumpWrap "Bool" (toString b)
  | .char c => dumpWrap "Char" (quoteChar c)
  | .int i => dumpWrap "Int" (toString i)
  | .string s => dumpWrap "String" (quoteString s)
  | .array vs => dumpWrap "Array" (dumpList (itemDumps vs))
  | .record fs => dumpWrap "Record" (dumpList (fieldDumps fs))

/-- Each item on its own. -/
def itemDumps : List Value → List String
  | [] => []
  | v :: vs => v.dump :: itemDumps vs

/-- Each field as a pair. -/
def fieldDumps : List (String × Value) → List String
  | [] => []
  | (n, v) :: fs => dumpPair (quoteString n) v.dump :: fieldDumps fs

end

end Value

/-- The name of an operator in a dump. -/
def BinaryOp.dump : BinaryOp → String
  | and => "And"
  | or => "Or"
  | add => "Add"
  | sub => "Sub"
  | mul => "Mul"
  | div => "Div"
  | rem => "Rem"
  | eq => "Eq"
  | notEq => "NotEq"
  | lt => "Lt"
  | ltEq => "LtEq"
  | gt => "Gt"
  | gtEq => "GtEq"

/-- The name of an operator in a dump. -/
def UnaryOp.dump : UnaryOp → String
  | not => "Not"
  | neg => "Neg"
  | lengthOf => "LengthOf"

namespace Expr

/-- A node below the root, shown with its span and its type slot. -/
def dumpWithInfo (info : Info) (node : String) : String :=
  dumpNode "Expr"
    [("kind", node), ("span", info.span.dump), ("ty", dumpOption (info.ty.map Ty.dump))]

mutual

/-- The root without its span and type slot, everything below with them. -/
def dump : Expr → String
  | .binary _ op l r =>
      dumpNode "Binary"
        [("op", op.dump), ("lhs", dumpWithInfo l.info l.dump),
          ("rhs", dumpWithInfo r.info r.dump)]
  | .unary _ op x =>
      dumpNode "Unary" [("op", op.dump), ("operand", dumpWithInfo x.info x.dump)]
  | .const _ v => dumpWrap "Constant" v.dump
  | .var _ n => dumpWrap "Variable" (quoteString n)
  | .index _ s p =>
      dumpNode "IndexOf"
        [("source", dumpWithInfo s.info s.dump), ("index", dumpWithInfo p.info p.dump)]
  | .call _ n as =>
      dumpNode "Invoke" [("name", quoteString n), ("args", dumpList (itemDumps as))]
  | .generate _ v c =>
      dumpNode "ArrayGenerator"
        [("value", dumpWithInfo v.info v.dump), ("size", dumpWithInfo c.info c.dump)]
  | .array _ es => dumpWrap "ArrayInitialiser" (dumpList (itemDumps es))
  | .access _ s f =>
      dumpNode "RecordAccess"
        [("source", dumpWithInfo s.info s.dump), ("field", quoteString f)]
  | .record _ fs => dumpWrap "RecordConstructor" (dumpList (fieldDumps fs))

/-- Each item with its span and type slot. -/
def itemDumps : List Expr → List String
  | [] => []
  | e :: es => dumpWithInfo e.info e.dump :: itemDumps es

/-- Each field as a pair. -/
def fieldDumps : List (String × Expr) → List String
  | [] => []
  | (n, e) :: fs =>
      dumpPair (quoteString n) (dumpWithInfo e.info e.dump) :: fieldDumps fs

end

end Expr
end WhileStatics
