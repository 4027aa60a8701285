import WhileStatics.Ty.Subtyping
import WhileStatics.Value.Basic

/-!
# Types of literals

The type of a literal is the narrowest one it has: an array takes the least
upper bound of its items, and a record takes the types of its fields in their
order.
-/

namespace WhileStatics.Value

mutual

/-- The type of a literal. -/
def typeOf (types : TypeTable) : Value → Except Fault Ty
  | .bool _ => .ok .bool
  | .char _ => .ok .char
  | .int _ => .ok .int
  | .string _ => .ok .string
  | .array vs => do
      let ts ← itemTypes types vs
      let element ← Ty.leastUpperBound types ts
      return .array element
  | .record fs => do
      let fields ← fieldTypes types [] fs
      return .record fields

/-- The types of the items in their order. -/
def itemTypes (types : TypeTable) : List Value → Except Fault (List Ty)
  | [] => .ok []
  | v :: vs => do
      let t ← typeOf types v
      let ts ← itemTypes types vs
      return t :: ts

/-- The types of the fields in their order, none of which may be among those `seen` before. -/
def fieldTypes (types : TypeTable) :
    (seen : List String) → List (String × Value) → Except Fault (List (String × Ty))
  | _, [] => .ok []
  | seen, (n, v) :: fs =>
      if n ∈ seen then .error (.repeatedLiteralField n)
      else do
        let t ← typeOf types v
        let ts ← fieldTypes types (n :: seen) fs
        return (n, t) :: ts

end

end WhileStatics.Value
