import WhileStatics.Ty.Resolution

/-!
# Subtyping

`void` is below every type, arrays follow their elements, and a record is below
another one that its leading fields match by name and type. Names stand for
what they resolve to, so types may be recursive: a pair of types that is being
compared already counts as related, which makes the relation the largest one
with these rules.

## Implementation notes

A comparison unfolds names only at pairs it does not assume yet, and all such
pairs consist of subterms of the two types and of the declared types. The
square of the number of these subterms therefore bounds how deep unfoldings
nest, and when it is used up every pair is assumed.
-/

namespace WhileStatics.Ty

mutual

/-- Compares two types down to the names in them, about which `named` decides. -/
def compareWith (named : Ty → Ty → Except Fault Bool) : (sup sub : Ty) → Except Fault Bool
  | _, .void => .ok true
  | .bool, .bool => .ok true
  | .char, .char => .ok true
  | .int, .int => .ok true
  | .string, .string => .ok true
  | .array s, .array t => compareWith named s t
  | .record fs, .record gs =>
      if gs.length < fs.length then .ok false else compareFieldsWith named fs gs
  | .named m, sub => named (.named m) sub
  | sup, .named n => named sup (.named n)
  | _, _ => .ok false

/-- Compares fields position by position until one of the lists ends. -/
def compareFieldsWith (named : Ty → Ty → Except Fault Bool) :
    (sup sub : List (String × Ty)) → Except Fault Bool
  | (m, s) :: fs, (n, t) :: gs =>
      if m = n then do
        if ← compareWith named s t then compareFieldsWith named fs gs else .ok false
      else .ok false
  | _, _ => .ok true

end

/-- Whether `sub` is below `sup` where the pairs in `assumed` count as related. -/
def subtypeWithin (types : TypeTable) :
    (budget : Nat) → (assumed : List (Ty × Ty)) → (sup sub : Ty) → Except Fault Bool
  | 0, _ => compareWith fun _ _ => .ok true
  | budget + 1, assumed =>
      compareWith fun sup sub =>
        if (sup, sub) ∈ assumed then .ok true
        else do
          let s ← sup.resolve types
          let t ← sub.resolve types
          subtypeWithin types budget ((sup, sub) :: assumed) s t

/-- The number of subterms of all declared types. -/
def declaredSize (types : TypeTable) : Nat :=
  types.entries.foldr (fun e n => e.2.ty.size + n) 0

/-- How deep the unfoldings of a comparison can nest. -/
def unfoldings (types : TypeTable) (sup sub : Ty) : Nat :=
  let subterms := sup.size + sub.size + declaredSize types
  subterms * subterms

/-- Whether `sub` is below `sup`. -/
def isSubtype (types : TypeTable) (sup sub : Ty) : Except Fault Bool :=
  subtypeWithin types (unfoldings types sup sub) [] sup sub

/-- Fails unless `sub` is below `sup`. -/
def requireSubtype (types : TypeTable) (sup sub : Ty) : Except Fault Unit := do
  if ← isSubtype types sup sub then .ok () else .error (.notSubtype sup sub)

/-- Whether each of the types is below the other. -/
def equivalent (types : TypeTable) (lhs rhs : Ty) : Except Fault Bool := do
  if ← isSubtype types lhs rhs then isSubtype types rhs lhs else .ok false

/-- Whether one of the types is below the other. -/
def comparable (types : TypeTable) (lhs rhs : Ty) : Except Fault Bool := do
  if ← isSubtype types lhs rhs then .ok true else isSubtype types rhs lhs

/-- The largest of `best` and the listed types, each compared with the largest one before it. -/
def boundFrom (types : TypeTable) (best : Ty) : List Ty → Except Fault Ty
  | [] => .ok best
  | t :: ts => do
      if ← isSubtype types t best then boundFrom types t ts
      else do
        if ← isSubtype types best t then boundFrom types best ts
        else .error (.noCommonSupertype best t)

/-- The narrowest type that all listed types are below. -/
def leastUpperBound (types : TypeTable) (ts : List Ty) : Except Fault Ty :=
  boundFrom types .void ts

end WhileStatics.Ty
