import WhileStatics.Ty.Resolution

/-!
# Validity of types

A type as written is valid when every name in it resolves and no record in it
repeats a field. Validity does not look into declarations; each declaration is
validated where it stands.
-/

namespace WhileStatics.Ty

mutual

/-- Every name in the type resolves and no record in it repeats a field. -/
def validate (types : TypeTable) : Ty → Except Fault Unit
  | .named n => do
      let _ ← resolve types (.named n)
  | .array e => validate types e
  | .record fs => validateFields types (.record fs) [] fs
  | _ => .ok ()

/-- Goes through the fields of the record type `whole`, of which `seen` lie behind. -/
def validateFields (types : TypeTable) (whole : Ty) :
    (seen : List String) → List (String × Ty) → Except Fault Unit
  | _, [] => .ok ()
  | seen, (n, t) :: fs =>
      if n ∈ seen then .error (.repeatedField n whole)
      else do
        validate types t
        validateFields types whole (n :: seen) fs

end

end WhileStatics.Ty
