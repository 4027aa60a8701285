/-!
# Types

The types of the language: five primitives, arrays, records whose fields are
ordered, and names that stand for declared types. A name has no shape of its
own until it is resolved.

## Implementation notes

Record fields are a list of pairs and not a map, because their order decides
subtyping and a type as written may repeat a field.
-/

namespace WhileStatics

/-- A type as written in a program. -/
inductive Ty where
  | void
  | bool
  | char
  | int
  | string
  | array (element : Ty)
  | record (fields : List (String × Ty))
  | named (name : String)
  deriving Inhabited

/-- The outermost constructor of a type that is not a name. -/
inductive Shape where
  | void
  | bool
  | char
  | int
  | string
  | array
  | record
  deriving DecidableEq

/-- The word for a shape in messages. -/
def Shape.name : Shape → String
  | void => "void"
  | bool => "bool"
  | char => "char"
  | int => "int"
  | string => "string"
  | array => "array"
  | record => "record"

namespace Ty

/-- Induction on types with a hypothesis for every field of a record. -/
@[elab_as_elim, induction_eliminator]
theorem induction {motive : Ty → Prop}
    (void : motive .void) (bool : motive .bool) (char : motive .char)
    (int : motive .int) (string : motive .string)
    (array : ∀ element, motive element → motive (.array element))
    (record : ∀ fields, (∀ f ∈ fields, motive f.2) → motive (.record fields))
    (named : ∀ name, motive (.named name)) (t : Ty) : motive t :=
  @Ty.rec motive (fun fields => ∀ f ∈ fields, motive f.2) (fun f => motive f.2)
    void bool char int string array record named
    (fun _ h => nomatch h) (fun _ _ hd tl => List.forall_mem_cons.2 ⟨hd, tl⟩)
    (fun _ _ h => h) t

mutual

/-- Structural comparison of types. -/
def same : Ty → Ty → Bool
  | .void, .void => true
  | .bool, .bool => true
  | .char, .char => true
  | .int, .int => true
  | .string, .string => true
  | .array s, .array t => same s t
  | .record fs, .record gs => sameFields fs gs
  | .named m, .named n => m == n
  | _, _ => false

/-- Structural comparison of field lists. -/
def sameFields : List (String × Ty) → List (String × Ty) → Bool
  | [], [] => true
  | (m, s) :: fs, (n, t) :: gs => m == n && same s t && sameFields fs gs
  | _, _ => false

end

theorem sameFields_iff {fs gs : List (String × Ty)}
    (h : ∀ f ∈ fs, ∀ t, same f.2 t = true ↔ f.2 = t) :
    sameFields fs gs = true ↔ fs = gs := by
  induction fs generalizing gs with
  | nil => cases gs <;> simp [sameFields]
  | cons f fs ih =>
      obtain ⟨m, s⟩ := f
      cases gs with
      | nil => simp [sameFields]
      | cons g gs =>
          obtain ⟨n, t⟩ := g
          have hs : same s t = true ↔ s = t := h (m, s) (by simp) t
          simp [sameFields, hs, @ih gs fun f hf => h f (by simp [hf])]

theorem same_iff {s t : Ty} : same s t = true ↔ s = t := by
  induction s generalizing t with
  | array e ih => cases t <;> simp [same, ih]
  | record fs ih => cases t <;> simp [same, sameFields_iff fun f hf t => @ih f hf t]
  | named n => cases t <;> simp [same]
  | _ => cases t <;> simp [same]

instance : DecidableEq Ty := fun s t => decidable_of_iff (same s t = true) same_iff

/-- The outermost constructor, absent for a name. -/
def shape? : Ty → Option Shape
  | .void => some .void
  | .bool => some .bool
  | .char => some .char
  | .int => some .int
  | .string => some .string
  | .array _ => some .array
  | .record _ => some .record
  | .named _ => none

theorem shape?_eq_none_iff {t : Ty} : t.shape? = none ↔ ∃ n, t = .named n := by
  cases t <;> simp [shape?]

/-- The type of the first field with the given name, if the type is a record with one. -/
def field? (name : String) : Ty → Option Ty
  | .record fields => fields.lookup name
  | _ => none

mutual

/-- The number of subterms. -/
def size : Ty → Nat
  | .array e => e.size + 1
  | .record fs => fieldsSize fs + 1
  | _ => 1

/-- The number of subterms of the field types. -/
def fieldsSize : List (String × Ty) → Nat
  | [] => 0
  | (_, t) :: fs => t.size + fieldsSize fs

end

mutual

/-- The type as messages show it: fields in braces, a pair of brackets after an element. -/
def text : Ty → String
  | .void => "void"
  | .bool => "bool"
  | .char => "char"
  | .int => "int"
  | .string => "string"
  | .array e => e.text ++ "[]"
  | .record fs => "\x7b" ++ ", ".intercalate (fieldTexts fs) ++ "\x7d"
  | .named n => n

/-- Each field as its type and its name. -/
def fieldTexts : List (String × Ty) → List String
  | [] => []
  | (n, t) :: fs => (t.text ++ " " ++ n) :: fieldTexts fs

end

end Ty
end WhileStatics
