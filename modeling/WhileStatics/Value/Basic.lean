/-!
# Literal values

The constants that a program can write: scalars, arrays of constants and
records of named constants.
-/

namespace WhileStatics

/-- A literal constant; record fields keep their written order. -/
inductive Value where
  | bool (b : Bool)
  | char (c : Char)
  | int (i : Int)
  | string (s : String)
  | array (items : List Value)
  | record (fields : List (String × Value))
  deriving Inhabited

namespace Value

/-- Induction on values with a hypothesis for every item and every field. -/
@[elab_as_elim, induction_eliminator]
theorem induction {motive : Value → Prop}
    (bool : ∀ b, motive (.bool b)) (char : ∀ c, motive (.char c))
    (int : ∀ i, motive (.int i)) (string : ∀ s, motive (.string s))
    (array : ∀ items, (∀ v ∈ items, motive v) → motive (.array items))
    (record : ∀ fields, (∀ f ∈ fields, motive f.2) → motive (.record fields))
    (v : Value) : motive v :=
  @Value.rec motive (fun items => ∀ v ∈ items, motive v)
    (fun fields => ∀ f ∈ fields, motive f.2) (fun f => motive f.2)
    bool char int string array record
    (fun _ h => nomatch h) (fun _ _ hd tl => List.forall_mem_cons.2 ⟨hd, tl⟩)
    (fun _ h => nomatch h) (fun _ _ hd tl => List.forall_mem_cons.2 ⟨hd, tl⟩)
    (fun _ _ h => h) v

mutual

/-- Structural comparison of values. -/
def same : Value → Value → Bool
  | .bool a, .bool b => a == b
  | .char a, .char b => a == b
  | .int a, .int b => a == b
  | .string a, .string b => a == b
  | .array us, .array vs => sameItems us vs
  | .record fs, .record gs => sameFields fs gs
  | _, _ => false

/-- Structural comparison of item lists. -/
def sameItems : List Value → List Value → Bool
  | [], [] => true
  | u :: us, v :: vs => same u v && sameItems us vs
  | _, _ => false

/-- Structural comparison of field lists. -/
def sameFields : List (String × Value) → List (String × Value) → Bool
  | [], [] => true
  | (m, u) :: fs, (n, v) :: gs => m == n && same u v && sameFields fs gs
  | _, _ => false

end

theorem sameItems_iff {us vs : List Value}
    (h : ∀ u ∈ us, ∀ v, same u v = true ↔ u = v) :
    sameItems us vs = true ↔ us = vs := by
  induction us generalizing vs with
  | nil => cases vs <;> simp [sameItems]
  | cons u us ih =>
      cases vs with
      | nil => simp [sameItems]
      | cons v vs =>
          simp [sameItems, h u (by simp) v, @ih vs fun w hw => h w (by simp [hw])]

theorem sameFields_iff {fs gs : List (String × Value)}
    (h : ∀ f ∈ fs, ∀ v, same f.2 v = true ↔ f.2 = v) :
    sameFields fs gs = true ↔ fs = gs := by
  induction fs generalizing gs with
  | nil => cases gs <;> simp [sameFields]
  | cons f fs ih =>
      obtain ⟨m, u⟩ := f
      cases gs with
      | nil => simp [sameFields]
      | cons g gs =>
          obtain ⟨n, v⟩ := g
          have hu : same u v = true ↔ u = v := h (m, u) (by simp) v
          simp [sameFields, hu, @ih gs fun f hf => h f (by simp [hf])]

theorem same_iff {u v : Value} : same u v = true ↔ u = v := by
  induction u generalizing v with
  | array us ih => cases v <;> simp [same, sameItems_iff fun w hw v => @ih w hw v]
  | record fs ih => cases v <;> simp [same, sameFields_iff fun f hf v => @ih f hf v]
  | _ => cases v <;> simp [same]

instance : DecidableEq Value := fun u v => decidable_of_iff (same u v = true) same_iff

end Value
end WhileStatics
