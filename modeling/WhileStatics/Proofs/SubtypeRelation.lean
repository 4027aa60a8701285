import WhileStatics.Proofs.AliasChains
import Mathlib.Order.Bounds.Basic

/-!
# The subtype relation

`Matches types R a b` says that `b` can be below `a` as far as their outermost
constructors go, with the parts below them related by `R`. A simulation is a
relation whose pairs all match in this sense, and `Below` is the largest one.
`AgreesTo` follows two types down to a finite depth; what is related at every
depth is related outright, because the parts of a pair are determined by it.
-/

namespace WhileStatics.Ty

variable {types : TypeTable} {R S : Ty → Ty → Prop} {a b : Ty}

/-- The ways in which `b` can be below `a` where the parts of both are related by `R`. -/
inductive Matches (types : TypeTable) (R : Ty → Ty → Prop) (a b : Ty) : Prop
  | void (hb : b.resolve types = .ok .void)
  | primitive {p : Ty} (hp : p ∈ [.bool, .char, .int, .string])
      (ha : a.resolve types = .ok p) (hb : b.resolve types = .ok p)
  | array {s t : Ty} (ha : a.resolve types = .ok (.array s))
      (hb : b.resolve types = .ok (.array t)) (h : R s t)
  | record {fs gs : List (String × Ty)} (ha : a.resolve types = .ok (.record fs))
      (hb : b.resolve types = .ok (.record gs)) (hlength : fs.length ≤ gs.length)
      (h : ∀ p ∈ fs.zip gs, p.1.1 = p.2.1 ∧ R p.1.2 p.2.2)

namespace Matches

theorem mono (hRS : ∀ s t, R s t → S s t) (h : Matches types R a b) : Matches types S a b := by
  cases h with
  | void hb => exact .void hb
  | primitive hp ha hb => exact .primitive hp ha hb
  | array ha hb h => exact .array ha hb (hRS _ _ h)
  | record ha hb hlength h =>
      exact .record ha hb hlength fun p hp => ⟨(h p hp).1, hRS _ _ (h p hp).2⟩

/-- Only what the two types resolve to counts. -/
theorem congr {a' b' : Ty} (ha : a.resolve types = a'.resolve types)
    (hb : b.resolve types = b'.resolve types) (h : Matches types R a b) :
    Matches types R a' b' := by
  cases h with
  | void hb' => exact .void (hb ▸ hb')
  | primitive hp ha' hb' => exact .primitive hp (ha ▸ ha') (hb ▸ hb')
  | array ha' hb' h => exact .array (ha ▸ ha') (hb ▸ hb') h
  | record ha' hb' hlength h => exact .record (ha ▸ ha') (hb ▸ hb') hlength h

theorem array_iff {s t : Ty} (ha : a.resolve types = .ok (.array s))
    (hb : b.resolve types = .ok (.array t)) : Matches types R a b ↔ R s t := by
  constructor
  · intro h
    cases h with
    | void hb' => simp [hb] at hb'
    | primitive hp ha' _ =>
        obtain rfl := Except.ok.inj (ha.symm.trans ha')
        simp at hp
    | array ha' hb' h => simp_all
    | record ha' _ _ _ => simp [ha] at ha'
  · exact .array ha hb

theorem record_iff {fs gs : List (String × Ty)} (ha : a.resolve types = .ok (.record fs))
    (hb : b.resolve types = .ok (.record gs)) :
    Matches types R a b ↔
      fs.length ≤ gs.length ∧ ∀ p ∈ fs.zip gs, p.1.1 = p.2.1 ∧ R p.1.2 p.2.2 := by
  constructor
  · intro h
    cases h with
    | void hb' => simp [hb] at hb'
    | primitive hp ha' _ =>
        obtain rfl := Except.ok.inj (ha.symm.trans ha')
        simp at hp
    | array ha' _ _ => simp [ha] at ha'
    | record ha' hb' hlength h =>
        obtain rfl : fs = _ := Ty.record.inj (Except.ok.inj (ha.symm.trans ha'))
        obtain rfl : gs = _ := Ty.record.inj (Except.ok.inj (hb.symm.trans hb'))
        exact ⟨hlength, h⟩
  · rintro ⟨hlength, h⟩
    exact .record ha hb hlength h

end Matches

/-- A relation all of whose pairs match. -/
def IsSimulation (types : TypeTable) (R : Ty → Ty → Prop) : Prop :=
  ∀ a b, R a b → Matches types R a b

/-- `sub` is below `sup`: some simulation relates them. -/
def Below (types : TypeTable) (sup sub : Ty) : Prop :=
  ∃ R, IsSimulation types R ∧ R sup sub

theorem isSimulation_below (types : TypeTable) : IsSimulation types (Below types) := by
  rintro a b ⟨R, hR, hab⟩
  exact (hR a b hab).mono fun s t hst => ⟨R, hR, hst⟩

/-- `Below` is itself a simulation and contains every other one. -/
theorem isGreatest_below (types : TypeTable) :
    IsGreatest {R | IsSimulation types R} (Below types) := by
  refine ⟨isSimulation_below types, ?_⟩
  intro R hR a b hab
  exact ⟨R, hR, hab⟩

/-- No mismatch between the two types lies less than `depth` constructors deep. -/
def AgreesTo (types : TypeTable) : (depth : Nat) → Ty → Ty → Prop
  | 0 => fun _ _ => True
  | depth + 1 => Matches types (AgreesTo types depth)

theorem AgreesTo.pred {n : Nat} (h : AgreesTo types (n + 1) a b) : AgreesTo types n a b := by
  induction n generalizing a b with
  | zero => trivial
  | succ n ih => exact Matches.mono (fun _ _ => ih) h

theorem AgreesTo.le {m n : Nat} (hmn : m ≤ n) (h : AgreesTo types n a b) :
    AgreesTo types m a b := by
  induction hmn with
  | refl => exact h
  | step _ ih => exact ih h.pred

/-- What agrees at every depth matches with parts that agree at every depth. -/
theorem isSimulation_agreesTo (types : TypeTable) :
    IsSimulation types fun a b => ∀ n, AgreesTo types n a b := by
  intro a b h
  have hmatch : ∀ n, Matches types (AgreesTo types n) a b := fun n => h (n + 1)
  cases hmatch 0 with
  | void hb => exact .void hb
  | primitive hp ha hb => exact .primitive hp ha hb
  | array ha hb _ => exact .array ha hb fun n => (Matches.array_iff ha hb).1 (hmatch n)
  | record ha hb hlength hnames =>
      refine .record ha hb hlength fun p hp => ⟨(hnames p hp).1, fun n => ?_⟩
      exact (((Matches.record_iff ha hb).1 (hmatch n)).2 p hp).2

/-- Two types are related exactly when no finite depth shows a mismatch. -/
theorem below_iff_forall_agreesTo : Below types a b ↔ ∀ n, AgreesTo types n a b := by
  constructor
  · intro h n
    induction n generalizing a b with
    | zero => trivial
    | succ n ih => exact (isSimulation_below types a b h).mono fun _ _ => ih
  · intro h
    exact ⟨_, isSimulation_agreesTo types, h⟩

end WhileStatics.Ty
