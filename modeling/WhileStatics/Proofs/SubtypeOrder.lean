import WhileStatics.Proofs.SubtypeDecision

/-!
# The order of types

Being below is a preorder on the types whose names resolve. Each law is shown by
giving a simulation, and a name is equivalent to the type that it is declared as
because both resolve to the same type.
-/

namespace WhileStatics.Ty

variable {types : TypeTable} {R : Ty → Ty → Prop} {a b c : Ty}

/-! ### Inversion by the lower type -/

namespace Matches

theorem inv_primitive {p : Ty} (h : Matches types R a b) (hp : p ∈ [Ty.bool, .char, .int, .string])
    (hb : b.resolve types = .ok p) : a.resolve types = .ok p := by
  cases h with
  | void hb' =>
      obtain rfl := Except.ok.inj (hb.symm.trans hb')
      simp at hp
  | primitive _ ha hb' =>
      obtain rfl := Except.ok.inj (hb.symm.trans hb')
      exact ha
  | array _ hb' _ =>
      obtain rfl := Except.ok.inj (hb.symm.trans hb')
      simp at hp
  | record _ hb' _ _ =>
      obtain rfl := Except.ok.inj (hb.symm.trans hb')
      simp at hp

theorem inv_array {t : Ty} (h : Matches types R a b) (hb : b.resolve types = .ok (.array t)) :
    ∃ s, a.resolve types = .ok (.array s) ∧ R s t := by
  cases h with
  | void hb' => cases hb.symm.trans hb'
  | primitive hp _ hb' =>
      obtain rfl := Except.ok.inj (hb.symm.trans hb')
      simp at hp
  | @array s t' ha hb' hst =>
      obtain rfl : t = t' := Ty.array.inj (Except.ok.inj (hb.symm.trans hb'))
      exact ⟨s, ha, hst⟩
  | record _ hb' _ _ => cases hb.symm.trans hb'

theorem inv_record {gs : List (String × Ty)} (h : Matches types R a b)
    (hb : b.resolve types = .ok (.record gs)) :
    ∃ fs, a.resolve types = .ok (.record fs) ∧ fs.length ≤ gs.length ∧
      ∀ p ∈ fs.zip gs, p.1.1 = p.2.1 ∧ R p.1.2 p.2.2 := by
  cases h with
  | void hb' => cases hb.symm.trans hb'
  | primitive hp _ hb' =>
      obtain rfl := Except.ok.inj (hb.symm.trans hb')
      simp at hp
  | array _ hb' _ => cases hb.symm.trans hb'
  | @record fs gs' ha hb' hlength hfields =>
      obtain rfl : gs = gs' := Ty.record.inj (Except.ok.inj (hb.symm.trans hb'))
      exact ⟨fs, ha, hlength, hfields⟩

end Matches

/-! ### The laws of a preorder -/

/-- Types whose outermost constructors match and whose parts are related are related. -/
theorem Below.of_matches (h : Matches types (Below types) a b) : Below types a b := by
  refine ⟨Matches types (Below types), ?_, h⟩
  intro s t hst
  exact hst.mono (isSimulation_below types)

theorem Below.refl (h : NamesResolve types a) : Below types a a := by
  have hnames := hereditary_namesResolve types
  refine ⟨fun s t => s = t ∧ NamesResolve types s, ?_, rfl, h⟩
  rintro s _ ⟨rfl, hs⟩
  obtain ⟨u, hu⟩ := hs.exists_resolve
  have hparts := hnames.resolved hs hu
  cases u with
  | void => exact .void hu
  | bool | char | int | string => exact .primitive (by simp) hu hu
  | array e => exact .array hu hu ⟨rfl, hnames.element hparts⟩
  | record fs =>
      refine .record hu hu (Nat.le_refl _) fun p hp => ?_
      have hsame : p.1 = p.2 := (List.forall₂_iff_zip.1 (List.forall₂_refl fs)).2 hp
      exact ⟨by rw [hsame], by rw [hsame], hnames.field hparts (List.of_mem_zip hp).1⟩
  | named n => exact absurd rfl (shape_of_resolve hu)

/-- Lists that are related position by position to a common list that is not shorter than the
first one are related through it. -/
theorem forall_zip_trans {α : Type} {r s : α → α → Prop} {as bs cs : List α}
    (hlength : as.length ≤ bs.length) (hr : ∀ p ∈ as.zip bs, r p.1 p.2)
    (hs : ∀ p ∈ bs.zip cs, s p.1 p.2) : ∀ p ∈ as.zip cs, ∃ b, r p.1 b ∧ s b p.2 := by
  induction as generalizing bs cs with
  | nil => simp
  | cons a as ih =>
      cases bs with
      | nil => simp at hlength
      | cons b bs =>
          cases cs with
          | nil => simp
          | cons c cs =>
              rw [List.zip_cons_cons, List.forall_mem_cons] at hr hs ⊢
              exact ⟨⟨b, hr.1, hs.1⟩, ih (by simpa using hlength) hr.2 hs.2⟩

theorem Below.trans (hab : Below types a b) (hbc : Below types b c) : Below types a c := by
  refine ⟨fun s t => ∃ u, Below types s u ∧ Below types u t, ?_, b, hab, hbc⟩
  rintro s t ⟨u, hsu, hut⟩
  have hupper := isSimulation_below types s u hsu
  cases isSimulation_below types u t hut with
  | void ht => exact .void ht
  | primitive hp hu ht => exact .primitive hp (hupper.inv_primitive hp hu) ht
  | @array f g hu ht hfg =>
      obtain ⟨e, hs, hef⟩ := hupper.inv_array hu
      exact .array hs ht ⟨f, hef, hfg⟩
  | @record gs ks hu ht hlength hfields =>
      obtain ⟨fs, hs, hlength', hfields'⟩ := hupper.inv_record hu
      refine .record hs ht (hlength'.trans hlength) fun p hp => ?_
      obtain ⟨g, ⟨hname, hbelow⟩, hname', hbelow'⟩ :=
        forall_zip_trans (r := fun f g => f.1 = g.1 ∧ Below types f.2 g.2)
          (s := fun f g => f.1 = g.1 ∧ Below types f.2 g.2) hlength' hfields' hfields p hp
      exact ⟨hname.trans hname', g.2, hbelow, hbelow'⟩

/-- Types that resolve to the same type are below each other. -/
theorem Below.of_resolve_eq (h : a.resolve types = b.resolve types) (ha : NamesResolve types a) :
    Below types a b :=
  .of_matches ((isSimulation_below types a a (.refl ha)).congr rfl h)

/-- The test for equivalence accepts exactly the pairs that are below each other. -/
theorem equivalent_eq_true_iff (ha : NamesResolve types a) (hb : NamesResolve types b) :
    equivalent types a b = .ok true ↔ Below types a b ∧ Below types b a := by
  rw [← isSubtype_eq_true_iff ha hb, ← isSubtype_eq_true_iff hb ha, equivalent, bindM_eq_ok_iff]
  constructor
  · rintro ⟨answer, habove, hbelow⟩
    cases answer with
    | true => exact ⟨habove, by simpa using hbelow⟩
    | false => simp at hbelow
  · rintro ⟨habove, hbelow⟩
    exact ⟨true, habove, by simpa using hbelow⟩

end WhileStatics.Ty
