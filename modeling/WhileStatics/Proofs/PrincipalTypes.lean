import WhileStatics.Proofs.CheckingFailures
import WhileStatics.Proofs.LeastUpperBounds
import WhileStatics.Proofs.Unfoldings

/-!
# Principal types of literals

A literal inhabits a type when the type, resolved, has its form and the parts of
the literal inhabit the parts of the type; a record may have more fields than the
type asks for. The inferred type of a literal is its principal type: the literal
inhabits exactly the types above it, also recursive ones. Names play no part in
inference, so a literal has the same type whatever types are declared.
-/

namespace WhileStatics

/-- Lists whose items correspond have corresponding relations, position by position, to a third
list. -/
theorem forall_zip_iff_of_forall₂ {α β γ : Type} {A : γ → α → Prop} {B : γ → β → Prop}
    {as : List α} {bs : List β} (h : List.Forall₂ (fun a b => ∀ c, A c a ↔ B c b) as bs)
    (cs : List γ) : (∀ p ∈ cs.zip as, A p.1 p.2) ↔ ∀ p ∈ cs.zip bs, B p.1 p.2 := by
  induction h generalizing cs with
  | nil => simp
  | cons hab _ ih =>
      cases cs with
      | nil => simp
      | cons c cs =>
          rw [List.zip_cons_cons, List.zip_cons_cons, List.forall_mem_cons,
            List.forall_mem_cons, hab c, ih cs]

theorem bindM_congr {ε α β : Type} {x : Except ε α} {f g : α → Except ε β}
    (h : ∀ a, x = .ok a → f a = g a) : (x >>= f) = (x >>= g) := by
  cases x with
  | error e => rfl
  | ok a => exact h a rfl

namespace Ty

variable {types types' : TypeTable} {named named' : Ty → Ty → Except Fault Bool} {a b s t : Ty}

/-! ### Types above a type with a shape -/

theorem below_primitive_iff {p : Ty} (hp : p ∈ [Ty.bool, .char, .int, .string]) :
    Below types s p ↔ s.resolve types = .ok p := by
  have hresolve : p.resolve types = .ok p := resolve_of_shape (by cases p <;> simp_all [shape?])
  constructor
  · intro h
    exact (isSimulation_below types s p h).inv_primitive hp hresolve
  · intro hs
    exact .of_matches (.primitive hp hs hresolve)

theorem below_array_iff :
    Below types s (.array t) ↔ ∃ e, s.resolve types = .ok (.array e) ∧ Below types e t := by
  constructor
  · intro h
    exact (isSimulation_below types s _ h).inv_array (resolve_array t)
  · rintro ⟨e, hs, he⟩
    exact .of_matches (.array hs (resolve_array t) he)

theorem below_record_iff {gs : List (String × Ty)} :
    Below types s (.record gs) ↔
      ∃ fs, s.resolve types = .ok (.record fs) ∧ fs.length ≤ gs.length ∧
        ∀ p ∈ fs.zip gs, p.1.1 = p.2.1 ∧ Below types p.1.2 p.2.2 := by
  constructor
  · intro h
    exact (isSimulation_below types s _ h).inv_record (resolve_record gs)
  · rintro ⟨fs, hs, hlength, hfields⟩
    exact .of_matches (.record hs (resolve_record gs) hlength hfields)

/-! ### Types without names -/

/-- No record in the type repeats a field. -/
def DistinctFields (t : Ty) : Prop :=
  ∀ fs, .record fs ∈ subterms t → (fs.map Prod.fst).Nodup

theorem constructive_nameless : Constructive Nameless where
  primitive t ht n hn := by
    cases t <;> simp [subterms] at ht hn
  array he n hn := he n (by simpa [subterms] using hn)
  record _ hfs n hn := by
    obtain ⟨f, hf, hn⟩ := mem_fieldSubterms.1 (by simpa [subterms] using hn)
    exact hfs f hf n hn

theorem constructive_distinctFields : Constructive DistinctFields where
  primitive t ht fs hfs := by
    cases t <;> simp [subterms] at ht hfs
  array he fs hfs := he fs (by simpa [subterms] using hfs)
  record hnodup hparts gs hgs := by
    rw [subterms, List.mem_cons, Ty.record.injEq] at hgs
    rcases hgs with rfl | hgs
    · exact hnodup
    · obtain ⟨f, hf, hgs⟩ := mem_fieldSubterms.1 hgs
      exact hparts f hf gs hgs

theorem compareFieldsWith_congr {fs gs : List (String × Ty)}
    (h : ∀ p ∈ fs.zip gs, compareWith named p.1.2 p.2.2 = compareWith named' p.1.2 p.2.2) :
    compareFieldsWith named fs gs = compareFieldsWith named' fs gs := by
  induction fs generalizing gs with
  | nil => simp [compareFieldsWith]
  | cons f fs ih =>
      cases gs with
      | nil => simp [compareFieldsWith]
      | cons g gs =>
          rw [List.zip_cons_cons, List.forall_mem_cons] at h
          rw [compareFieldsWith, compareFieldsWith, h.1, ih h.2]

/-- Nothing is asked about names in a comparison of types without them. -/
theorem compareWith_eq_of_nameless (ha : Nameless a) (hb : Nameless b) :
    compareWith named a b = compareWith named' a b := by
  induction a, b using comparison_induction with
  | void a => rw [compareWith_void, compareWith_void]
  | name a b _ hname =>
      rcases hname with hname | hname
      · exact absurd hname ha.shape
      · exact absurd hname hb.shape
  | primitive p hp => rw [compareWith_primitive hp, compareWith_primitive hp]
  | array s t ih =>
      rw [compareWith, compareWith]
      exact ih ha.element hb.element
  | record fs gs ih =>
      rw [compareWith, compareWith, compareFieldsWith_congr fun p hp => ?_]
      exact ih p hp (ha.field (List.of_mem_zip hp).1) (hb.field (List.of_mem_zip hp).2)
  | clash a b hvoid hsa hsb hne =>
      rw [compareWith_clash hvoid hsa hsb hne, compareWith_clash hvoid hsa hsb hne]

theorem exists_subtypeWithin_eq_compareWith (types : TypeTable) (budget : Nat)
    (assumed : List (Ty × Ty)) :
    ∃ named, subtypeWithin types budget assumed = compareWith named := by
  cases budget <;> exact ⟨_, rfl⟩

theorem isSubtype_eq_of_nameless (types types' : TypeTable) (ha : Nameless a) (hb : Nameless b) :
    isSubtype types a b = isSubtype types' a b := by
  obtain ⟨named, h⟩ := exists_subtypeWithin_eq_compareWith types (unfoldings types a b) []
  obtain ⟨named', h'⟩ := exists_subtypeWithin_eq_compareWith types' (unfoldings types' a b) []
  rw [isSubtype, isSubtype, h, h', compareWith_eq_of_nameless ha hb]

theorem boundFrom_eq_of_nameless (types types' : TypeTable) {ts : List Ty} (ha : Nameless a)
    (hts : ∀ t ∈ ts, Nameless t) : boundFrom types a ts = boundFrom types' a ts := by
  induction ts generalizing a with
  | nil => rfl
  | cons t ts ih =>
      rw [List.forall_mem_cons] at hts
      rw [boundFrom, boundFrom, isSubtype_eq_of_nameless types types' hts.1 ha,
        isSubtype_eq_of_nameless types types' ha hts.1, ih ha hts.2, ih hts.1 hts.2]

end Ty

namespace Value

/-! ### Inhabitation -/

/-- The literal has the form of the resolved type, and its parts inhabit the parts of the type.
Nothing inhabits `void`. -/
inductive Inhabits (types : TypeTable) : Value → Ty → Prop
  | bool {b t} (ht : t.resolve types = .ok .bool) : Inhabits types (.bool b) t
  | char {c t} (ht : t.resolve types = .ok .char) : Inhabits types (.char c) t
  | int {i t} (ht : t.resolve types = .ok .int) : Inhabits types (.int i) t
  | string {s t} (ht : t.resolve types = .ok .string) : Inhabits types (.string s) t
  | array {vs t e} (ht : t.resolve types = .ok (.array e)) (h : ∀ v ∈ vs, Inhabits types v e) :
      Inhabits types (.array vs) t
  | record {vs : List (String × Value)} {t fs} (ht : t.resolve types = .ok (.record fs))
      (hlength : fs.length ≤ vs.length) (hnames : ∀ p ∈ fs.zip vs, p.1.1 = p.2.1)
      (h : ∀ p ∈ fs.zip vs, Inhabits types p.2.2 p.1.2) : Inhabits types (.record vs) t

variable {types types' : TypeTable} {s t : Ty} {v : Value}

theorem inhabits_array_iff {vs : List Value} :
    (Value.array vs).Inhabits types s ↔
      ∃ e, s.resolve types = .ok (.array e) ∧ ∀ v ∈ vs, v.Inhabits types e := by
  constructor
  · intro h
    cases h with
    | array hs h => exact ⟨_, hs, h⟩
  · rintro ⟨e, hs, h⟩
    exact .array hs h

theorem inhabits_record_iff {vs : List (String × Value)} :
    (Value.record vs).Inhabits types s ↔
      ∃ fs, s.resolve types = .ok (.record fs) ∧ fs.length ≤ vs.length ∧
        ∀ p ∈ fs.zip vs, p.1.1 = p.2.1 ∧ p.2.2.Inhabits types p.1.2 := by
  constructor
  · intro h
    cases h with
    | record hs hlength hnames h => exact ⟨_, hs, hlength, fun p hp => ⟨hnames p hp, h p hp⟩⟩
  · rintro ⟨fs, hs, hlength, h⟩
    exact .record hs hlength (fun p hp => (h p hp).1) fun p hp => (h p hp).2

/-- The types above the inferred one are those that the literal inhabits. -/
theorem below_typeOf_iff (h : v.typeOf types = .ok t) :
    Ty.Below types s t ↔ v.Inhabits types s := by
  have hnames := Ty.constructive_namesResolve types
  induction v generalizing s t with
  | bool b =>
      obtain rfl := Except.ok.inj h
      rw [Ty.below_primitive_iff (by simp)]
      exact ⟨.bool, fun h => by cases h; assumption⟩
  | char c =>
      obtain rfl := Except.ok.inj h
      rw [Ty.below_primitive_iff (by simp)]
      exact ⟨.char, fun h => by cases h; assumption⟩
  | int i =>
      obtain rfl := Except.ok.inj h
      rw [Ty.below_primitive_iff (by simp)]
      exact ⟨.int, fun h => by cases h; assumption⟩
  | string c =>
      obtain rfl := Except.ok.inj h
      rw [Ty.below_primitive_iff (by simp)]
      exact ⟨.string, fun h => by cases h; assumption⟩
  | array vs ih =>
      simp only [typeOf, bindM_eq_ok_iff, pureM_eq_ok_iff, itemTypes_eq_ok_iff] at h
      obtain ⟨ts, hts, element, hbound, rfl⟩ := h
      have hresolve := forall_mem_of_forall₂ hts fun v _ t ht => constructive_typeOf hnames ht
      have hitems :
          List.Forall₂ (fun v t => ∀ {s}, Ty.Below types s t ↔ v.Inhabits types s) vs ts :=
        forall₂_imp_of_mem hts fun v hv t ht s => ih v hv ht
      rw [Ty.below_array_iff, inhabits_array_iff]
      refine exists_congr fun e => and_congr_right fun _ => ?_
      rw [Ty.below_leastUpperBound_iff hresolve hbound]
      constructor
      · intro hall
        exact forall_mem_of_forall₂ hitems.flip fun t ht v hv => hv.1 (hall t ht)
      · intro hall
        exact forall_mem_of_forall₂ hitems fun v hv t ht => ht.2 (hall v hv)
  | record vs ih =>
      simp only [typeOf, bindM_eq_ok_iff, pureM_eq_ok_iff, fieldTypes_eq_ok_iff] at h
      obtain ⟨ts, ⟨_, _, hts⟩, rfl⟩ := h
      have hfields : List.Forall₂ (fun t f => ∀ g : String × Ty,
          g.1 = t.1 ∧ Ty.Below types g.2 t.2 ↔ g.1 = f.1 ∧ f.2.Inhabits types g.2) ts vs := by
        refine (forall₂_imp_of_mem hts fun f hf t ht g => ?_).flip
        exact and_congr (by rw [ht.1]) (ih f hf ht.2)
      rw [Ty.below_record_iff, inhabits_record_iff, hts.length_eq]
      refine exists_congr fun fs => and_congr_right fun _ => and_congr_right fun _ => ?_
      exact forall_zip_iff_of_forall₂ hfields fs

/-! ### Other tables -/

theorem itemTypes_congr {vs : List Value} (h : ∀ v ∈ vs, v.typeOf types = v.typeOf types') :
    itemTypes types vs = itemTypes types' vs := by
  induction vs with
  | nil => rfl
  | cons v vs ih =>
      rw [List.forall_mem_cons] at h
      rw [itemTypes, itemTypes, h.1, ih h.2]

theorem fieldTypes_congr {seen : List String} {fs : List (String × Value)}
    (h : ∀ f ∈ fs, f.2.typeOf types = f.2.typeOf types') :
    fieldTypes types seen fs = fieldTypes types' seen fs := by
  induction fs generalizing seen with
  | nil => rfl
  | cons f fs ih =>
      rw [List.forall_mem_cons] at h
      rw [fieldTypes, fieldTypes, h.1, ih h.2]

/-- The type of a literal, or the fault in it, does not depend on the declared types. -/
theorem typeOf_eq_typeOf (types types' : TypeTable) (v : Value) :
    v.typeOf types = v.typeOf types' := by
  induction v with
  | bool _ | char _ | int _ | string _ => rfl
  | array vs ih =>
      rw [typeOf, typeOf, itemTypes_congr ih]
      refine bindM_congr fun ts hts => ?_
      have hnameless := forall_mem_of_forall₂ (itemTypes_eq_ok_iff.1 hts) fun v _ t ht =>
        constructive_typeOf Ty.constructive_nameless ht
      have hvoid := Ty.constructive_nameless.primitive .void (by simp)
      rw [Ty.leastUpperBound, Ty.leastUpperBound,
        Ty.boundFrom_eq_of_nameless types types' hvoid hnameless]
  | record fs ih => rw [typeOf, typeOf, fieldTypes_congr ih]

/-! ### Failures -/

/-- A literal has no type only if a field is repeated or items do not match. -/
theorem failsOnly_typeOf_kinds (types : TypeTable) (v : Value) :
    FailsOnly (fun fault => fault.kind = .duplicateField ∨ fault.kind = .typeMismatch)
      (v.typeOf types) := by
  induction v with
  | bool _ | char _ | int _ | string _ => exact failsOnly_ok _
  | array vs ih =>
      rw [typeOf]
      refine (failsOnly_itemTypes ih).bindM fun ts hts => ?_
      have hnames := forall_mem_of_forall₂ (itemTypes_eq_ok_iff.1 hts) fun v _ t ht =>
        constructive_typeOf (Ty.constructive_namesResolve types) ht
      refine ((Ty.failsOnly_leastUpperBound hnames).mono fun fault hkind => ?_).bindM fun _ _ =>
        failsOnly_ok _
      exact .inr hkind
  | record fs ih =>
      rw [typeOf]
      exact (failsOnly_fieldTypes (fun _ => .inl rfl) ih).bindM fun _ _ => failsOnly_ok _

/-! ### Principal types -/

/-- An inferred type has no names in it and no repeated fields, and the types above it are exactly
those that the literal inhabits. The outcome is the same whatever types are declared, and a failure
is a repeated field or a mismatch. -/
theorem typeOf_infers_principal_types (v : Value) :
    (∀ types t, v.typeOf types = .ok t →
      t.Nameless ∧ t.DistinctFields ∧
        ∀ s, Ty.NamesResolve types s →
          (Ty.isSubtype types s t = .ok true ↔ v.Inhabits types s)) ∧
    (∀ types types', v.typeOf types = v.typeOf types') ∧
    ∀ types fault, v.typeOf types = .error fault →
      fault.kind = .duplicateField ∨ fault.kind = .typeMismatch := by
  refine ⟨fun types t ht => ⟨?_, ?_, fun s hs => ?_⟩, fun types types' => ?_, fun types => ?_⟩
  · exact constructive_typeOf Ty.constructive_nameless ht
  · exact constructive_typeOf Ty.constructive_distinctFields ht
  · have hresolve := constructive_typeOf (Ty.constructive_namesResolve types) ht
    rw [Ty.isSubtype_eq_true_iff hs hresolve, below_typeOf_iff ht]
  · exact typeOf_eq_typeOf types types' v
  · exact failsOnly_typeOf_kinds types v

/-- Trees with any number of children. -/
def treeTypes : TypeTable where
  entries := [("Tree",
    ⟨"Tree", .record [("label", .int), ("children", .array (.named "Tree"))], {}⟩)]
  nodup := by decide

/-- A tree with two leaves, one of which has a field more than trees need. -/
def sapling : Value :=
  .record [("label", .int 1), ("children", .array [
    .record [("label", .int 2), ("children", .array []), ("mark", .char 'm')],
    .record [("label", .int 3), ("children", .array [])]])]

/-- The type of the literal names no trees, and yet the literal is one; it is no array of trees. -/
theorem sapling_inhabits_tree :
    sapling.typeOf treeTypes = .ok (.record [("label", .int), ("children", .array
      (.record [("label", .int), ("children", .array .void)]))]) ∧
    sapling.Inhabits treeTypes (.named "Tree") ∧
    ¬ sapling.Inhabits treeTypes (.array (.named "Tree")) := by
  have htype : sapling.typeOf treeTypes = .ok (.record [("label", .int), ("children", .array
      (.record [("label", .int), ("children", .array .void)]))]) := rfl
  have hdecls : ∀ e ∈ treeTypes.entries, Ty.validate treeTypes e.2.ty = .ok () := by
    simp only [treeTypes, List.forall_mem_singleton]
    rfl
  have hprincipal := ((typeOf_infers_principal_types sapling).1 treeTypes _ htype).2.2
  refine ⟨htype, ?_, fun h => ?_⟩
  · exact (hprincipal _ (Ty.namesResolve_of_validate hdecls rfl)).1 rfl
  · have hanswer := (hprincipal _ (Ty.namesResolve_of_validate hdecls rfl)).2 h
    cases hanswer

end Value

end WhileStatics
