import WhileStatics.Proofs.Inference

/-!
# Literals written out

A literal can stand in an expression as one constant, or be written out with
constructors for its arrays and records. The constant is typed as a literal,
which looks for repeated fields as it goes; the constructors are typed one by
one, and the type of a record is validated when it is complete. Both ways accept
the same literals and give them the same types, in any scope.
-/

namespace WhileStatics

/-! ### Writing a literal out -/

/-- The expression has a constructor for every array and every record of the literal, and constants
for its scalars. Spans and slots are arbitrary. -/
inductive Writes : Expr → Value → Prop
  | bool {i b} : Writes (.const i (.bool b)) (.bool b)
  | char {i c} : Writes (.const i (.char c)) (.char c)
  | int {i n} : Writes (.const i (.int n)) (.int n)
  | string {i s} : Writes (.const i (.string s)) (.string s)
  | array {i es vs} (h : List.Forall₂ Writes es vs) : Writes (.array i es) (.array vs)
  | record {i} {fs : List (String × Expr)} {gs : List (String × Value)}
      (hnames : fs.map Prod.fst = gs.map Prod.fst)
      (h : List.Forall₂ Writes (fs.map Prod.snd) (gs.map Prod.snd)) :
      Writes (.record i fs) (.record gs)

namespace Value

mutual

/-- The literal written out, with the same span and slot at every node. -/
def lift (info : Info) : Value → Expr
  | .array vs => .array info (liftItems info vs)
  | .record fs => .record info (liftFields info fs)
  | v => .const info v

/-- The items of an array written out. -/
def liftItems (info : Info) : List Value → List Expr
  | [] => []
  | v :: vs => lift info v :: liftItems info vs

/-- The fields of a record written out. -/
def liftFields (info : Info) : List (String × Value) → List (String × Expr)
  | [] => []
  | (n, v) :: fs => (n, lift info v) :: liftFields info fs

end

theorem liftItems_eq_map (info : Info) (vs : List Value) :
    liftItems info vs = vs.map (lift info) := by
  induction vs with
  | nil => rfl
  | cons v vs ih => rw [liftItems, ih, List.map_cons]

theorem liftFields_eq_map (info : Info) (fs : List (String × Value)) :
    liftFields info fs = fs.map fun f => (f.1, f.2.lift info) := by
  induction fs with
  | nil => rfl
  | cons f fs ih => rw [liftFields, ih, List.map_cons]

theorem writes_lift (info : Info) (v : Value) : Writes (v.lift info) v := by
  induction v with
  | bool _ => exact .bool
  | char _ => exact .char
  | int _ => exact .int
  | string _ => exact .string
  | array vs ih =>
      rw [lift, liftItems_eq_map]
      refine .array (List.forall₂_map_left_iff.2 ?_)
      exact List.forall₂_same.2 ih
  | record fs ih =>
      rw [lift, liftFields_eq_map]
      refine .record (by rw [List.map_map]; rfl) ?_
      rw [List.map_map, List.forall₂_map_left_iff, List.forall₂_map_right_iff]
      exact List.forall₂_same.2 ih

end Value

/-! ### Constructors and the types of their parts -/

/-- Named items correspond when the names are the same and the items correspond. -/
theorem forall₂_named_iff {α β : Type} {R : α → β → Prop} (fs : List (String × α))
    (gs : List (String × β)) :
    List.Forall₂ (fun f g => f.1 = g.1 ∧ R f.2 g.2) fs gs ↔
      ∃ bs, List.Forall₂ R (fs.map Prod.snd) bs ∧ gs = (fs.map Prod.fst).zip bs := by
  induction fs generalizing gs with
  | nil => simp
  | cons f fs ih =>
      simp only [List.forall₂_cons_left_iff, List.map_cons, ih]
      constructor
      · rintro ⟨⟨_, b⟩, _, ⟨rfl, hb⟩, ⟨bs, hbs, rfl⟩, rfl⟩
        exact ⟨b :: bs, ⟨b, bs, hb, hbs, rfl⟩, rfl⟩
      · rintro ⟨_, ⟨b, bs, hb, hbs, rfl⟩, rfl⟩
        exact ⟨(f.1, b), _, ⟨rfl, hb⟩, ⟨bs, hbs, rfl⟩, rfl⟩

variable {ds : Declarations} {scope : Scope} {e : Expr} {v : Value} {t : Ty}

/-- The types of a list of expressions, without the expressions with their slots filled. -/
theorem exists_forall₂_infer_iff {es : List Expr} {ts : List Ty} :
    (∃ rs, List.Forall₂ (fun e r => ds.infer scope e = .ok r) es rs ∧ rs.map Typed.ty = ts) ↔
      List.Forall₂ (fun e t => ∃ e', ds.infer scope e = .ok ⟨e', t⟩) es ts := by
  constructor
  · rintro ⟨rs, hrs, rfl⟩
    exact List.forall₂_map_right_iff.2 (hrs.imp fun _ r hr => ⟨r.expr, hr⟩)
  · intro h
    induction h with
    | nil => exact ⟨[], .nil, rfl⟩
    | cons he _ ih =>
        obtain ⟨e', he'⟩ := he
        obtain ⟨rs, hrs, rfl⟩ := ih
        exact ⟨⟨e', _⟩ :: rs, .cons he' hrs, rfl⟩

theorem exists_infer_const_iff {i : Info} :
    (∃ e', ds.infer scope (.const i v) = .ok ⟨e', t⟩) ↔ v.typeOf ds.types = .ok t := by
  simp only [Declarations.infer, bindM_eq_ok_iff, pureM_eq_ok_iff, atSpan_eq_ok_iff,
    Typed.mk.injEq]
  constructor
  · rintro ⟨_, _, ht, _, rfl⟩
    exact ht
  · intro ht
    exact ⟨_, t, ht, rfl, rfl⟩

theorem exists_infer_array_iff {i : Info} {es : List Expr} :
    (∃ e', ds.infer scope (.array i es) = .ok ⟨e', t⟩) ↔
      ∃ ts, List.Forall₂ (fun e t => ∃ e', ds.infer scope e = .ok ⟨e', t⟩) es ts ∧
        ∃ element, Ty.leastUpperBound ds.types ts = .ok element ∧ .array element = t := by
  simp only [Declarations.infer, bindM_eq_ok_iff, pureM_eq_ok_iff, atSpan_eq_ok_iff,
    Declarations.inferList_eq_ok_iff, Typed.mk.injEq, ← exists_forall₂_infer_iff]
  constructor
  · rintro ⟨_, rs, hrs, element, hbound, _, ht⟩
    exact ⟨_, ⟨rs, hrs, rfl⟩, element, hbound, ht⟩
  · rintro ⟨_, ⟨rs, hrs, rfl⟩, element, hbound, ht⟩
    exact ⟨_, rs, hrs, element, hbound, rfl, ht⟩

theorem exists_infer_record_iff {i : Info} {fs : List (String × Expr)} :
    (∃ e', ds.infer scope (.record i fs) = .ok ⟨e', t⟩) ↔
      ∃ ts, List.Forall₂ (fun e t => ∃ e', ds.infer scope e = .ok ⟨e', t⟩) (fs.map Prod.snd) ts ∧
        t.WellFormed ds.types ∧ .record ((fs.map Prod.fst).zip ts) = t := by
  have hfields := forall₂_named_iff (R := fun e r => ds.infer scope e = .ok r) fs
  have htypes (rs : List Typed) : ((fs.map Prod.fst).zip rs).map (fun f => (f.1, f.2.ty)) =
      (fs.map Prod.fst).zip (rs.map Typed.ty) := by
    rw [List.zip_map_right]
    rfl
  simp only [Declarations.infer, bindM_eq_ok_iff, pureM_eq_ok_iff, atSpan_eq_ok_iff,
    Declarations.inferFields_eq_ok_iff, hfields, Typed.mk.injEq, ← exists_forall₂_infer_iff,
    ← Ty.validate_eq_ok_iff]
  constructor
  · rintro ⟨_, _, ⟨rs, hrs, rfl⟩, ⟨⟩, hvalid, _, rfl⟩
    rw [htypes] at hvalid ⊢
    exact ⟨_, ⟨rs, hrs, rfl⟩, hvalid, rfl⟩
  · rintro ⟨_, ⟨rs, hrs, rfl⟩, hvalid, rfl⟩
    rw [← htypes] at hvalid ⊢
    exact ⟨_, _, ⟨rs, hrs, rfl⟩, (), hvalid, rfl, rfl⟩

theorem Value.typeOf_record_eq_ok_iff {types : TypeTable} {gs : List (String × Value)} :
    (Value.record gs).typeOf types = .ok t ↔
      ∃ ts, List.Forall₂ (fun v t => v.typeOf types = .ok t) (gs.map Prod.snd) ts ∧
        (gs.map Prod.fst).Nodup ∧ .record ((gs.map Prod.fst).zip ts) = t := by
  have hfields := forall₂_named_iff (R := fun v t => Value.typeOf types v = .ok t) gs
  simp only [Value.typeOf, bindM_eq_ok_iff, pureM_eq_ok_iff, Value.fieldTypes_eq_ok_iff, hfields]
  constructor
  · rintro ⟨_, ⟨_, hnodup, ts, hts, rfl⟩, ht⟩
    exact ⟨ts, hts, hnodup, ht⟩
  · rintro ⟨ts, hts, hnodup, ht⟩
    exact ⟨_, ⟨by simp, hnodup, ts, hts, rfl⟩, ht⟩

/-- A record of well-formed types is well formed if no field is repeated. -/
theorem Ty.wellFormed_record_iff {types : TypeTable} {names : List String} {ts : List Ty}
    (hlength : names.length = ts.length) (hts : ∀ t ∈ ts, Ty.WellFormed types t) :
    Ty.WellFormed types (.record (names.zip ts)) ↔ names.Nodup := by
  have hnames : (names.zip ts).map Prod.fst = names := List.map_fst_zip (Nat.le_of_eq hlength)
  constructor
  · intro h
    cases h with
    | record hnodup _ => exact hnames ▸ hnodup
  · intro hnodup
    exact .record (hnames.symm ▸ hnodup) fun f hf => hts f.2 (List.of_mem_zip hf).2

/-! ### The same types -/

theorem forall₂_infer_iff_of_writes {es : List Expr} {vs : List Value} {ts : List Ty}
    (h : List.Forall₂ Writes es vs)
    (ih : ∀ v ∈ vs, ∀ {e t}, Writes e v →
      ((∃ e', ds.infer scope e = .ok ⟨e', t⟩) ↔ v.typeOf ds.types = .ok t)) :
    List.Forall₂ (fun e t => ∃ e', ds.infer scope e = .ok ⟨e', t⟩) es ts ↔
      List.Forall₂ (fun v t => v.typeOf ds.types = .ok t) vs ts := by
  constructor
  · intro hes
    exact forall₂_transport hes (forall₂_imp_of_mem h.flip fun v hv e he t => (ih v hv he).1).flip
  · intro hvs
    exact forall₂_transport hvs (forall₂_imp_of_mem h.flip fun v hv e he t => (ih v hv he).2)

/-- A literal that is written out is inferred to have the type of the literal. -/
theorem exists_infer_iff_of_writes (h : Writes e v) :
    (∃ e', ds.infer scope e = .ok ⟨e', t⟩) ↔ v.typeOf ds.types = .ok t := by
  induction v generalizing e t with
  | bool _ | char _ | int _ | string _ =>
      cases h
      exact exists_infer_const_iff
  | array vs ih =>
      cases h with
      | array hes =>
          simp only [exists_infer_array_iff, forall₂_infer_iff_of_writes hes ih, Value.typeOf,
            bindM_eq_ok_iff, pureM_eq_ok_iff, Value.itemTypes_eq_ok_iff]
  | record gs ih =>
      cases h with
      | record hnames hes =>
          have ih' : ∀ v ∈ gs.map Prod.snd, ∀ {e t}, Writes e v →
              ((∃ e', ds.infer scope e = .ok ⟨e', t⟩) ↔ v.typeOf ds.types = .ok t) :=
            List.forall_mem_map.2 fun g hg => ih g hg
          rw [exists_infer_record_iff, Value.typeOf_record_eq_ok_iff, hnames]
          refine exists_congr fun ts => ?_
          rw [forall₂_infer_iff_of_writes hes ih']
          refine and_congr_right fun hts => and_congr_left fun ht => ?_
          -- The parts are types of literals, so that only the names can be wrong.
          have hparts := forall_mem_of_forall₂ hts fun v _ t ht =>
            Value.constructive_typeOf (Ty.constructive_wellFormed ds.types) ht
          rw [← ht, Ty.wellFormed_record_iff (by simpa using hts.length_eq) hparts]

/-- Inference fails where no type can be inferred. -/
theorem exists_infer_error_iff :
    (∃ failure, ds.infer scope e = .error failure) ↔
      ¬ ∃ t e', ds.infer scope e = .ok ⟨e', t⟩ := by
  cases ds.infer scope e with
  | error failure => simp
  | ok r => simpa using ⟨r.ty, r.expr, rfl⟩

/-- Every literal can be written out with constructors. Whatever the declarations and the scope, an
expression that writes it out is inferred to have the type of the literal, if it has one, as the
constant is; and the expression is rejected exactly when the constant is. -/
theorem written_literal_typed_as_constant (ds : Declarations) (scope : Scope) (v : Value) :
    (∀ info, Writes (v.lift info) v) ∧
    ∀ e, Writes e v →
      (∀ t, (∃ e', ds.infer scope e = .ok ⟨e', t⟩) ↔ v.typeOf ds.types = .ok t) ∧
      ∀ info,
        (∀ t, (∃ e', ds.infer scope e = .ok ⟨e', t⟩) ↔
          ∃ e', ds.infer scope (.const info v) = .ok ⟨e', t⟩) ∧
        ((∃ failure, ds.infer scope e = .error failure) ↔
          ∃ failure, ds.infer scope (.const info v) = .error failure) := by
  refine ⟨fun info => v.writes_lift info, fun e he => ⟨fun t => ?_, fun info => ⟨fun t => ?_, ?_⟩⟩⟩
  · exact exists_infer_iff_of_writes he
  · rw [exists_infer_iff_of_writes he, exists_infer_const_iff]
  · simp only [exists_infer_error_iff, exists_infer_iff_of_writes he, exists_infer_const_iff]

/-- Three records of which the second has the broadest type. -/
def Value.parcels : Value :=
  .array [
    .record [("id", .int 1), ("items", .array []), ("code", .char 'a')],
    .record [("id", .int 2), ("items", .array [.string "lamp"])],
    .record [("id", .int 3), ("items", .array [])]]

/-- A repeated field that holds an array of unlike items. -/
def Value.torn : Value :=
  .record [("id", .int 1), ("id", .array [.int 2, .bool true])]

/-- A file without declarations. -/
def Declarations.ofLiterals : Declarations where
  path := "literals"

/-- The records have their common type also when they are written out. In the other literal the
repeated field is found before its value is looked at; written out, the literal is rejected too. -/
theorem parcels_and_torn_written_out :
    (∃ e', Declarations.ofLiterals.infer {} (Value.parcels.lift {}) =
      .ok ⟨e', .array (.record [("id", .int), ("items", .array .string)])⟩) ∧
    Declarations.ofLiterals.infer {} (.const {} Value.torn) =
      .error ⟨.repeatedLiteralField "id", {}, "literals"⟩ ∧
    ∃ failure, Declarations.ofLiterals.infer {} (Value.torn.lift {}) = .error failure := by
  have hparcels := written_literal_typed_as_constant .ofLiterals {} Value.parcels
  have htorn := written_literal_typed_as_constant .ofLiterals {} Value.torn
  refine ⟨?_, rfl, ?_⟩
  · exact ((hparcels.2 _ (hparcels.1 {})).1 _).2 rfl
  · exact ((htorn.2 _ (htorn.1 {})).2 {}).2.2 ⟨_, rfl⟩

end WhileStatics
