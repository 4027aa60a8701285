import WhileStatics.Proofs.NestedBlocks
import WhileStatics.Proofs.ReturnTypes
import WhileStatics.Proofs.Tables
import Mathlib.Algebra.BigOperators.Group.List.Basic
import Mathlib.Data.List.Nodup

/-!
# Agreeing declarations

Checking asks little of the declarations of a program: what file they are in,
what type a name stands for, what types a method takes and returns, and whether a
name is a macro. Declarations that agree on these answers check every method
alike, to the same faults at the same places.

## Implementation notes

The bounds on resolving a name and on comparing two types are counted off the
table of types. Tables that agree have the same entries in some order, so the
bounds are the same too.
-/

namespace WhileStatics

/-! ### Tables -/

namespace Table

variable {α β : Type} {t t' : Table α} {f : α → β}

theorem mem_entries_iff {name : String} {a : α} :
    (name, a) ∈ t.entries ↔ t.get? name = some a := by
  refine ⟨fun h => ?_, mem_of_get?⟩
  obtain ⟨before, after, heq⟩ := List.append_of_mem h
  have hnodup := t.nodup
  rw [heq, List.map_append, List.map_cons] at hnodup
  refine List.lookup_eq_some_iff.2 ⟨before, after, heq, fun e he => ?_⟩
  have hne : name ≠ e.1 := by
    rintro rfl
    exact (List.nodup_append.1 hnodup).2.2 _ (List.mem_map_of_mem he) _ (by simp) rfl
  simpa using hne

theorem mem_map_entries_iff {name : String} {b : β} :
    (name, b) ∈ t.entries.map (Prod.map id f) ↔ (t.get? name).map f = some b := by
  simp [← mem_entries_iff]

theorem nodup_map_entries (t : Table α) (f : α → β) : (t.entries.map (Prod.map id f)).Nodup := by
  apply List.Nodup.of_map Prod.fst
  simpa [List.map_map, Function.comp_def] using t.nodup

/-- Tables with the same look-ups have the same entries in some order. -/
theorem perm_entries (h : ∀ n, (t.get? n).map f = (t'.get? n).map f) :
    (t.entries.map (Prod.map id f)).Perm (t'.entries.map (Prod.map id f)) := by
  rw [List.perm_ext_iff_of_nodup (t.nodup_map_entries f) (t'.nodup_map_entries f)]
  rintro ⟨n, b⟩
  rw [mem_map_entries_iff, mem_map_entries_iff, h]

theorem size_eq (h : ∀ n, (t.get? n).map f = (t'.get? n).map f) : t.size = t'.size := by
  simpa [size] using (perm_entries h).length_eq

end Table

/-! ### Types -/

/-- A name stands for the same type in both tables. -/
def TypeTable.Agree (types types' : TypeTable) : Prop :=
  ∀ n, (types.get? n).map TypeDecl.ty = (types'.get? n).map TypeDecl.ty

namespace TypeTable.Agree

variable {types types' : TypeTable}

theorem follow_eq (h : types.Agree types') (steps : Nat) (visited : List String) (t : Ty) :
    t.follow types steps visited = t.follow types' steps visited := by
  induction steps generalizing visited t with
  | zero => cases t <;> rfl
  | succ steps ih =>
      cases t with
      | named n =>
          have hn := h n
          rw [Ty.follow, Ty.follow]
          cases hd : types.get? n with
          | none =>
              rw [hd, Option.map_none, eq_comm, Option.map_eq_none_iff] at hn
              rw [hn]
          | some d =>
              rw [hd, Option.map_some, eq_comm, Option.map_eq_some_iff] at hn
              obtain ⟨d', hd', hty⟩ := hn
              simp only [hd', hty, ih]
      | _ => rfl

theorem resolve_eq (h : types.Agree types') (t : Ty) : t.resolve types = t.resolve types' := by
  rw [Ty.resolve, Ty.resolve, Table.size_eq h, h.follow_eq]

theorem declaredSize_eq (h : types.Agree types') :
    Ty.declaredSize types = Ty.declaredSize types' := by
  have hsum : ∀ types : TypeTable, Ty.declaredSize types =
      ((types.entries.map (Prod.map id TypeDecl.ty)).map fun e => e.2.size).sum := by
    intro types
    rw [Ty.declaredSize, List.map_map, List.sum, List.foldr_map]
    rfl
  rw [hsum, hsum, ((Table.perm_entries h).map _).sum_eq]

theorem subtypeWithin_eq (h : types.Agree types') (budget : Nat) (assumed : List (Ty × Ty))
    (sup sub : Ty) :
    Ty.subtypeWithin types budget assumed sup sub =
      Ty.subtypeWithin types' budget assumed sup sub := by
  induction budget generalizing assumed sup sub with
  | zero => rfl
  | succ budget ih => simp only [Ty.subtypeWithin, h.resolve_eq, ih]

theorem isSubtype_eq (h : types.Agree types') (sup sub : Ty) :
    Ty.isSubtype types sup sub = Ty.isSubtype types' sup sub := by
  rw [Ty.isSubtype, Ty.isSubtype, Ty.unfoldings, Ty.unfoldings, h.declaredSize_eq,
    h.subtypeWithin_eq]

theorem leastUpperBound_eq (h : types.Agree types') (ts : List Ty) :
    Ty.leastUpperBound types ts = Ty.leastUpperBound types' ts := by
  have hfrom : ∀ best, Ty.boundFrom types best ts = Ty.boundFrom types' best ts := by
    induction ts with
    | nil => exact fun _ => rfl
    | cons t ts ih => simp only [Ty.boundFrom, h.isSubtype_eq, ih, implies_true]
  exact hfrom .void

theorem validateFields_eq {whole : Ty} {fs : List (String × Ty)} (seen : List String)
    (h : ∀ f ∈ fs, f.2.validate types = f.2.validate types') :
    Ty.validateFields types whole seen fs = Ty.validateFields types' whole seen fs := by
  induction fs generalizing seen with
  | nil => rfl
  | cons f fs ih =>
      rw [List.forall_mem_cons] at h
      rw [Ty.validateFields, Ty.validateFields, h.1, ih _ h.2]

theorem validate_eq (h : types.Agree types') (t : Ty) : t.validate types = t.validate types' := by
  induction t with
  | array e ih => rw [Ty.validate, Ty.validate, ih]
  | record fs ih => rw [Ty.validate, Ty.validate, validateFields_eq [] ih]
  | named n => rw [Ty.validate, Ty.validate, h.resolve_eq]
  | _ => rfl

/-! ### Literals -/

mutual

theorem typeOf_eq (h : types.Agree types') : (v : Value) → v.typeOf types = v.typeOf types'
  | .bool _ | .char _ | .int _ | .string _ => rfl
  | .array vs => by
      simp only [Value.typeOf, h.itemTypes_eq vs, h.leastUpperBound_eq]
  | .record fs => by
      rw [Value.typeOf, Value.typeOf, h.fieldTypes_eq [] fs]

theorem itemTypes_eq (h : types.Agree types') :
    (vs : List Value) → Value.itemTypes types vs = Value.itemTypes types' vs
  | [] => rfl
  | v :: vs => by
      rw [Value.itemTypes, Value.itemTypes, h.typeOf_eq v, h.itemTypes_eq vs]

theorem fieldTypes_eq (h : types.Agree types') (seen : List String) :
    (fs : List (String × Value)) → Value.fieldTypes types seen fs = Value.fieldTypes types' seen fs
  | [] => rfl
  | (_, v) :: fs => by
      rw [Value.fieldTypes, Value.fieldTypes, h.typeOf_eq v, h.fieldTypes_eq _ fs]

end

end TypeTable.Agree

/-! ### Declarations -/

/-- The types of the parameters in their order, and the type of the result. -/
def Method.profile (m : Method) : List Ty × Ty := (m.params.map Param.ty, m.ret)

/-- The tables are of one file and give checking the same answers. -/
structure Declarations.AgreeWith (ds ds' : Declarations) : Prop where
  path : ds.path = ds'.path
  types : TypeTable.Agree ds.types ds'.types
  methods : ∀ n, (ds.methods.get? n).map Method.profile = (ds'.methods.get? n).map Method.profile
  macros : ∀ n, ds.macros.contains n = ds'.macros.contains n

namespace Declarations.AgreeWith

variable {ds ds' : Declarations}

theorem require_eq (h : ds.AgreeWith ds') (shapes : List Shape) (e : Typed) :
    e.require ds shapes = e.require ds' shapes := by
  rw [Typed.require, Typed.require, Ty.requireShape, Ty.requireShape, h.types.resolve_eq, h.path]

theorem requireBelow_eq (h : ds.AgreeWith ds') (sup : Ty) (e : Typed) :
    e.requireBelow ds sup = e.requireBelow ds' sup := by
  rw [Typed.requireBelow, Typed.requireBelow, Ty.requireSubtype, Ty.requireSubtype,
    h.types.isSubtype_eq, h.path]

theorem binary_eq (h : ds.AgreeWith ds') (op : BinaryOp) (span : Span) (l r : Typed) :
    op.typeOf ds span l r = op.typeOf ds' span l r := by
  cases op <;>
    simp only [BinaryOp.typeOf, Ty.comparable, h.require_eq, h.types.isSubtype_eq, h.path]

theorem unary_eq (h : ds.AgreeWith ds') (op : UnaryOp) (x : Typed) :
    op.typeOf ds x = op.typeOf ds' x := by
  cases op <;> simp only [UnaryOp.typeOf, h.require_eq]

theorem elementType_eq (h : ds.AgreeWith ds') (source : Typed) :
    source.elementType ds = source.elementType ds' := by
  rw [Typed.elementType, Typed.elementType, h.require_eq]

theorem fieldType_eq (h : ds.AgreeWith ds') (span : Span) (source : Typed) (field : String) :
    source.fieldType ds span field = source.fieldType ds' span field := by
  rw [Typed.fieldType, Typed.fieldType, h.require_eq, h.path]

/-- Where a call finds its method: in both tables one with the same profile, or in none. -/
theorem callee_cases (h : ds.AgreeWith ds') (n : String) (count : Nat) :
    (∃ m m', ds.callee n count = .ok m ∧ ds'.callee n count = .ok m' ∧ m.profile = m'.profile) ∨
      ∃ f, ds.callee n count = .error f ∧ ds'.callee n count = .error f := by
  have hn := h.methods n
  cases hm : ds.methods.get? n with
  | none =>
      rw [hm, Option.map_none, eq_comm, Option.map_eq_none_iff] at hn
      simp only [callee, hm, hn, ← h.macros n]
      right
      split <;> exact ⟨_, rfl, rfl⟩
  | some m =>
      rw [hm, Option.map_some, eq_comm, Option.map_eq_some_iff] at hn
      obtain ⟨m', hm', hprofile⟩ := hn
      have hlength : m'.params.length = m.params.length := by
        simpa [Method.profile] using congrArg (fun profile => profile.1.length) hprofile
      simp only [callee, hm, hm', hlength]
      split
      · exact .inl ⟨m, m', rfl, rfl, hprofile.symm⟩
      · exact .inr ⟨_, rfl, rfl⟩

mutual

theorem infer_eq (h : ds.AgreeWith ds') (scope : Scope) :
    (e : Expr) → ds.infer scope e = ds'.infer scope e
  | .binary _ _ l r => by
      simp only [infer, h.infer_eq scope l, h.infer_eq scope r, h.binary_eq]
  | .unary _ _ x => by simp only [infer, h.infer_eq scope x, h.unary_eq]
  | .const _ v => by rw [infer, infer, h.types.typeOf_eq, h.path]
  | .var .. => by rw [infer, infer, h.path]
  | .index _ a p => by
      simp only [infer, h.infer_eq scope a, h.infer_eq scope p, h.require_eq,
        h.elementType_eq]
  | .call _ n as => by
      rw [infer, infer]
      obtain ⟨m, m', hm, hm', hprofile⟩ | ⟨f, hf, hf'⟩ := h.callee_cases n as.length
      · obtain ⟨hparams, hret⟩ := Prod.mk.inj hprofile
        rw [hm, hm', atSpan, atSpan, ok_bindM, ok_bindM, h.inferArgs_eq scope as hparams, hret]
      · rw [hf, hf', h.path]
        rfl
  | .generate _ v c => by
      simp only [infer, h.infer_eq scope v, h.infer_eq scope c, h.require_eq]
  | .array _ es => by
      simp only [infer, h.inferList_eq scope es, h.types.leastUpperBound_eq, h.path]
  | .access _ a _ => by simp only [infer, h.infer_eq scope a, h.fieldType_eq]
  | .record _ fs => by simp only [infer, h.inferFields_eq scope fs, h.types.validate_eq, h.path]

/-- Of the parameters only their types count. -/
theorem inferArgs_eq (h : ds.AgreeWith ds') (scope : Scope) :
    (as : List Expr) → {ps ps' : List Param} → ps.map Param.ty = ps'.map Param.ty →
      ds.inferArgs scope ps as = ds'.inferArgs scope ps' as
  | [], ps, ps', _ => by cases ps <;> cases ps' <;> rfl
  | a :: as, [], [], _ => rfl
  | a :: as, p :: ps, p' :: ps', hps => by
      obtain ⟨hp, hps⟩ := List.cons.inj hps
      rw [inferArgs, inferArgs, h.infer_eq scope a, h.inferArgs_eq scope as hps, hp]
      simp only [h.requireBelow_eq]

theorem inferList_eq (h : ds.AgreeWith ds') (scope : Scope) :
    (es : List Expr) → ds.inferList scope es = ds'.inferList scope es
  | [] => rfl
  | e :: es => by rw [inferList, inferList, h.infer_eq scope e, h.inferList_eq scope es]

theorem inferFields_eq (h : ds.AgreeWith ds') (scope : Scope) :
    (fs : List (String × Expr)) → ds.inferFields scope fs = ds'.inferFields scope fs
  | [] => rfl
  | (_, e) :: fs => by
      rw [inferFields, inferFields, h.infer_eq scope e, h.inferFields_eq scope fs]

end

theorem inferCondition_eq (h : ds.AgreeWith ds') (scope : Scope) (e : Expr) :
    ds.inferCondition scope e = ds'.inferCondition scope e := by
  simp only [inferCondition, h.infer_eq, h.require_eq]

theorem inferBelow_eq (h : ds.AgreeWith ds') (scope : Scope) (sup : Ty) (e : Expr) :
    ds.inferBelow scope sup e = ds'.inferBelow scope sup e := by
  simp only [inferBelow, h.infer_eq, h.requireBelow_eq]

theorem inferOptionBelow_eq (h : ds.AgreeWith ds') (scope : Scope) (sup : Ty) (o : Option Expr) :
    ds.inferOptionBelow scope sup o = ds'.inferOptionBelow scope sup o := by
  cases o with
  | none => rfl
  | some e => rw [inferOptionBelow, inferOptionBelow, h.inferBelow_eq]

theorem inferCall_eq (h : ds.AgreeWith ds') (scope : Scope) (span : Span) (n : String)
    (as : List Expr) : ds.inferCall scope span n as = ds'.inferCall scope span n as := by
  rw [inferCall, inferCall]
  obtain ⟨m, m', hm, hm', hprofile⟩ | ⟨f, hf, hf'⟩ := h.callee_cases n as.length
  · rw [hm, hm', atSpan, atSpan, ok_bindM, ok_bindM]
    exact h.inferArgs_eq scope as (Prod.mk.inj hprofile).1
  · rw [hf, hf', h.path]
    rfl

/-! ### Statements and methods -/

theorem pass_eq (h : ds.AgreeWith ds') (ret : Ty) : ds.pass ret = ds'.pass ret := by
  have hdeclared : ds.checkVarDecl = ds'.checkVarDecl := by
    funext d
    simp only [checkVarDecl, h.inferOptionBelow_eq, h.types.validate_eq, h.path]
  simp only [pass, checkAssign, hdeclared, h.infer_eq, h.inferBelow_eq, h.inferCondition_eq,
    h.inferOptionBelow_eq, h.inferCall_eq, h.path]

theorem checkParams_eq (h : ds.AgreeWith ds') (scope : Scope) (ps : List Param) :
    ds.checkParams scope ps = ds'.checkParams scope ps := by
  induction ps generalizing scope with
  | nil => rfl
  | cons p ps ih => simp only [checkParams, h.types.validate_eq, h.path, ih]

/-- Declarations that agree check every method alike. -/
theorem checkMethod_eq (h : ds.AgreeWith ds') (m : Method) :
    ds.checkMethod m = ds'.checkMethod m := by
  simp only [checkMethod, checkBlock_eq_pass, h.pass_eq, h.checkParams_eq, h.types.validate_eq,
    h.path]

theorem checkDecl_eq (h : ds.AgreeWith ds') (d : Decl) : ds.checkDecl d = ds'.checkDecl d := by
  cases d with
  | method m => rw [checkDecl, checkDecl, h.checkMethod_eq]
  | type t => simp only [checkDecl, h.types.validate_eq, h.types.resolve_eq, h.path]
  | macroDecl m => rfl

end Declarations.AgreeWith

/-! ### Programs that agree -/

/-- What the last item of a name holds depends on the names and the held values alone. -/
theorem map_find?_reverse_eq {α β : Type} {name : α → String} {f : α → β} {as as' : List α}
    (h : (as.map fun a => (name a, f a)) = as'.map fun a => (name a, f a)) (n : String) :
    (as.reverse.find? fun a => name a == n).map f =
      (as'.reverse.find? fun a => name a == n).map f := by
  have hlast : ∀ as : List α, (as.reverse.find? fun a => name a == n).map f =
      ((as.map fun a => (name a, f a)).reverse.find? fun b => b.1 == n).map Prod.snd := by
    intro as
    rw [← List.map_reverse, List.find?_map, Option.map_map]
    rfl
  rw [hlast, h, ← hlast]

theorem Program.agreeWith_of_map_eq {p p' : Program} (hpath : p.path = p'.path)
    (htypes : (p.types.map fun t => (t.name, t.ty)) = p'.types.map fun t => (t.name, t.ty))
    (hmethods : (p.methods.map fun m => (m.name, m.profile)) =
      p'.methods.map fun m => (m.name, m.profile))
    (hmacros : (p.macros.map fun m => (m.name, ())) = p'.macros.map fun m => (m.name, ())) :
    p.declarations.AgreeWith p'.declarations where
  path := by rw [path_declarations, path_declarations, hpath]
  types n := by
    rw [get?_types, get?_types]
    exact map_find?_reverse_eq htypes n
  methods n := by
    rw [get?_methods, get?_methods]
    exact map_find?_reverse_eq hmethods n
  macros n := by
    have hnames := map_find?_reverse_eq hmacros n
    rw [Table.contains, Table.contains, get?_macros, get?_macros]
    simpa using congrArg Option.isSome hnames

end WhileStatics
