import WhileStatics.Proofs.Checking
import WhileStatics.Proofs.ReturnTypes
import WhileStatics.Proofs.Tables

/-!
# Checking of programs

A program passes exactly when it is well typed, and what comes back is its one
annotation: the program itself but for the slots in its method bodies, each of
which holds the type of its node whatever it held before.

## Implementation notes

The rules for statements are read off checking under well-formed declarations.
These are not assumed of a program: whether it passes or is well typed, all its
declared types and return types are well formed either way.
-/

namespace WhileStatics

variable {ds : Declarations} {scope : Scope} {p q : Program}

/-! ### Methods -/

/-- The scope after a parameter. -/
def Scope.declareParam (scope : Scope) (p : Param) : Scope := scope.declare p.name p.ty

theorem Scope.context_declareParam {p : Param} (h : scope.context.lookup p.name = none) :
    (scope.declareParam p).context = (p.name, p.ty) :: scope.context :=
  Scope.context_declare p.ty h

theorem lookup_cons_eq_none_iff {α : Type} {entries : List (String × α)} {n m : String} {a : α} :
    ((n, a) :: entries).lookup m = none ↔ n ≠ m ∧ entries.lookup m = none := by
  by_cases h : n = m
  · subst h
    simp
  · have hne : (m == n) = false := by simpa using Ne.symm h
    simp [List.lookup_cons, hne, h]

/-- Parameters whose names are new and different come into scope in their order. -/
theorem Scope.context_foldl_declareParam {ps : List Param}
    (hfree : ∀ p ∈ ps, scope.context.lookup p.name = none) (hnodup : (ps.map Param.name).Nodup) :
    (ps.foldl declareParam scope).context =
      (ps.map fun p => (p.name, p.ty)).reverse ++ scope.context := by
  induction ps generalizing scope with
  | nil => rfl
  | cons p ps ih =>
      rw [List.forall_mem_cons] at hfree
      rw [List.map_cons, List.nodup_cons] at hnodup
      have hcontext := context_declareParam hfree.1
      have hfree' : ∀ q ∈ ps, (scope.declareParam p).context.lookup q.name = none := by
        intro q hq
        rw [hcontext, lookup_cons_eq_none_iff]
        exact ⟨fun h => hnodup.1 (h ▸ List.mem_map_of_mem hq), hfree.2 q hq⟩
      rw [List.foldl_cons, ih hfree' hnodup.2, hcontext]
      simp

theorem checkParams_cons_eq_ok_iff {p : Param} {ps : List Param} {scope' : Scope} :
    ds.checkParams scope (p :: ps) = .ok scope' ↔
      p.ty.WellFormed ds.types ∧ scope.context.lookup p.name = none ∧
        ds.checkParams (scope.declareParam p) ps = .ok scope' := by
  rw [Declarations.checkParams, bindM_eq_ok_iff, ← Scope.contains_eq_false_iff,
    ← Ty.validate_eq_ok_iff]
  simp only [atSpan_eq_ok_iff]
  by_cases hbound : scope.contains p.name = true
  · simp [Scope.declare?, hbound]
  · have hfree : scope.contains p.name = false := by simpa using hbound
    simp only [Scope.declareParam, Scope.declare, Scope.declare?, hfree, Bool.false_eq_true,
      if_false, Option.getD_some, true_and]
    constructor
    · rintro ⟨_, hvalid, hps⟩
      exact ⟨hvalid, hps⟩
    · rintro ⟨hvalid, hps⟩
      exact ⟨(), hvalid, hps⟩

theorem checkParams_eq_ok_iff {ps : List Param} {scope' : Scope} :
    ds.checkParams scope ps = .ok scope' ↔
      (∀ p ∈ ps, p.ty.WellFormed ds.types) ∧
        (∀ p ∈ ps, scope.context.lookup p.name = none) ∧ (ps.map Param.name).Nodup ∧
        scope' = ps.foldl Scope.declareParam scope := by
  induction ps generalizing scope with
  | nil => simp [Declarations.checkParams, eq_comm]
  | cons p ps ih =>
      rw [checkParams_cons_eq_ok_iff, ih, List.forall_mem_cons, List.forall_mem_cons,
        List.map_cons, List.nodup_cons, List.foldl_cons]
      constructor
      · rintro ⟨hp, hfree, hps, hnew, hnodup, rfl⟩
        simp only [Scope.context_declareParam hfree, lookup_cons_eq_none_iff] at hnew
        refine ⟨⟨hp, hps⟩, ⟨hfree, fun q hq => (hnew q hq).2⟩, ⟨?_, hnodup⟩, rfl⟩
        rintro hmem
        obtain ⟨q, hq, hname⟩ := List.mem_map.1 hmem
        exact (hnew q hq).1 hname.symm
      · rintro ⟨⟨hp, hps⟩, ⟨hfree, hnew⟩, ⟨hmem, hnodup⟩, rfl⟩
        refine ⟨hp, hfree, hps, ?_, hnodup, rfl⟩
        intro q hq
        rw [Scope.context_declareParam hfree, lookup_cons_eq_none_iff]
        exact ⟨fun h => hmem (h ▸ List.mem_map_of_mem hq), hnew q hq⟩

theorem Method.context_foldl_declareParam {m : Method} (hnodup : (m.params.map Param.name).Nodup) :
    (m.params.foldl Scope.declareParam .empty).context = m.context := by
  rw [Scope.context_foldl_declareParam (by simp) hnodup, Scope.context_empty, List.append_nil]
  rfl

theorem Method.wellFormed_context {m : Method} (h : ∀ p ∈ m.params, p.ty.WellFormed ds.types) :
    Context.WellFormed ds.types m.context := by
  intro b hb
  rw [Method.context, List.mem_reverse, List.mem_map] at hb
  obtain ⟨p, hp, rfl⟩ := hb
  exact h p hp

theorem checkMethod_eq_ok_iff (hds : ds.WellFormed) {m m' : Method} :
    (ds.checkMethod m).result = .ok m' ↔
      MethodTyped ds m ∧
        ∃ body, Stmt.BlockPointwise (.annotating ds) m.context m.body body ∧
          m' = { m with body } := by
  simp only [Declarations.checkMethod, Logged.result_bind, bind_eq_ok_iff, Logged.result_tell,
    Logged.result_ofExcept, atSpan_eq_ok_iff, checkParams_eq_ok_iff, Logged.result_pure,
    Except.ok.injEq]
  constructor
  · rintro ⟨⟨⟩, _, ⟨⟩, hret, scope, ⟨hparams, _, hnodup, rfl⟩, body, hbody, rfl⟩
    have hcontext := Method.context_foldl_declareParam hnodup
    have hΓ := hcontext ▸ Method.wellFormed_context hparams
    obtain ⟨htyped, hbody'⟩ := (checkBlock_eq_ok_iff hds hΓ m.body body).1 hbody
    rw [hcontext] at htyped hbody'
    exact ⟨⟨Ty.validate_eq_ok_iff.1 hret, hparams, hnodup, htyped⟩, body, hbody', rfl⟩
  · rintro ⟨⟨hret, hparams, hnodup, htyped⟩, body, hbody', rfl⟩
    have hcontext := Method.context_foldl_declareParam hnodup
    have hΓ := hcontext ▸ Method.wellFormed_context hparams
    rw [← hcontext] at htyped hbody'
    have hbody := (checkBlock_eq_ok_iff hds hΓ m.body body).2 ⟨htyped, hbody'⟩
    exact ⟨(), trivial, (), Ty.validate_eq_ok_iff.2 hret, _, ⟨hparams, by simp, hnodup, rfl⟩, body,
      hbody, rfl⟩

/-! ### Declarations -/

/-- The type that other declarations rely on is well formed. -/
def Decl.SignatureWellFormed (types : TypeTable) : Decl → Prop
  | .method m => m.ret.WellFormed types
  | .type t => t.ty.WellFormed types
  | .macroDecl _ => True

theorem DeclTyped.signatureWellFormed {d : Decl} (h : DeclTyped ds d) :
    d.SignatureWellFormed ds.types := by
  cases h with
  | method h => exact h.ret
  | type h => exact h
  | macroDecl => trivial

theorem signatureWellFormed_of_checkDecl {d d' : Decl} (h : (ds.checkDecl d).result = .ok d') :
    d.SignatureWellFormed ds.types := by
  cases d with
  | method m =>
      simp only [Declarations.checkDecl, Declarations.checkMethod, Logged.result_bind,
        bind_eq_ok_iff, Logged.result_ofExcept, atSpan_eq_ok_iff] at h
      obtain ⟨_, ⟨_, _, _, hret, _⟩, _⟩ := h
      exact Ty.validate_eq_ok_iff.1 hret
  | type t =>
      simp only [Declarations.checkDecl, Logged.result_bind, bind_eq_ok_iff,
        Logged.result_ofExcept, atSpan_eq_ok_iff] at h
      obtain ⟨_, hty, _⟩ := h
      exact Ty.validate_eq_ok_iff.1 hty
  | macroDecl m => trivial

theorem Program.wellFormed_declarations
    (h : ∀ d ∈ p.decls, d.SignatureWellFormed p.declarations.types) :
    p.declarations.WellFormed where
  types _ t ht := h (.type t) (mem_decls_of_get?_types ht)
  returns _ m hm := h (.method m) (mem_decls_of_get?_methods hm)

theorem checkDecl_eq_ok_iff (hds : p.declarations.WellFormed) {d d' : Decl} (hd : d ∈ p.decls) :
    (p.declarations.checkDecl d).result = .ok d' ↔
      DeclTyped p.declarations d ∧ d.Pointwise (.annotating p.declarations) d' := by
  cases d with
  | method m =>
      simp only [Declarations.checkDecl, Logged.result_bind, bind_eq_ok_iff, Logged.result_pure,
        Except.ok.injEq, checkMethod_eq_ok_iff hds]
      constructor
      · rintro ⟨m', ⟨hm, body, hbody, rfl⟩, rfl⟩
        exact ⟨.method hm, body, hbody, rfl⟩
      · rintro ⟨hm, body, hbody, rfl⟩
        cases hm with
        | method hm => exact ⟨_, ⟨hm, body, hbody, rfl⟩, rfl⟩
  | type t =>
      simp only [Declarations.checkDecl, Logged.result_bind, bind_eq_ok_iff,
        Logged.result_ofExcept, atSpan_eq_ok_iff, Logged.result_pure, Except.ok.injEq]
      constructor
      · rintro ⟨⟨⟩, hty, _, _, rfl⟩
        exact ⟨.type (Ty.validate_eq_ok_iff.1 hty), rfl⟩
      · rintro ⟨ht, rfl⟩
        cases ht with
        | type ht =>
            -- The name may stand for a later declaration, which is well formed as well.
            obtain ⟨winner, hwinner⟩ := Program.exists_get?_types hd
            obtain ⟨u, hu⟩ := Ty.exists_resolve_named hds.types hwinner
            exact ⟨(), Ty.validate_eq_ok_iff.2 ht, u, hu, rfl⟩
  | macroDecl m =>
      simp only [Declarations.checkDecl, Logged.result_pure, Except.ok.injEq]
      exact ⟨fun h => ⟨.macroDecl, h.symm⟩, fun h => Eq.symm h.2⟩

theorem DeclTyped.exists_annotated (hds : ds.WellFormed) {d : Decl} (h : DeclTyped ds d) :
    ∃ d', d.Pointwise (.annotating ds) d' := by
  cases h with
  | method hm =>
      obtain ⟨body, hbody⟩ :=
        hm.body.exists_annotated hds (Method.wellFormed_context hm.params)
      exact ⟨_, body, hbody, rfl⟩
  | type _ => exact ⟨_, rfl⟩
  | macroDecl => exact ⟨_, rfl⟩

/-! ### Programs -/

theorem Program.WellTyped.wellFormed_declarations (h : p.WellTyped) :
    p.declarations.WellFormed :=
  Program.wellFormed_declarations fun d hd => (h d hd).signatureWellFormed

theorem Program.isAnnotationOf_iff :
    q.IsAnnotationOf p ↔ p.Pointwise (.annotating p.declarations) q := by
  refine Iff.trans ?_ Program.pointwise_agreeing_erase_iff.symm
  exact ⟨fun h => ⟨h.erase_eq, h.annotated⟩, fun h => ⟨h.1, h.2⟩⟩

theorem exists_annotated_decls (hds : ds.WellFormed) {decls : List Decl}
    (h : ∀ d ∈ decls, DeclTyped ds d) :
    ∃ decls', List.Forall₂ (Decl.Pointwise (.annotating ds)) decls decls' := by
  induction decls with
  | nil => exact ⟨[], .nil⟩
  | cons d decls ih =>
      rw [List.forall_mem_cons] at h
      obtain ⟨d', hd'⟩ := h.1.exists_annotated hds
      obtain ⟨decls', hdecls'⟩ := ih h.2
      exact ⟨d' :: decls', .cons hd' hdecls'⟩

theorem Program.WellTyped.exists_annotated (h : p.WellTyped) :
    ∃ q : Program, q.IsAnnotationOf p := by
  obtain ⟨decls, hdecls⟩ := exists_annotated_decls h.wellFormed_declarations h
  exact ⟨_, Program.isAnnotationOf_iff.2 ⟨decls, hdecls, rfl⟩⟩

/-- Checking goes through the declarations one by one. -/
theorem Program.result_check_eq_ok_iff {options : CheckOptions} :
    (p.check options).result = .ok q ↔
      ∃ decls, List.Forall₂ (fun d d' => (p.declarations.checkDecl d).result = .ok d')
        p.decls decls ∧ (if options.annotate then { p with decls } else p) = q := by
  simp only [Program.check_eq, Logged.result_bind, bind_eq_ok_iff, Logged.result_tellAll,
    Logged.result_mapM_eq_ok_iff, Logged.result_pure, Except.ok.injEq, true_and, exists_const]

/-- Checking yields exactly the annotations of well-typed programs. -/
theorem Program.check_eq_ok_iff :
    p.check.result = .ok q ↔ p.WellTyped ∧ q.IsAnnotationOf p := by
  rw [Program.result_check_eq_ok_iff, Program.isAnnotationOf_iff]
  constructor
  · rintro ⟨decls, hdecls, rfl⟩
    have hds : p.declarations.WellFormed := by
      apply Program.wellFormed_declarations
      exact forall_mem_of_forall₂ hdecls.flip fun _ _ _ h => signatureWellFormed_of_checkDecl h
    have hall := forall₂_imp_of_mem hdecls fun d hd d' => (checkDecl_eq_ok_iff hds hd).1
    obtain ⟨htyped, hannotated⟩ := (List.forall₂_and_left _ _).1 hall
    exact ⟨htyped, decls, hannotated, rfl⟩
  · rintro ⟨htyped, decls, hdecls, rfl⟩
    have hds := htyped.wellFormed_declarations
    refine ⟨decls, forall₂_imp_of_mem hdecls fun d hd d' hd' => ?_, rfl⟩
    exact (checkDecl_eq_ok_iff hds hd).2 ⟨htyped d hd, hd'⟩

/-- A well-typed program has one annotation, because checking yields one result. -/
theorem Program.WellTyped.annotation_unique {r : Program} (h : p.WellTyped)
    (hq : q.IsAnnotationOf p) (hr : r.IsAnnotationOf p) : r = q := by
  have hq' := Program.check_eq_ok_iff.2 ⟨h, hq⟩
  have hr' := Program.check_eq_ok_iff.2 ⟨h, hr⟩
  exact Except.ok.inj (hr'.symm.trans hq')

/-- Checking accepts exactly the well-typed programs, and gives back the one program that differs
from the given one only in its slots and holds the type of every node in them. The rules look a name
up in the tables, where the last declaration of it counts. -/
theorem Program.check_yields_the_annotation_of_well_typed_programs (p : Program) :
    p.LastWins ∧ ((∃ q, p.check.result = .ok q) ↔ p.WellTyped) ∧
      ∀ q, p.check.result = .ok q ↔
        p.WellTyped ∧ q.IsAnnotationOf p ∧ ∀ r : Program, r.IsAnnotationOf p → r = q := by
  refine ⟨p.lastWins, ⟨?_, ?_⟩, fun q => ⟨?_, ?_⟩⟩
  · rintro ⟨q, hq⟩
    exact (check_eq_ok_iff.1 hq).1
  · intro h
    obtain ⟨q, hq⟩ := h.exists_annotated
    exact ⟨q, check_eq_ok_iff.2 ⟨h, hq⟩⟩
  · intro h
    obtain ⟨htyped, hq⟩ := check_eq_ok_iff.1 h
    exact ⟨htyped, hq, fun r hr => htyped.annotation_unique hq hr⟩
  · rintro ⟨htyped, hq, _⟩
    exact check_eq_ok_iff.2 ⟨htyped, hq⟩

end WhileStatics
