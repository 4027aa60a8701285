import WhileStatics.Proofs.TypedPrograms

/-!
# Typing depends on signatures

A program and one that differs from it only in the slots of its method bodies
have tables of the same signatures. Neither slots nor the bodies of other
methods have a part in the typing rules, so both programs are well typed or none
of them is, and their expressions have the same types.
-/

namespace WhileStatics

variable {ds ds' : Declarations} {ret : Ty} {Γ : Context} {R : Change}

/-! ### Statements -/

theorem IsCondition.transport (hds : ds.SameSignatures ds') {e e' : Expr}
    (h : IsCondition ds Γ e) (he : e'.erase = e.erase) : IsCondition ds' Γ e' := by
  obtain ⟨t, ht, hbool⟩ := h
  exact ⟨t, ht.transport hds he, hds.types ▸ hbool⟩

theorem Fits.transport (hds : ds.SameSignatures ds') {sup : Ty} {e e' : Expr}
    (h : Fits ds Γ sup e) (he : e'.erase = e.erase) : Fits ds' Γ sup e' := by
  obtain ⟨t, ht, hsub⟩ := h
  exact ⟨t, ht.transport hds he, hds.types ▸ hsub⟩

theorem Fits.transport_option (hds : ds.SameSignatures ds') {r : Expr → Expr → Prop} {sup : Ty}
    (hr : ∀ ⦃e e'⦄, r e e' → e'.erase = e.erase) {o o' : Option Expr}
    (h : ∀ e ∈ o, Fits ds Γ sup e) (ho : Option.Rel r o o') : ∀ e ∈ o', Fits ds' Γ sup e := by
  cases ho with
  | none => simp
  | @some e e' he =>
      have hfits := (h e rfl).transport hds (hr he)
      simpa using hfits

theorem CallFits.transport (hds : ds.SameSignatures ds') {r : Expr → Expr → Prop} {n : String}
    (hr : ∀ ⦃e e'⦄, r e e' → e'.erase = e.erase) {as as' : List Expr}
    (h : CallFits ds Γ n as) (has : List.Forall₂ r as as') : CallFits ds' Γ n as' := by
  obtain ⟨m, hm, hfits⟩ := h
  obtain ⟨m', hm', hparams, _⟩ := hds.methods n m hm
  refine ⟨m', hm', ?_⟩
  rw [hparams]
  have hargs : List.Forall₂ (fun a p => Fits ds' Γ p.ty a) as' m.params :=
    forall₂_transport hfits.flip (has.imp fun _ _ ha _ hp => Fits.transport hds hp (hr ha))
  exact hargs.flip

theorem DeclFits.transport (hds : ds.SameSignatures ds') (hR : R.Preserves Expr.erase)
    {d d' : VarDecl} (h : DeclFits ds Γ d) (hd : d.Pointwise R Γ d') : DeclFits ds' Γ d' := by
  obtain ⟨init, hinit, rfl⟩ := hd
  exact ⟨hds.types ▸ h.wellFormed, h.free, Fits.transport_option hds (hR _ _) h.init hinit⟩

mutual

/-- A statement is well typed when one is that it differs from only in its slots. -/
theorem StmtTyped.transport (hds : ds.SameSignatures ds') (hR : R.Preserves Expr.erase)
    {Γ : Context} : {s s' : Stmt} → StmtTyped ds ret Γ s → s.Pointwise R Γ s' →
      StmtTyped ds' ret Γ s'
  | _, _, .assertion hc, ⟨_, hc', rfl⟩ => .assertion (hc.transport hds (hR _ _ hc'))
  | _, _, .print he, ⟨_, he', rfl⟩ => .print (he.transport hds (hR _ _ he'))
  | _, _, .assign hlvalue ht hv, ⟨t', _, ht', hv', rfl⟩ => by
      have hlvalue' : t'.isLvalue = true := by
        rw [← Expr.isLvalue_erase, hR _ _ ht', Expr.isLvalue_erase, hlvalue]
      exact .assign hlvalue' (ht.transport hds (hR _ _ ht')) (hv.transport hds (hR _ _ hv'))
  | _, _, .ret he, ⟨_, he', rfl⟩ => .ret (Fits.transport_option hds (hR _ _) he he')
  | _, _, .jump, rfl => .jump
  | _, _, .decl hd, ⟨_, hd', rfl⟩ => .decl (hd.transport hds hR hd')
  | _, _, .branch hc hyes hno, ⟨_, _, _, hc', hyes', hno', rfl⟩ =>
      .branch (hc.transport hds (hR _ _ hc')) (hyes.transport hds hR hyes')
        (hno.transport hds hR hno')
  | _, _, .forLoop hd hc hstep hbody, ⟨_, _, _, _, hd', hc', hstep', hbody', rfl⟩ => by
      -- Both loops put the same variables into scope, so their bodies have one context.
      refine .forLoop (hd.transport hds hR hd') ?_ ?_ ?_
      · rw [hd'.extend_eq]
        exact hc.transport hds (hR _ _ hc')
      · rw [hd'.extend_eq]
        exact hstep.transport hds hR hstep'
      · rw [hd'.extend_eq, hstep'.extend_eq]
        exact hbody.transport hds hR hbody'
  | _, _, .loop hc hbody, ⟨_, _, hc', hbody', rfl⟩ =>
      .loop (hc.transport hds (hR _ _ hc')) (hbody.transport hds hR hbody')
  | _, _, .switch he hcs, ⟨_, _, he', hcs', rfl⟩ =>
      .switch (he.transport hds (hR _ _ he')) (hcs.transport hds hR hcs')
  | _, _, .call h, ⟨_, has, rfl⟩ => .call (h.transport hds (hR _ _) has)

theorem BlockTyped.transport (hds : ds.SameSignatures ds') (hR : R.Preserves Expr.erase)
    {Γ : Context} : {ss ss' : List Stmt} → BlockTyped ds ret Γ ss →
      Stmt.BlockPointwise R Γ ss ss' → BlockTyped ds' ret Γ ss'
  | _, _, .nil, rfl => .nil
  | _, _, .cons hs hss, ⟨_, _, hs', hss', rfl⟩ => by
      refine .cons (hs.transport hds hR hs') ?_
      rw [hs'.extend_eq]
      exact hss.transport hds hR hss'

theorem CasesTyped.transport (hds : ds.SameSignatures ds') (hR : R.Preserves Expr.erase)
    {on : Ty} {Γ : Context} : {cs cs' : List Case} → CasesTyped ds ret on Γ cs →
      Stmt.CasesPointwise R Γ cs cs' → CasesTyped ds' ret on Γ cs'
  | _, _, .nil, rfl => .nil
  | _, _, .cons hg hbody hcs, ⟨_, _, _, hg', hbody', hcs', rfl⟩ =>
      .cons (Fits.transport_option hds (hR _ _) hg hg') (hbody.transport hds hR hbody')
        (hcs.transport hds hR hcs')

end

/-! ### Programs -/

theorem DeclTyped.transport (hds : ds.SameSignatures ds') (hR : R.Preserves Expr.erase)
    {d d' : Decl} (h : DeclTyped ds d) (hd : d.Pointwise R d') : DeclTyped ds' d' := by
  cases h with
  | method h =>
      obtain ⟨body, hbody, rfl⟩ := hd
      refine .method ⟨hds.types ▸ h.ret, hds.types ▸ h.params, h.names, ?_⟩
      exact h.body.transport hds hR hbody
  | type h =>
      obtain rfl := hd
      exact .type (hds.types ▸ h)
  | macroDecl =>
      obtain rfl := hd
      exact .macroDecl

/-- The method without its body. -/
def Method.signature (m : Method) : Method := { m with body := [] }

namespace Program

variable {p q : Program}

theorem Pointwise.signatures_eq (h : p.Pointwise R q) :
    q.methods.map Method.signature = p.methods.map Method.signature := by
  obtain ⟨decls, hdecls, rfl⟩ := h
  rw [methods, methods, List.map_filterMap, List.map_filterMap]
  refine filterMap_eq_of_forall₂ ?_ hdecls
  intro d d' hd
  obtain rfl | ⟨m, body, rfl, rfl⟩ := hd.eq_or_method <;> rfl

/-- The signature that a call relies on is that of the last method of its name. -/
theorem signature_get?_methods (p : Program) (n : String) :
    (p.declarations.methods.get? n).map Method.signature =
      (p.methods.map Method.signature).reverse.find? fun m => m.name == n := by
  rw [get?_methods, ← List.map_reverse, List.find?_map]
  rfl

theorem Pointwise.sameSignatures (h : p.Pointwise R q) :
    p.declarations.SameSignatures q.declarations where
  types := by rw [declarations_eq, declarations_eq, h.types_eq]
  methods n m hm := by
    have hsignature : (q.declarations.methods.get? n).map Method.signature = some m.signature := by
      rw [signature_get?_methods, h.signatures_eq, ← signature_get?_methods, hm, Option.map_some]
    obtain ⟨m', hm', hm'm⟩ := Option.map_eq_some_iff.1 hsignature
    have hparams : m'.signature.params = m.signature.params := by rw [hm'm]
    have hret : m'.signature.ret = m.signature.ret := by rw [hm'm]
    exact ⟨m', hm', hparams, hret⟩

/-- A program is well typed when one is that it differs from only in its slots. -/
theorem WellTyped.transport (h : p.WellTyped) (hR : R.Preserves Expr.erase)
    (hq : p.Pointwise R q) : q.WellTyped := by
  have hds := hq.sameSignatures
  obtain ⟨decls, hdecls, rfl⟩ := hq
  exact forall_mem_of_forall₂ hdecls fun d hd _ hd' => (h d hd).transport hds hR hd'

theorem IsAnnotationOf.wellTyped (h : q.IsAnnotationOf p) (hp : p.WellTyped) : q.WellTyped :=
  hp.transport (fun _ _ _ _ h => h.1) (isAnnotationOf_iff.1 h)

/-- An annotation is its own annotation. -/
theorem IsAnnotationOf.self (h : q.IsAnnotationOf p) : q.IsAnnotationOf q where
  erase_eq := rfl
  annotated m hm site hsite n hn := by
    obtain ⟨t, hslot, ht⟩ := h.annotated m hm site hsite n hn
    exact ⟨t, hslot, ht.transport (isAnnotationOf_iff.1 h).sameSignatures rfl⟩

end Program

end WhileStatics
