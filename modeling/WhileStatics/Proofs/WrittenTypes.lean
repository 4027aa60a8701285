import WhileStatics.Proofs.Signatures
import WhileStatics.Proofs.SubtypeDecision

/-!
# Types that a program mentions

The types written in a program are those of its type declarations, parameters,
returns and local variables; the types that stand in the slots of a checked
program are its annotations. In a well-typed program both are well formed.
-/

namespace WhileStatics

/-! ### Types of local variables -/

namespace Stmt

mutual

/-- The types that the variable declarations in a statement give. -/
def localTypes : Stmt → List Ty
  | .decl d => [d.ty]
  | .branch _ _ yes no => blockLocalTypes yes ++ blockLocalTypes no
  | .forLoop _ d _ step body => d.ty :: (localTypes step ++ blockLocalTypes body)
  | .loop _ _ _ body => blockLocalTypes body
  | .switch _ _ cs => caseLocalTypes cs
  | _ => []

/-- The same for the statements of a block. -/
def blockLocalTypes : List Stmt → List Ty
  | [] => []
  | s :: ss => localTypes s ++ blockLocalTypes ss

/-- The same for the bodies of cases. -/
def caseLocalTypes : List Case → List Ty
  | [] => []
  | .mk _ _ body :: cs => blockLocalTypes body ++ caseLocalTypes cs

end

end Stmt

/-- The types in the signature and in the body of a method. -/
def Method.writtenTypes (m : Method) : List Ty :=
  m.ret :: (m.params.map Param.ty ++ Stmt.blockLocalTypes m.body)

/-- The types written in a declaration. -/
def Decl.writtenTypes : Decl → List Ty
  | .method m => m.writtenTypes
  | .type t => [t.ty]
  | .macroDecl _ => []

/-- The types written in a program. -/
def Program.writtenTypes (p : Program) : List Ty := p.decls.flatMap Decl.writtenTypes

/-- A node of an expression in a method body holds the type in its slot. -/
def Program.Annotates (q : Program) (t : Ty) : Prop :=
  ∃ m ∈ q.methods, ∃ site ∈ m.sites, ∃ node, Expr.IsNode node site.2 ∧ node.ty = some t

variable {ds : Declarations} {ret : Ty}

/-! ### Written types are well formed -/

mutual

theorem StmtTyped.wellFormed_localTypes {Γ : Context} :
    {s : Stmt} → StmtTyped ds ret Γ s → ∀ t ∈ s.localTypes, t.WellFormed ds.types
  | _, .assertion _ | _, .print _ | _, .assign .. | _, .ret _ | _, .jump | _, .call _ => by
      simp [Stmt.localTypes]
  | _, .decl hd => by simpa [Stmt.localTypes] using hd.wellFormed
  | _, .branch _ hyes hno => by
      rw [Stmt.localTypes, List.forall_mem_append]
      exact ⟨hyes.wellFormed_localTypes, hno.wellFormed_localTypes⟩
  | _, .forLoop hd _ hstep hbody => by
      rw [Stmt.localTypes, List.forall_mem_cons, List.forall_mem_append]
      exact ⟨hd.wellFormed, hstep.wellFormed_localTypes, hbody.wellFormed_localTypes⟩
  | _, .loop _ hbody => hbody.wellFormed_localTypes
  | _, .switch _ hcs => hcs.wellFormed_localTypes

theorem BlockTyped.wellFormed_localTypes {Γ : Context} :
    {ss : List Stmt} → BlockTyped ds ret Γ ss →
      ∀ t ∈ Stmt.blockLocalTypes ss, t.WellFormed ds.types
  | _, .nil => by simp [Stmt.blockLocalTypes]
  | _, .cons hs hss => by
      rw [Stmt.blockLocalTypes, List.forall_mem_append]
      exact ⟨hs.wellFormed_localTypes, hss.wellFormed_localTypes⟩

theorem CasesTyped.wellFormed_localTypes {on : Ty} {Γ : Context} :
    {cs : List Case} → CasesTyped ds ret on Γ cs →
      ∀ t ∈ Stmt.caseLocalTypes cs, t.WellFormed ds.types
  | _, .nil => by simp [Stmt.caseLocalTypes]
  | _, .cons _ hbody hcs => by
      rw [Stmt.caseLocalTypes, List.forall_mem_append]
      exact ⟨hbody.wellFormed_localTypes, hcs.wellFormed_localTypes⟩

end

theorem DeclTyped.wellFormed_writtenTypes {d : Decl} (h : DeclTyped ds d) :
    ∀ t ∈ d.writtenTypes, t.WellFormed ds.types := by
  cases h with
  | method h =>
      rw [Decl.writtenTypes, Method.writtenTypes, List.forall_mem_cons, List.forall_mem_append,
        List.forall_mem_map]
      exact ⟨h.ret, h.params, h.body.wellFormed_localTypes⟩
  | type h => simpa [Decl.writtenTypes] using h
  | macroDecl => simp [Decl.writtenTypes]

theorem Program.WellTyped.wellFormed_writtenTypes {p : Program} (h : p.WellTyped) :
    ∀ t ∈ p.writtenTypes, t.WellFormed p.declarations.types := by
  rw [Program.writtenTypes, List.forall_mem_flatMap]
  intro d hd
  exact (h d hd).wellFormed_writtenTypes

/-! ### Annotations are well formed -/

mutual

/-- In a well-typed statement all variables in scope at a site have well-formed types. -/
theorem StmtTyped.wellFormed_sites {Γ : Context} (hΓ : Context.WellFormed ds.types Γ) :
    {s : Stmt} → StmtTyped ds ret Γ s → ∀ site ∈ s.sites Γ, Context.WellFormed ds.types site.1
  | _, .assertion _ | _, .print _ => by simpa [Stmt.sites] using hΓ
  | _, .assign .. => by simpa [Stmt.sites] using hΓ
  | _, .ret _ | _, .decl _ | _, .call _ => by
      rw [Stmt.sites, List.forall_mem_map]
      exact fun _ _ => hΓ
  | _, .jump => by simp [Stmt.sites]
  | _, .branch _ hyes hno => by
      rw [Stmt.sites, List.forall_mem_cons, List.forall_mem_append]
      exact ⟨hΓ, hyes.wellFormed_sites hΓ, hno.wellFormed_sites hΓ⟩
  | _, .forLoop hd _ hstep hbody => by
      have hΓ₁ := hd.wellFormed_extend hΓ
      have hΓ₂ := hstep.wellFormed_extend hΓ₁
      rw [Stmt.sites, List.forall_mem_append, List.forall_mem_cons, List.forall_mem_append,
        List.forall_mem_map]
      exact ⟨fun _ _ => hΓ, hΓ₁, hstep.wellFormed_sites hΓ₁, hbody.wellFormed_sites hΓ₂⟩
  | _, .loop _ hbody => by
      rw [Stmt.sites, List.forall_mem_cons]
      exact ⟨hΓ, hbody.wellFormed_sites hΓ⟩
  | _, .switch _ hcs => by
      rw [Stmt.sites, List.forall_mem_cons]
      exact ⟨hΓ, hcs.wellFormed_sites hΓ⟩

theorem BlockTyped.wellFormed_sites {Γ : Context} (hΓ : Context.WellFormed ds.types Γ) :
    {ss : List Stmt} → BlockTyped ds ret Γ ss →
      ∀ site ∈ Stmt.blockSites Γ ss, Context.WellFormed ds.types site.1
  | _, .nil => by simp [Stmt.blockSites]
  | _, .cons hs hss => by
      rw [Stmt.blockSites, List.forall_mem_append]
      exact ⟨hs.wellFormed_sites hΓ, hss.wellFormed_sites (hs.wellFormed_extend hΓ)⟩

theorem CasesTyped.wellFormed_sites {on : Ty} {Γ : Context}
    (hΓ : Context.WellFormed ds.types Γ) :
    {cs : List Case} → CasesTyped ds ret on Γ cs →
      ∀ site ∈ Stmt.caseSites Γ cs, Context.WellFormed ds.types site.1
  | _, .nil => by simp [Stmt.caseSites]
  | _, .cons _ hbody hcs => by
      rw [Stmt.caseSites, List.forall_mem_append, List.forall_mem_append, List.forall_mem_map]
      exact ⟨fun _ _ => hΓ, hbody.wellFormed_sites hΓ, hcs.wellFormed_sites hΓ⟩

end

namespace Program

variable {p q : Program}

theorem WellTyped.methodTyped (h : p.WellTyped) {m : Method} (hm : m ∈ p.methods) :
    MethodTyped p.declarations m := by
  cases h _ (mem_methods.1 hm) with
  | method h => exact h

theorem WellTyped.wellFormed_sites (h : p.WellTyped) {m : Method} (hm : m ∈ p.methods) :
    ∀ site ∈ m.sites, Context.WellFormed p.declarations.types site.1 := by
  have htyped := h.methodTyped hm
  exact htyped.body.wellFormed_sites (Method.wellFormed_context htyped.params)

theorem IsAnnotationOf.types_eq (h : q.IsAnnotationOf p) :
    q.declarations.types = p.declarations.types :=
  (isAnnotationOf_iff.1 h).sameSignatures.types

theorem IsAnnotationOf.wellFormed_sites (h : q.IsAnnotationOf p) (hp : p.WellTyped) {m : Method}
    (hm : m ∈ q.methods) : ∀ site ∈ m.sites, Context.WellFormed p.declarations.types site.1 := by
  rw [← h.types_eq]
  exact (h.wellTyped hp).wellFormed_sites hm

/-- The annotations of a checked program are well formed. -/
theorem IsAnnotationOf.wellFormed_of_annotates (h : q.IsAnnotationOf p) (hp : p.WellTyped)
    {t : Ty} (ht : q.Annotates t) : t.WellFormed p.declarations.types := by
  obtain ⟨m, hm, site, hsite, node, hnode, hslot⟩ := ht
  obtain ⟨t', hslot', htyped⟩ := h.annotated m hm site hsite node hnode
  obtain rfl : t' = t := Option.some.inj (hslot'.symm.trans hslot)
  exact htyped.wellFormed hp.wellFormed_declarations (h.wellFormed_sites hp hm site hsite)

end Program

end WhileStatics
