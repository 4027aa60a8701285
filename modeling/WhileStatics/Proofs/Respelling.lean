import WhileStatics.Proofs.EquivalentContexts
import WhileStatics.Proofs.WrittenTypes

/-!
# Respelled programs

`Respells T` says of two programs that the second one arises from the first one
when types of parameters, returns and local variables are exchanged for types
related to them by `T`. The expressions and the declared types stay as they are.
If related types are equivalent, a well-typed program stays well typed.
-/

namespace WhileStatics

/-! ### The relation -/

/-- The type of the variable is exchanged and nothing else. -/
def VarDecl.Respells (T : Ty → Ty → Prop) (d d' : VarDecl) : Prop :=
  ∃ ty, T d.ty ty ∧ d' = { d with ty }

/-- The type of the parameter is exchanged and nothing else. -/
def Param.Respells (T : Ty → Ty → Prop) (p p' : Param) : Prop :=
  ∃ ty, T p.ty ty ∧ p' = { p with ty }

namespace Stmt

mutual

/-- The types of the variables that a statement declares are exchanged and nothing else. -/
def Respells (T : Ty → Ty → Prop) : Stmt → Stmt → Prop
  | .decl d, s => ∃ d', d.Respells T d' ∧ s = .decl d'
  | .branch span c yes no, s => ∃ yes' no', BlockRespells T yes yes' ∧ BlockRespells T no no' ∧
      s = .branch span c yes' no'
  | .forLoop span d c step body, s => ∃ d' step' body', d.Respells T d' ∧
      Respells T step step' ∧ BlockRespells T body body' ∧ s = .forLoop span d' c step' body'
  | .loop span test c body, s => ∃ body', BlockRespells T body body' ∧
      s = .loop span test c body'
  | .switch span e cs, s => ∃ cs', CasesRespells T cs cs' ∧ s = .switch span e cs'
  | s, s' => s' = s

/-- The same for blocks, statement by statement. -/
def BlockRespells (T : Ty → Ty → Prop) : List Stmt → List Stmt → Prop
  | [], block => block = []
  | s :: ss, block => ∃ s' ss', Respells T s s' ∧ BlockRespells T ss ss' ∧ block = s' :: ss'

/-- The same for the bodies of cases. -/
def CasesRespells (T : Ty → Ty → Prop) : List Case → List Case → Prop
  | [], cases => cases = []
  | .mk span g body :: cs, cases => ∃ body' cs', BlockRespells T body body' ∧
      CasesRespells T cs cs' ∧ cases = .mk span g body' :: cs'

end

end Stmt

/-- Types in the signature and in the body of the method are exchanged. -/
def Method.Respells (T : Ty → Ty → Prop) (m m' : Method) : Prop :=
  ∃ ret params body, T m.ret ret ∧ List.Forall₂ (Param.Respells T) m.params params ∧
    Stmt.BlockRespells T m.body body ∧ m' = { m with ret, params, body }

/-- Types in methods are exchanged, and other declarations are the same. -/
def Decl.Respells (T : Ty → Ty → Prop) : Decl → Decl → Prop
  | .method m, d => ∃ m', m.Respells T m' ∧ d = .method m'
  | d, d' => d' = d

/-- The declarations are related one by one. -/
def Program.Respells (T : Ty → Ty → Prop) (p p' : Program) : Prop :=
  ∃ decls, List.Forall₂ (Decl.Respells T) p.decls decls ∧ p' = { p with decls }

variable {T : Ty → Ty → Prop}

/-! ### Reversal -/

theorem VarDecl.Respells.symm {d d' : VarDecl} (h : d.Respells T d') :
    d'.Respells (flip T) d := by
  obtain ⟨ty, hty, rfl⟩ := h
  exact ⟨d.ty, hty, rfl⟩

theorem Param.Respells.symm {p p' : Param} (h : p.Respells T p') : p'.Respells (flip T) p := by
  obtain ⟨ty, hty, rfl⟩ := h
  exact ⟨p.ty, hty, rfl⟩

namespace Stmt

mutual

/-- Exchanging the types back is exchanging them by the flipped relation. -/
theorem Respells.symm : {s s' : Stmt} → s.Respells T s' → s'.Respells (flip T) s
  | .assertion .., _, rfl | .print .., _, rfl | .assign .., _, rfl | .ret .., _, rfl
  | .jump .., _, rfl | .call .., _, rfl => rfl
  | .decl d, _, ⟨_, hd, rfl⟩ => ⟨d, hd.symm, rfl⟩
  | .branch _ _ yes no, _, ⟨_, _, hyes, hno, rfl⟩ => ⟨yes, no, hyes.symm, hno.symm, rfl⟩
  | .forLoop _ d _ step body, _, ⟨_, _, _, hd, hstep, hbody, rfl⟩ =>
      ⟨d, step, body, hd.symm, hstep.symm, hbody.symm, rfl⟩
  | .loop _ _ _ body, _, ⟨_, hbody, rfl⟩ => ⟨body, hbody.symm, rfl⟩
  | .switch _ _ cs, _, ⟨_, hcs, rfl⟩ => ⟨cs, hcs.symm, rfl⟩

theorem BlockRespells.symm : {ss ss' : List Stmt} → BlockRespells T ss ss' →
    BlockRespells (flip T) ss' ss
  | [], _, rfl => rfl
  | s :: ss, _, ⟨_, _, hs, hss, rfl⟩ => ⟨s, ss, hs.symm, hss.symm, rfl⟩

theorem CasesRespells.symm : {cs cs' : List Case} → CasesRespells T cs cs' →
    CasesRespells (flip T) cs' cs
  | [], _, rfl => rfl
  | .mk _ _ body :: cs, _, ⟨_, _, hbody, hcs, rfl⟩ => ⟨body, cs, hbody.symm, hcs.symm, rfl⟩

end

end Stmt

theorem Method.Respells.symm {m m' : Method} (h : m.Respells T m') : m'.Respells (flip T) m := by
  obtain ⟨ret, params, body, hret, hparams, hbody, rfl⟩ := h
  refine ⟨m.ret, m.params, m.body, hret, hparams.flip.imp ?_, hbody.symm, rfl⟩
  intro p p' hp
  exact Param.Respells.symm hp

theorem Decl.Respells.symm : {d d' : Decl} → d.Respells T d' → d'.Respells (flip T) d
  | .method m, _, ⟨_, hm, rfl⟩ => ⟨m, hm.symm, rfl⟩
  | .type _, _, rfl => rfl
  | .macroDecl _, _, rfl => rfl

theorem Program.Respells.symm {p p' : Program} (h : p.Respells T p') :
    p'.Respells (flip T) p := by
  obtain ⟨decls, hdecls, rfl⟩ := h
  refine ⟨p.decls, hdecls.flip.imp ?_, rfl⟩
  intro d d' hd
  exact Decl.Respells.symm hd

/-! ### Sites -/

/-- The same expression stands at both sites, under the same variables with related types. -/
def SiteRespells (T : Ty → Ty → Prop) (site site' : Context × Expr) : Prop :=
  BindingsRel T site.1 site'.1 ∧ site'.2 = site.2

theorem VarDecl.Respells.extend {d d' : VarDecl} {Γ Γ' : Context} (h : d.Respells T d')
    (hΓ : BindingsRel T Γ Γ') : BindingsRel T (d.extend Γ) (d'.extend Γ') := by
  obtain ⟨ty, hty, rfl⟩ := h
  exact .cons ⟨rfl, hty⟩ hΓ

theorem Method.Respells.context {m m' : Method} (h : m.Respells T m') :
    BindingsRel T m.context m'.context := by
  obtain ⟨ret, params, body, _, hparams, _, rfl⟩ := h
  refine List.rel_reverse (List.rel_map ?_ hparams)
  rintro p _ ⟨ty, hty, rfl⟩
  exact ⟨rfl, hty⟩

namespace Stmt

theorem Respells.extend {s s' : Stmt} {Γ Γ' : Context} (h : s.Respells T s')
    (hΓ : BindingsRel T Γ Γ') : BindingsRel T (s.extend Γ) (s'.extend Γ') := by
  cases s with
  | decl d =>
      obtain ⟨d', hd, rfl⟩ := h
      exact hd.extend hΓ
  | _ => grind [Stmt.Respells, Stmt.extend]

theorem forall₂_siteRespells {Γ Γ' : Context} (hΓ : BindingsRel T Γ Γ') (es : List Expr) :
    List.Forall₂ (SiteRespells T) (es.map (Γ, ·)) (es.map (Γ', ·)) := by
  rw [List.forall₂_map_left_iff, List.forall₂_map_right_iff, List.forall₂_same]
  exact fun _ _ => ⟨hΓ, rfl⟩

mutual

/-- Respelled statements have the same expressions at their sites, in related contexts. -/
theorem Respells.sites {Γ Γ' : Context} (hΓ : BindingsRel T Γ Γ') : {s s' : Stmt} →
    s.Respells T s' → List.Forall₂ (SiteRespells T) (s.sites Γ) (s'.sites Γ')
  | .assertion .., _, rfl | .print .., _, rfl => .cons ⟨hΓ, rfl⟩ .nil
  | .assign .., _, rfl => .cons ⟨hΓ, rfl⟩ (.cons ⟨hΓ, rfl⟩ .nil)
  | .ret .., _, rfl | .call .., _, rfl => forall₂_siteRespells hΓ _
  | .jump .., _, rfl => .nil
  | .decl _, _, ⟨_, ⟨_, _, rfl⟩, rfl⟩ => forall₂_siteRespells hΓ _
  | .branch .., _, ⟨_, _, hyes, hno, rfl⟩ =>
      .cons ⟨hΓ, rfl⟩ (List.rel_append (hyes.sites hΓ) (hno.sites hΓ))
  | .forLoop .., _, ⟨_, _, _, hd, hstep, hbody, rfl⟩ => by
      have hΓ₁ := hd.extend hΓ
      obtain ⟨_, _, rfl⟩ := hd
      exact List.rel_append (forall₂_siteRespells hΓ _)
        (.cons ⟨hΓ₁, rfl⟩ (List.rel_append (hstep.sites hΓ₁) (hbody.sites (hstep.extend hΓ₁))))
  | .loop .., _, ⟨_, hbody, rfl⟩ => .cons ⟨hΓ, rfl⟩ (hbody.sites hΓ)
  | .switch .., _, ⟨_, hcs, rfl⟩ => .cons ⟨hΓ, rfl⟩ (hcs.sites hΓ)

theorem BlockRespells.sites {Γ Γ' : Context} (hΓ : BindingsRel T Γ Γ') : {ss ss' : List Stmt} →
    BlockRespells T ss ss' →
      List.Forall₂ (SiteRespells T) (blockSites Γ ss) (blockSites Γ' ss')
  | [], _, rfl => .nil
  | _ :: _, _, ⟨_, _, hs, hss, rfl⟩ =>
      List.rel_append (hs.sites hΓ) (hss.sites (hs.extend hΓ))

theorem CasesRespells.sites {Γ Γ' : Context} (hΓ : BindingsRel T Γ Γ') : {cs cs' : List Case} →
    CasesRespells T cs cs' →
      List.Forall₂ (SiteRespells T) (caseSites Γ cs) (caseSites Γ' cs')
  | [], _, rfl => .nil
  | .mk .. :: _, _, ⟨_, _, hbody, hcs, rfl⟩ =>
      List.rel_append (forall₂_siteRespells hΓ _)
        (List.rel_append (hbody.sites hΓ) (hcs.sites hΓ))

end

end Stmt

namespace Program.Respells

variable {p p' : Program}

theorem methods (h : p.Respells T p') :
    List.Forall₂ (Method.Respells T) p.methods p'.methods := by
  obtain ⟨decls, hdecls, rfl⟩ := h
  refine List.rel_filterMap ?_ hdecls
  intro d d' hd
  cases d with
  | method m =>
      obtain ⟨m', hm, rfl⟩ := hd
      exact .some hm
  | _ =>
      obtain rfl : d' = _ := hd
      exact .none

theorem types_eq (h : p.Respells T p') : p'.declarations.types = p.declarations.types := by
  obtain ⟨decls, hdecls, rfl⟩ := h
  have htypes : decls.filterMap Decl.type? = p.decls.filterMap Decl.type? := by
    refine Program.Pointwise.filterMap_eq_of_forall₂ ?_ hdecls
    intro d d' hd
    cases d with
    | method m =>
        obtain ⟨m', _, rfl⟩ := hd
        rfl
    | _ => exact congrArg Decl.type? hd
  rw [declarations_eq, declarations_eq, Program.types, Program.types, htypes]

theorem sites (h : p.Respells T p') : List.Forall₂ (SiteRespells T) p.sites p'.sites := by
  refine List.rel_flatMap h.methods ?_
  intro m m' hm
  have hΓ := hm.context
  obtain ⟨ret, params, body, _, _, hbody, rfl⟩ := hm
  exact hbody.sites hΓ

end Program.Respells

/-! ### Typing -/

/-- Types related by `T` are equivalent, and well formed as soon as the first one is. -/
def Ty.KeepsMeaning (types : TypeTable) (T : Ty → Ty → Prop) : Prop :=
  ∀ ⦃a b⦄, T a b → WellFormed types a → WellFormed types b ∧ Alike types a b

theorem Ty.KeepsMeaning.context {types : TypeTable} {Γ Γ' : Context}
    (hT : Ty.KeepsMeaning types T) (hΓ : Γ.WellFormed types) (h : BindingsRel T Γ Γ') :
    Γ.Alike types Γ' :=
  forall₂_imp_of_mem h fun b hb _ hb' => ⟨hb'.1, (hT hb'.2 (hΓ b hb)).2⟩

variable {ds ds' : Declarations} {ret ret' : Ty}

theorem DeclFits.respell (hds : ds.AlikeSignatures ds') (hT : Ty.KeepsMeaning ds.types T)
    {d d' : VarDecl} {Γ Γ' : Context} (hΓ : Γ.Alike ds.types Γ') (h : DeclFits ds Γ d)
    (hd : d.Respells T d') : DeclFits ds' Γ' d' := by
  obtain ⟨ty, hty, rfl⟩ := hd
  obtain ⟨hwf, halike⟩ := hT hty h.wellFormed
  exact ⟨hds.types ▸ hwf, option_rel_none (hΓ.lookup d.name) h.free,
    fun e he => (h.init e he).alike hds hΓ halike⟩

-- The contexts are related by `T` and not merely equivalent, because what a declaration puts into
-- scope is then related without a look at its typing; equivalence follows at each premise.
mutual

/-- A statement stays well typed when types in it are exchanged for equivalent ones. -/
theorem StmtTyped.respell (hds : ds.AlikeSignatures ds') (hT : Ty.KeepsMeaning ds.types T)
    (hret : Ty.Alike ds.types ret ret') {Γ Γ' : Context} (hwf : Γ.WellFormed ds.types)
    (hΓ : BindingsRel T Γ Γ') : {s s' : Stmt} → StmtTyped ds ret Γ s → s.Respells T s' →
      StmtTyped ds' ret' Γ' s'
  | _, _, .assertion hc, rfl => .assertion (hc.alike hds (hT.context hwf hΓ))
  | _, _, .print he, rfl => by
      obtain ⟨t, ht, _⟩ := he.exists_alike hds (hT.context hwf hΓ)
      exact .print ht
  | _, _, .assign hlvalue ht hv, rfl => by
      have hΓ' := hT.context hwf hΓ
      obtain ⟨t', ht', htt'⟩ := ht.exists_alike hds hΓ'
      exact .assign hlvalue ht' (hv.alike hds hΓ' htt')
  | _, _, .ret he, rfl => .ret fun v hv => (he v hv).alike hds (hT.context hwf hΓ) hret
  | _, _, .jump, rfl => .jump
  | _, _, .decl hd, ⟨_, hd', rfl⟩ => .decl (hd.respell hds hT (hT.context hwf hΓ) hd')
  | _, _, .branch hc hyes hno, ⟨_, _, hyes', hno', rfl⟩ =>
      .branch (hc.alike hds (hT.context hwf hΓ)) (hyes.respell hds hT hret hwf hΓ hyes')
        (hno.respell hds hT hret hwf hΓ hno')
  | _, _, .forLoop hd hc hstep hbody, ⟨_, _, _, hd', hstep', hbody', rfl⟩ => by
      have hwf₁ := hd.wellFormed_extend hwf
      have hΓ₁ := hd'.extend hΓ
      exact .forLoop (hd.respell hds hT (hT.context hwf hΓ) hd')
        (hc.alike hds (hT.context hwf₁ hΓ₁)) (hstep.respell hds hT hret hwf₁ hΓ₁ hstep')
        (hbody.respell hds hT hret (hstep.wellFormed_extend hwf₁) (hstep'.extend hΓ₁) hbody')
  | _, _, .loop hc hbody, ⟨_, hbody', rfl⟩ =>
      .loop (hc.alike hds (hT.context hwf hΓ)) (hbody.respell hds hT hret hwf hΓ hbody')
  | _, _, .switch he hcs, ⟨_, hcs', rfl⟩ => by
      obtain ⟨t', he', htt'⟩ := he.exists_alike hds (hT.context hwf hΓ)
      exact .switch he' (hcs.respell hds hT hret hwf hΓ htt' hcs')
  | _, _, .call h, rfl => .call (h.alike hds (hT.context hwf hΓ))

theorem BlockTyped.respell (hds : ds.AlikeSignatures ds') (hT : Ty.KeepsMeaning ds.types T)
    (hret : Ty.Alike ds.types ret ret') {Γ Γ' : Context} (hwf : Γ.WellFormed ds.types)
    (hΓ : BindingsRel T Γ Γ') : {ss ss' : List Stmt} → BlockTyped ds ret Γ ss →
      Stmt.BlockRespells T ss ss' → BlockTyped ds' ret' Γ' ss'
  | _, _, .nil, rfl => .nil
  | _, _, .cons hs hss, ⟨_, _, hs', hss', rfl⟩ =>
      .cons (hs.respell hds hT hret hwf hΓ hs')
        (hss.respell hds hT hret (hs.wellFormed_extend hwf) (hs'.extend hΓ) hss')

theorem CasesTyped.respell (hds : ds.AlikeSignatures ds') (hT : Ty.KeepsMeaning ds.types T)
    (hret : Ty.Alike ds.types ret ret') {on on' : Ty} {Γ Γ' : Context} (hwf : Γ.WellFormed ds.types)
    (hΓ : BindingsRel T Γ Γ') (hon : Ty.Alike ds.types on on') : {cs cs' : List Case} →
      CasesTyped ds ret on Γ cs → Stmt.CasesRespells T cs cs' → CasesTyped ds' ret' on' Γ' cs'
  | _, _, .nil, rfl => .nil
  | _, _, .cons hg hbody hcs, ⟨_, _, hbody', hcs', rfl⟩ =>
      .cons (fun v hv => (hg v hv).alike hds (hT.context hwf hΓ) hon)
        (hbody.respell hds hT hret hwf hΓ hbody') (hcs.respell hds hT hret hwf hΓ hon hcs')

end

variable {p p' : Program}

theorem Method.Respells.alikeParams {types : TypeTable} {m m' : Method} (hm : m.Respells T m')
    (hT : Ty.KeepsMeaning types T) (h : ∀ q ∈ m.params, q.ty.WellFormed types) :
    List.Forall₂ (fun q q' => q'.name = q.name ∧ q'.ty.WellFormed types ∧
      Ty.Alike types q.ty q'.ty) m.params m'.params := by
  obtain ⟨ret, params, body, _, hparams, _, rfl⟩ := hm
  refine forall₂_imp_of_mem hparams ?_
  rintro q hq _ ⟨ty, hty, rfl⟩
  exact ⟨rfl, hT hty (h q hq)⟩

theorem MethodTyped.respell (hds : ds.AlikeSignatures ds') (hT : Ty.KeepsMeaning ds.types T)
    {m m' : Method} (h : MethodTyped ds m) (hm : m.Respells T m') : MethodTyped ds' m' := by
  have hparams := hm.alikeParams hT h.params
  have hΓ := hm.context
  obtain ⟨ret, params, body, hret, _, hbody, rfl⟩ := hm
  obtain ⟨hwf, halike⟩ := hT hret h.ret
  refine ⟨hds.types ▸ hwf, ?_, ?_, ?_⟩
  · rw [hds.types]
    exact forall_mem_of_forall₂ hparams fun _ _ _ hq => hq.2.1
  · rw [map_eq_of_forall₂ (fun _ _ hq => hq.1) hparams]
    exact h.names
  · exact h.body.respell hds hT halike (Method.wellFormed_context h.params) hΓ hbody

theorem DeclTyped.respell (hds : ds.AlikeSignatures ds') (hT : Ty.KeepsMeaning ds.types T)
    {d d' : Decl} (h : DeclTyped ds d) (hd : d.Respells T d') : DeclTyped ds' d' := by
  cases h with
  | method h =>
      obtain ⟨m', hm, rfl⟩ := hd
      exact .method (h.respell hds hT hm)
  | type h =>
      obtain rfl := hd
      exact .type (hds.types ▸ h)
  | macroDecl =>
      obtain rfl := hd
      exact .macroDecl

theorem find?_of_forall₂ {α β : Type} {r : α → β → Prop} {f : α → Bool} {g : β → Bool}
    (hr : ∀ ⦃a b⦄, r a b → f a = g b) {as : List α} {bs : List β} (h : List.Forall₂ r as bs) :
    Option.Rel r (as.find? f) (bs.find? g) := by
  induction h with
  | nil => exact .none
  | @cons a b _ _ hab _ ih =>
      rw [List.find?_cons, List.find?_cons, ← hr hab]
      cases f a with
      | true => exact .some hab
      | false => exact ih

/-- A call goes to corresponding methods in both programs. -/
theorem Program.Respells.get?_methods (h : p.Respells T p') (n : String) :
    Option.Rel (Method.Respells T) (p.declarations.methods.get? n)
      (p'.declarations.methods.get? n) := by
  rw [Program.get?_methods, Program.get?_methods]
  refine find?_of_forall₂ ?_ (List.rel_reverse h.methods)
  rintro m _ ⟨ret, params, body, _, _, _, rfl⟩
  rfl

theorem Program.WellTyped.alikeSignatures (hp : p.WellTyped)
    (hT : Ty.KeepsMeaning p.declarations.types T) (h : p.Respells T p') :
    p.declarations.AlikeSignatures p'.declarations where
  types := h.types_eq
  methods n m hm := by
    obtain ⟨m', hm', hmm'⟩ := option_rel_some (h.get?_methods n) hm
    have htyped := hp.methodTyped (mem_methods.2 (mem_decls_of_get?_methods hm))
    refine ⟨m', hm', ?_, (hmm'.alikeParams hT htyped.params).imp fun _ _ hq => hq.2.2⟩
    obtain ⟨ret, _, _, hret, _, _, rfl⟩ := hmm'
    exact (hT hret htyped.ret).2

/-- Exchanging types for equivalent ones keeps a program well typed. -/
theorem Program.WellTyped.respell (hp : p.WellTyped)
    (hT : Ty.KeepsMeaning p.declarations.types T) (h : p.Respells T p') : p'.WellTyped := by
  have hds := hp.alikeSignatures hT h
  obtain ⟨decls, hdecls, rfl⟩ := h
  exact forall_mem_of_forall₂ hdecls fun d hd _ hd' => (hp d hd).respell hds hT hd'

end WhileStatics
