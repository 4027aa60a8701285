import WhileStatics.Proofs.EquivalentTypes
import WhileStatics.Proofs.Inference

/-!
# Typing in equivalent contexts

Where the variables in scope and the signatures of the methods are given by
equivalent types, an expression has a type in both settings or in none, and its
two types are equivalent. What the rules for statements ask of an expression is
therefore met in both settings or in none.
-/

namespace WhileStatics

variable {ds ds' : Declarations} {Γ Γ' : Context}

/-- The tables hold the same types, and every method of the first one has a counterpart whose
signature consists of equivalent types. -/
structure Declarations.AlikeSignatures (ds ds' : Declarations) : Prop where
  types : ds'.types = ds.types
  methods : ∀ n m, ds.methods.get? n = some m → ∃ m', ds'.methods.get? n = some m' ∧
    Ty.Alike ds.types m.ret m'.ret ∧
    List.Forall₂ (fun p p' => Ty.Alike ds.types p.ty p'.ty) m.params m'.params

/-- The same variables are in scope, with equivalent types. -/
abbrev Context.Alike (types : TypeTable) : Context → Context → Prop :=
  BindingsRel (Ty.Alike types)

theorem exists_alike_list {es : List Expr} {ts : List Ty}
    (h : List.Forall₂ (HasType ds Γ) es ts)
    (ih : ∀ e ∈ es, ∀ t, HasType ds Γ e t →
      ∃ t', HasType ds' Γ' e t' ∧ Ty.Alike ds.types t t') :
    ∃ ts', List.Forall₂ (HasType ds' Γ') es ts' ∧ List.Forall₂ (Ty.Alike ds.types) ts ts' := by
  induction h with
  | nil => exact ⟨[], .nil, .nil⟩
  | cons ht _ ihts =>
      obtain ⟨t', ht', htt'⟩ := ih _ (by simp) _ ht
      obtain ⟨ts', hts', htsts'⟩ := ihts fun e he => ih e (by simp [he])
      exact ⟨t' :: ts', .cons ht' hts', .cons htt' htsts'⟩

section Expressions

variable (hds : ds.AlikeSignatures ds') (hΓ : Γ.Alike ds.types Γ')

include hds hΓ

/-- An expression has equivalent types in equivalent contexts. -/
theorem HasType.exists_alike {e : Expr} {t : Ty} (h : HasType ds Γ e t) :
    ∃ t', HasType ds' Γ' e t' ∧ Ty.Alike ds.types t t' := by
  obtain ⟨path, methods, types, macros⟩ := ds
  obtain ⟨path', methods', types', macros'⟩ := ds'
  obtain rfl : types' = types := hds.types
  have hnames := Ty.constructive_namesResolve types'
  induction e generalizing t with
  | binary _ _ _ _ ihl ihr =>
      cases h with
      | binary hl hr h =>
          obtain ⟨s', hl', hs⟩ := ihl hl
          obtain ⟨t', hr', ht⟩ := ihr hr
          exact ⟨t, .binary hl' hr' (h.alike hs ht), .refl (h.constructive hnames)⟩
  | unary _ _ _ ih =>
      cases h with
      | unary hx h =>
          obtain ⟨t', hx', ht⟩ := ih hx
          exact ⟨t, .unary hx' (h.alike ht), .refl (h.constructive hnames)⟩
  | const _ _ =>
      cases h with
      | const h => exact ⟨t, .const h, .refl (Value.constructive_typeOf hnames h)⟩
  | var _ n =>
      cases h with
      | var h =>
          obtain ⟨t', hn, ht⟩ := option_rel_some (hΓ.lookup n) h
          exact ⟨t', .var hn, ht⟩
  | index _ _ _ ihs ihp =>
      cases h with
      | element hs hp ha ht =>
          obtain ⟨a', hs', haa'⟩ := ihs hs
          obtain ⟨t', hp', htt'⟩ := ihp hp
          obtain ⟨u', hu', huu'⟩ := haa'.exists_array ha
          exact ⟨u', .element hs' hp' hu' (htt'.isA ht), huu'⟩
      | character hs hp ha ht =>
          obtain ⟨a', hs', haa'⟩ := ihs hs
          obtain ⟨t', hp', htt'⟩ := ihp hp
          exact ⟨_, .character hs' hp' (haa'.isA ha) (htt'.isA ht),
            .refl (hnames.primitive _ (by simp))⟩
  | call _ _ _ ih =>
      cases h with
      | @call _ _ m _ ts hm has hts =>
          obtain ⟨m', hm', hret, hparams⟩ := hds.methods _ _ hm
          obtain ⟨ts', has', htsts'⟩ := exists_alike_list has fun a ha t => ih a ha
          refine ⟨m'.ret, .call hm' has' ?_, hret⟩
          -- First the parameters are exchanged for their counterparts and then the arguments.
          have hparams' : List.Forall₂ (fun (p' : Param) t => ∃ p : Param,
              Ty.Alike types' p.ty p'.ty ∧ Ty.isSubtype types' p.ty t = .ok true) m'.params ts :=
            forall₂_transport hts (hparams.imp fun p p' hp t ht => ⟨p, hp, ht⟩)
          have hargs : List.Forall₂ (fun t' (p' : Param) =>
              Ty.isSubtype types' p'.ty t' = .ok true) ts' m'.params := by
            refine forall₂_transport hparams'.flip (htsts'.imp fun t t' ht p' => ?_)
            rintro ⟨p, hp, hsub⟩
            exact (hp.isSubtype_eq ht).symm.trans hsub
          exact hargs.flip
  | generate _ _ _ ihv ihc =>
      cases h with
      | generate hv hc hu =>
          obtain ⟨t', hv', htt'⟩ := ihv hv
          obtain ⟨u', hc', huu'⟩ := ihc hc
          exact ⟨.array t', .generate hv' hc' (huu'.isA hu), htt'.array⟩
  | array _ _ ih =>
      cases h with
      | array hes ht =>
          obtain ⟨ts', hes', htsts'⟩ := exists_alike_list hes fun e he t => ih e he
          obtain ⟨t', ht', htt'⟩ := Ty.Alike.leastUpperBound htsts' ht
          exact ⟨.array t', .array hes' ht', htt'.array⟩
  | access _ _ f ih =>
      cases h with
      | access hs ha hf =>
          obtain ⟨a', hs', haa'⟩ := ih hs
          obtain ⟨gs, hgs, hfields⟩ := haa'.exists_record ha
          obtain ⟨t', hg, ht⟩ := option_rel_some (hfields.lookup f) hf
          exact ⟨t', .access hs' hgs hg, ht⟩
  | record _ fs ih =>
      cases h with
      | @record _ _ ts hfs hnodup =>
          obtain ⟨ts', hfs', htsts'⟩ :=
            exists_alike_list hfs (List.forall_mem_map.2 fun f hf t => ih f hf)
          refine ⟨_, .record hfs' hnodup, .record ?_ (.zip htsts')⟩
          rw [List.map_fst_zip (by simpa using Nat.le_of_eq hfs.length_eq)]
          exact hnodup

theorem IsCondition.alike {e : Expr} (h : IsCondition ds Γ e) : IsCondition ds' Γ' e := by
  obtain ⟨t, ht, hbool⟩ := h
  obtain ⟨t', ht', htt'⟩ := ht.exists_alike hds hΓ
  exact ⟨t', ht', hds.types ▸ htt'.isA hbool⟩

theorem Fits.alike {sup sup' : Ty} {e : Expr} (hsup : Ty.Alike ds.types sup sup')
    (h : Fits ds Γ sup e) : Fits ds' Γ' sup' e := by
  obtain ⟨t, ht, hsub⟩ := h
  obtain ⟨t', ht', htt'⟩ := ht.exists_alike hds hΓ
  exact ⟨t', ht', hds.types ▸ (hsup.isSubtype_eq htt').symm.trans hsub⟩

theorem CallFits.alike {n : String} {as : List Expr} (h : CallFits ds Γ n as) :
    CallFits ds' Γ' n as := by
  obtain ⟨m, hm, hfits⟩ := h
  obtain ⟨m', hm', _, hparams⟩ := hds.methods n m hm
  exact ⟨m', hm', forall₂_transport hfits (hparams.imp fun _ _ hp _ ha => ha.alike hds hΓ hp)⟩

end Expressions

end WhileStatics
