import WhileStatics.Proofs.Respelling

/-!
# Transparency of type names

A name and the type that it is declared as are equivalent, also when the type is
recursive and the name comes back in it. Checking therefore does not tell two
programs apart in one of which names are replaced by what they are declared as:
it accepts both or none, and the types that it fills in are equivalent.
-/

namespace WhileStatics

namespace Ty

variable {types : TypeTable} {a b : Ty}

/-- Declared names in the first type are replaced by what they are declared as, any number of them
and at any depth, also in what replaced a name. -/
inductive Unfolds (types : TypeTable) : Ty → Ty → Prop
  | refl (t : Ty) : Unfolds types t t
  | array {e e'} (h : Unfolds types e e') : Unfolds types (.array e) (.array e')
  | record {fs gs : List (String × Ty)} (hlength : fs.length = gs.length)
      (hnames : ∀ p ∈ fs.zip gs, p.1.1 = p.2.1) (h : ∀ p ∈ fs.zip gs, Unfolds types p.1.2 p.2.2) :
      Unfolds types (.record fs) (.record gs)
  | declared {n d u} (hd : types.get? n = some d) (h : Unfolds types d.ty u) :
      Unfolds types (.named n) u

section

variable (hdecls : ∀ n d, types.get? n = some d → WellFormed types d.ty)
include hdecls

/-- A declared name is equivalent to the type that it is declared as. -/
theorem alike_named {n : String} {d : TypeDecl} (hd : types.get? n = some d) :
    Alike types (.named n) d.ty := by
  obtain ⟨u, hu⟩ := exists_resolve_named hdecls hd
  have hnamed : WellFormed types (.named n) := .named hu
  exact .of_resolve_eq (hu.trans ((resolve_named hd).1 hu).symm) (hnamed.namesResolve hdecls)
    ((hdecls n d hd).namesResolve hdecls)

/-- Unfolding names keeps a type well formed and leads to an equivalent one. -/
theorem keepsMeaning_unfolds : KeepsMeaning types (Unfolds types) := by
  intro a b h ha
  induction h with
  | refl t => exact ⟨ha, .refl (ha.namesResolve hdecls)⟩
  | array _ ih =>
      cases ha with
      | array ha =>
          obtain ⟨hwf, halike⟩ := ih ha
          exact ⟨.array hwf, halike.array⟩
  | @record fs gs hlength hnames _ ih =>
      cases ha with
      | record hnodup hfs =>
          have hall : List.Forall₂ (fun f g => f.1 = g.1 ∧ WellFormed types g.2 ∧
              Alike types f.2 g.2) fs gs :=
            List.forall₂_iff_zip.2 ⟨hlength, fun hfg =>
              ⟨hnames _ hfg, ih _ hfg (hfs _ (List.of_mem_zip hfg).1)⟩⟩
          have hfields : BindingsRel (Alike types) fs gs :=
            hall.imp fun _ _ h => ⟨h.1, h.2.2⟩
          exact ⟨.record (hfields.names_eq ▸ hnodup)
            (forall_mem_of_forall₂ hall fun _ _ _ h => h.2.1), .record hnodup hfields⟩
  | declared hd _ ih =>
      obtain ⟨hwf, halike⟩ := ih (hdecls _ _ hd)
      exact ⟨hwf, (alike_named hdecls hd).trans halike⟩

/-- A type is well formed when one is that names in it unfold to. -/
theorem Unfolds.wellFormed_left (h : Unfolds types a b) (hb : WellFormed types b) :
    WellFormed types a := by
  induction h with
  | refl t => exact hb
  | array _ ih =>
      cases hb with
      | array hb => exact .array (ih hb)
  | @record fs gs hlength hnames _ ih =>
      cases hb with
      | record hnodup hgs =>
          have hall : BindingsRel (fun a _ => WellFormed types a) fs gs :=
            List.forall₂_iff_zip.2 ⟨hlength, fun hfg =>
              ⟨hnames _ hfg, ih _ hfg (hgs _ (List.of_mem_zip hfg).2)⟩⟩
          exact .record (hall.names_eq ▸ hnodup)
            (forall_mem_of_forall₂ hall.flip fun _ _ _ h => h.2)
  | declared hd _ _ =>
      obtain ⟨u, hu⟩ := exists_resolve_named hdecls hd
      exact .named hu

/-- The same holds for putting names back in the place of what they are declared as. -/
theorem keepsMeaning_flip_unfolds : KeepsMeaning types (flip (Unfolds types)) := by
  intro a b h ha
  have hb := Unfolds.wellFormed_left hdecls h ha
  exact ⟨hb, (keepsMeaning_unfolds hdecls h hb).2.symm⟩

end

end Ty

/-- The nodes differ only in slots, and their own slots hold equivalent types. -/
def Expr.EquivalentSlots (types : TypeTable) (n n' : Expr) : Prop :=
  n'.erase = n.erase ∧ ∃ t t', n.ty = some t ∧ n'.ty = some t' ∧
    Ty.equivalent types t t' = .ok true

section Annotations

variable {ds ds' : Declarations} {Γ Γ' : Context} {e e' : Expr}

/-- The same expression annotated in equivalent contexts holds equivalent types at each address. -/
theorem Expr.Annotated.equivalentSlots (hds : ds.AlikeSignatures ds') (hds' : ds'.WellFormed)
    (hΓ : Γ.Alike ds.types Γ') (hΓ' : Γ'.WellFormed ds'.types) (he : e.Annotated ds Γ)
    (he' : e'.Annotated ds' Γ') (h : e'.erase = e.erase) (path : List Nat) :
    Option.Rel (Expr.EquivalentSlots ds.types) (e.node? path) (e'.node? path) := by
  have hnodes : (e'.node? path).map erase = (e.node? path).map erase := by
    rw [← node?_erase, ← node?_erase, h]
  cases hn : e.node? path with
  | none =>
      rw [hn, Option.map_none, Option.map_eq_none_iff] at hnodes
      rw [hnodes]
      exact .none
  | some n =>
      rw [hn, Option.map_some, Option.map_eq_some_iff] at hnodes
      obtain ⟨n', hn', herase⟩ := hnodes
      rw [hn']
      obtain ⟨t, hslot, ht⟩ := he n (isNode_iff_exists_node?.2 ⟨path, hn⟩)
      obtain ⟨t', hslot', ht'⟩ := he' n' (isNode_iff_exists_node?.2 ⟨path, hn'⟩)
      obtain ⟨u, hu, htu⟩ := ht.exists_alike hds hΓ
      -- The type that the transported derivation gives is the one that the slot holds.
      obtain rfl : u = t' := (hu.of_erase_eq herase).unique hds' hΓ' ht'
      exact .some ⟨herase, t, u, hslot, hslot', htu.equivalent⟩

end Annotations

namespace Program

variable {p p' q q' : Program} {T : Ty → Ty → Prop}

/-- Annotations of a program and of a respelled one have the same sites up to slots, under
related contexts. -/
theorem Respells.annotated_sites (h : p.Respells T p') (hq : q.IsAnnotationOf p)
    (hq' : q'.IsAnnotationOf p') :
    List.Forall₂ (fun site site' => BindingsRel T site.1 site'.1 ∧
      site'.2.erase = site.2.erase) q.sites q'.sites := by
  have herased : List.Forall₂ (SiteRespells T) (p.sites.map (Prod.map id Expr.erase))
      (p'.sites.map (Prod.map id Expr.erase)) := by
    refine List.rel_map ?_ h.sites
    rintro site site' ⟨hΓ, he⟩
    exact ⟨hΓ, congrArg Expr.erase he⟩
  rw [← sites_erase, ← sites_erase, ← hq.erase_eq, ← hq'.erase_eq, sites_erase, sites_erase,
    List.forall₂_map_left_iff, List.forall₂_map_right_iff] at herased
  exact herased

theorem IsAnnotationOf.forall_sites (h : q.IsAnnotationOf p) (hp : p.WellTyped) :
    ∀ site ∈ q.sites, Context.WellFormed p.declarations.types site.1 ∧
      site.2.Annotated p.declarations site.1 := by
  intro site hsite
  obtain ⟨m, hm, hsite⟩ := List.mem_flatMap.1 hsite
  exact ⟨h.wellFormed_sites hp hm site hsite, h.annotated m hm site hsite⟩

theorem exists_check_iff : (∃ q, p.check.result = .ok q) ↔ p.WellTyped := by
  constructor
  · rintro ⟨q, hq⟩
    exact (check_eq_ok_iff.1 hq).1
  · intro hp
    obtain ⟨q, hq⟩ := hp.exists_annotated
    exact ⟨q, check_eq_ok_iff.2 ⟨hp, hq⟩⟩

theorem Respells.wellTyped_iff (h : p.Respells (Ty.Unfolds p.declarations.types) p') :
    p.WellTyped ↔ p'.WellTyped := by
  constructor
  · intro hp
    exact hp.respell (Ty.keepsMeaning_unfolds hp.wellFormed_declarations.types) h
  · intro hp'
    refine hp'.respell ?_ h.symm
    rw [← h.types_eq]
    exact Ty.keepsMeaning_flip_unfolds hp'.wellFormed_declarations.types

/-- Corresponding nodes of a checked program and of a checked respelling of it have equivalent
types in their slots. -/
theorem WellTyped.equivalentSlots (hp : p.WellTyped)
    (hT : Ty.KeepsMeaning p.declarations.types T) (h : p.Respells T p')
    (hq : q.IsAnnotationOf p) (hq' : q'.IsAnnotationOf p') :
    List.Forall₂ (fun site site' => ∀ path,
      Option.Rel (Expr.EquivalentSlots p.declarations.types) (site.2.node? path)
        (site'.2.node? path)) q.sites q'.sites := by
  have hp' := hp.respell hT h
  have hds := hp.alikeSignatures hT h
  obtain ⟨hlength, hpairs⟩ := List.forall₂_iff_zip.1 (h.annotated_sites hq hq')
  refine List.forall₂_iff_zip.2 ⟨hlength, fun {site site'} hmem path => ?_⟩
  obtain ⟨hrel, herase⟩ := hpairs hmem
  obtain ⟨hΓ, he⟩ := hq.forall_sites hp site (List.of_mem_zip hmem).1
  obtain ⟨hΓ', he'⟩ := hq'.forall_sites hp' site' (List.of_mem_zip hmem).2
  exact he.equivalentSlots hds hp'.wellFormed_declarations (hT.context hΓ hrel) hΓ' he' herase path

/-- Replacing names in the types of parameters, returns and local variables by what they are
declared as is not noticed by checking: it accepts both programs or none, and what it fills in at
corresponding nodes are equivalent types. In both programs a name stands for the last declaration
of its kind. -/
theorem checking_does_not_see_unfolded_names (p p' : Program)
    (h : p.Respells (Ty.Unfolds p.declarations.types) p') :
    (p.LastWins ∧ p'.LastWins) ∧
    ((∃ q, p.check.result = .ok q) ↔ ∃ q', p'.check.result = .ok q') ∧
    ∀ q q', p.check.result = .ok q → p'.check.result = .ok q' →
      List.Forall₂ (fun site site' => ∀ path,
        Option.Rel (Expr.EquivalentSlots p.declarations.types) (site.2.node? path)
          (site'.2.node? path)) q.sites q'.sites := by
  refine ⟨⟨p.lastWins, p'.lastWins⟩, ?_, fun q q' hq hq' => ?_⟩
  · rw [exists_check_iff, exists_check_iff]
    exact h.wellTyped_iff
  · obtain ⟨hp, hannotation⟩ := check_eq_ok_iff.1 hq
    have hT := Ty.keepsMeaning_unfolds hp.wellFormed_declarations.types
    exact hp.equivalentSlots hT h hannotation (check_eq_ok_iff.1 hq').2

/-- The type of trees, which is recursive, with its name replaced `depth` times by what it is
declared as. -/
def treeType : (depth : Nat) → Ty
  | 0 => .named "Tree"
  | depth + 1 => .record [("label", .int), ("children", .array (treeType depth))]

/-- A method on trees whose parameter, result and local variable have the type of trees, each
unfolded to its own depth. -/
def descent (param ret loc : Nat) : Program where
  path := "descent"
  decls := [
    .type { name := "Tree", ty := treeType 1 },
    .method { name := "descend", ret := treeType ret, params := [⟨"t", treeType param, {}⟩],
              body := [
                .decl { ty := treeType loc, name := "child",
                        init := some (.index {} (.access {} (.var {} "t") "children")
                          (.const {} (.int 0))) },
                .ret {} (some (.call {} "descend" [.var {} "child"]))] }]

theorem unfolds_treeType (depth : Nat) :
    Ty.Unfolds (descent 0 0 0).declarations.types (treeType 0) (treeType depth) := by
  induction depth with
  | zero => exact .refl _
  | succ depth ih =>
      refine .declared rfl (.record rfl ?_ ?_)
      · simp
      · simpa using ⟨.refl _, .array ih⟩

/-- A parameter that is unfolded twice, a result that is unfolded once and a local variable that is
unfolded three times make no difference. -/
theorem descent_checks_alike_when_unfolded :
    (descent 0 0 0).Respells (Ty.Unfolds (descent 0 0 0).declarations.types) (descent 2 1 3) ∧
    ∃ q q', (descent 0 0 0).check.result = .ok q ∧ (descent 2 1 3).check.result = .ok q' ∧
      List.Forall₂ (fun site site' => ∀ path,
        Option.Rel (Expr.EquivalentSlots (descent 0 0 0).declarations.types)
          (site.2.node? path) (site'.2.node? path)) q.sites q'.sites := by
  have hrespells : (descent 0 0 0).Respells (Ty.Unfolds (descent 0 0 0).declarations.types)
      (descent 2 1 3) := by
    refine ⟨_, .cons rfl (.cons ⟨_, ⟨_, _, _, unfolds_treeType 1, ?_, ?_, rfl⟩, rfl⟩ .nil), rfl⟩
    · exact .cons ⟨_, unfolds_treeType 2, rfl⟩ .nil
    · exact ⟨_, _, ⟨_, ⟨_, unfolds_treeType 3, rfl⟩, rfl⟩, ⟨_, _, rfl, rfl, rfl⟩, rfl⟩
  obtain ⟨_, haccepted, hslots⟩ := checking_does_not_see_unfolded_names _ _ hrespells
  obtain ⟨q, hq⟩ : ∃ q, (descent 0 0 0).check.result = .ok q := ⟨_, rfl⟩
  obtain ⟨q', hq'⟩ := haccepted.1 ⟨q, hq⟩
  exact ⟨hrespells, q, q', hq, hq', hslots q q' hq hq'⟩

end Program

end WhileStatics
