import WhileStatics.Proofs.Literals
import WhileStatics.Proofs.SubtypeOrder
import WhileStatics.Proofs.TypingRules
import Mathlib.Data.List.Zip
import Mathlib.Data.Option.Basic

/-!
# Equivalent types

Types that are below each other cannot be told apart by anything that the typing
rules ask: comparing them with others, resolving them and looking at the shape,
the element or the fields, and taking least upper bounds. What these questions
yield for one of two equivalent types is equivalent to what they yield for the
other one.
-/

namespace WhileStatics

section Options

variable {α β : Type} {r : α → β → Prop} {o : Option α} {o' : Option β}

theorem option_rel_some (h : Option.Rel r o o') {a : α} (ho : o = some a) :
    ∃ b, o' = some b ∧ r a b := by
  subst ho
  cases h with
  | some h => exact ⟨_, rfl, h⟩

theorem option_rel_none (h : Option.Rel r o o') (ho : o = none) : o' = none := by
  subst ho
  cases h with
  | none => rfl

end Options

/-- The same names in the same order with related types: the fields of two records, or the
variables of two contexts. -/
def BindingsRel (T : Ty → Ty → Prop) : List (String × Ty) → List (String × Ty) → Prop :=
  List.Forall₂ fun b b' => b.1 = b'.1 ∧ T b.2 b'.2

namespace BindingsRel

variable {T : Ty → Ty → Prop} {bs bs' : List (String × Ty)}

theorem names_eq (h : BindingsRel T bs bs') : bs.map Prod.fst = bs'.map Prod.fst := by
  induction h with
  | nil => rfl
  | cons h _ ih => rw [List.map_cons, List.map_cons, h.1, ih]

theorem lookup (h : BindingsRel T bs bs') (n : String) :
    Option.Rel T (bs.lookup n) (bs'.lookup n) := by
  induction h with
  | nil => exact .none
  | @cons b b' _ _ hb _ ih =>
      obtain ⟨m, t⟩ := b
      obtain ⟨m', t'⟩ := b'
      obtain ⟨rfl, ht⟩ : m = m' ∧ T t t' := hb
      rw [List.lookup_cons, List.lookup_cons]
      cases n == m with
      | true => exact .some ht
      | false => exact ih

theorem zip {names : List String} {ts ts' : List Ty} (h : List.Forall₂ T ts ts') :
    BindingsRel T (names.zip ts) (names.zip ts') := by
  induction h generalizing names with
  | nil => simp [BindingsRel]
  | cons ht _ ih =>
      cases names with
      | nil => exact .nil
      | cons n names => exact .cons ⟨rfl, ht⟩ ih

end BindingsRel

namespace Ty

variable {types : TypeTable} {a a' b b' c u : Ty}

/-- The names in both types resolve, and the types are below each other. -/
structure Alike (types : TypeTable) (a b : Ty) : Prop where
  left : NamesResolve types a
  right : NamesResolve types b
  above : Below types a b
  below : Below types b a

namespace Alike

theorem refl (h : NamesResolve types a) : Alike types a a :=
  ⟨h, h, .refl h, .refl h⟩

theorem symm (h : Alike types a b) : Alike types b a :=
  ⟨h.right, h.left, h.below, h.above⟩

theorem trans (h : Alike types a b) (h' : Alike types b c) : Alike types a c :=
  ⟨h.left, h'.right, h.above.trans h'.above, h'.below.trans h.below⟩

theorem of_resolve_eq (h : a.resolve types = b.resolve types) (ha : NamesResolve types a)
    (hb : NamesResolve types b) : Alike types a b :=
  ⟨ha, hb, .of_resolve_eq h ha, .of_resolve_eq h.symm hb⟩

theorem equivalent (h : Alike types a b) : equivalent types a b = .ok true :=
  (equivalent_eq_true_iff h.left h.right).2 ⟨h.above, h.below⟩

/-! ### Comparisons -/

/-- Equivalent types compare alike with equivalent types. -/
theorem isSubtype_eq (ha : Alike types a a') (hb : Alike types b b') :
    isSubtype types a b = isSubtype types a' b' := by
  obtain ⟨r, hr⟩ := isSubtype_total ha.left hb.left
  obtain ⟨r', hr'⟩ := isSubtype_total ha.right hb.right
  have hiff : r = true ↔ r' = true := by
    calc
      r = true ↔ Below types a b := by
        rw [← isSubtype_eq_true_iff ha.left hb.left, hr, Except.ok.injEq]
      _ ↔ Below types a' b' :=
        ⟨fun h => ha.below.trans (h.trans hb.above), fun h => ha.above.trans (h.trans hb.below)⟩
      _ ↔ r' = true := by
        rw [← isSubtype_eq_true_iff ha.right hb.right, hr', Except.ok.injEq]
  rw [hr, hr', Bool.eq_iff_iff.2 hiff]

theorem comparable_eq (ha : Alike types a a') (hb : Alike types b b') :
    comparable types a b = comparable types a' b' := by
  rw [comparable, comparable, ha.isSubtype_eq hb, hb.isSubtype_eq ha]

theorem boundFrom {ts ts' : List Ty} {r : Ty} (ha : Alike types a a')
    (hts : List.Forall₂ (Alike types) ts ts') (h : boundFrom types a ts = .ok r) :
    ∃ r', Ty.boundFrom types a' ts' = .ok r' ∧ Alike types r r' := by
  induction hts generalizing a a' with
  | nil =>
      rw [Ty.boundFrom, Except.ok.injEq] at h
      exact ⟨a', rfl, h ▸ ha⟩
  | @cons t t' ts ts' ht _ ih =>
      rw [Ty.boundFrom, bindM_eq_ok_iff] at h
      obtain ⟨above, habove, h⟩ := h
      rw [ht.isSubtype_eq ha] at habove
      cases above with
      | true =>
          obtain ⟨r', hr', hrr'⟩ := ih ht h
          exact ⟨r', by simp [Ty.boundFrom, habove, hr'], hrr'⟩
      | false =>
          simp only [Bool.false_eq_true, if_false, bindM_eq_ok_iff] at h
          obtain ⟨below, hbelow, h⟩ := h
          rw [ha.isSubtype_eq ht] at hbelow
          cases below with
          | true =>
              obtain ⟨r', hr', hrr'⟩ := ih ha h
              exact ⟨r', by simp [Ty.boundFrom, habove, hbelow, hr'], hrr'⟩
          | false => cases h

theorem leastUpperBound {ts ts' : List Ty} {r : Ty} (hts : List.Forall₂ (Alike types) ts ts')
    (h : leastUpperBound types ts = .ok r) :
    ∃ r', Ty.leastUpperBound types ts' = .ok r' ∧ Alike types r r' :=
  boundFrom (refl ((constructive_namesResolve types).primitive _ (by simp))) hts h

/-! ### Shapes and parts -/

theorem resolved (h : Alike types a b) (ha : a.resolve types = .ok u) :
    ∃ v, b.resolve types = .ok v ∧ Alike types u v := by
  have hnames := hereditary_namesResolve types
  obtain ⟨v, hv⟩ := h.right.exists_resolve
  exact ⟨v, hv, hnames.resolved h.left ha, hnames.resolved h.right hv, h.above.resolved ha hv,
    h.below.resolved hv ha⟩

/-- Equivalent types that are no names have the same shape. -/
theorem shape_eq (h : Alike types a b) (ha : a.shape? ≠ none) (hb : b.shape? ≠ none) :
    a.shape? = b.shape? := by
  by_cases hvoid : b = .void
  · by_cases hvoid' : a = .void
    · rw [hvoid, hvoid']
    · exact (h.below.shape_eq hvoid' hb ha).symm
  · exact h.above.shape_eq hvoid ha hb

theorem isA {shape : Shape} (h : Alike types a b) (ha : a.IsA types shape) :
    b.IsA types shape := by
  obtain ⟨u, hu, hshape⟩ := ha
  obtain ⟨v, hv, huv⟩ := h.resolved hu
  refine ⟨v, hv, ?_⟩
  rw [← huv.shape_eq (shape_of_resolve hu) (shape_of_resolve hv), hshape]

theorem exists_array {e : Ty} (h : Alike types a b) (ha : a.resolve types = .ok (.array e)) :
    ∃ e', b.resolve types = .ok (.array e') ∧ Alike types e e' := by
  have hnames := hereditary_namesResolve types
  obtain ⟨v, hv, hev⟩ := h.resolved ha
  have hshape := (hev.shape_eq nofun (shape_of_resolve hv)).symm
  cases v with
  | array e' =>
      exact ⟨e', hv, hnames.element hev.left, hnames.element hev.right, hev.above.element,
        hev.below.element⟩
  | _ => cases hshape

theorem fields {fs gs : List (String × Ty)} (h : Alike types (.record fs) (.record gs)) :
    BindingsRel (Alike types) fs gs := by
  have hnames := hereditary_namesResolve types
  obtain ⟨hlength, habove⟩ := h.above.fields
  obtain ⟨hlength', hbelow⟩ := h.below.fields
  refine List.forall₂_iff_zip.2 ⟨hlength.antisymm hlength', fun {f g} hfg => ?_⟩
  have hgf : (g, f) ∈ gs.zip fs := by
    rw [← List.zip_swap, List.mem_map]
    exact ⟨(f, g), hfg, rfl⟩
  exact ⟨(habove _ hfg).1, hnames.field h.left (List.of_mem_zip hfg).1,
    hnames.field h.right (List.of_mem_zip hfg).2, (habove _ hfg).2, (hbelow _ hgf).2⟩

theorem exists_record {fs : List (String × Ty)} (h : Alike types a b)
    (ha : a.resolve types = .ok (.record fs)) :
    ∃ gs, b.resolve types = .ok (.record gs) ∧ BindingsRel (Alike types) fs gs := by
  obtain ⟨v, hv, hev⟩ := h.resolved ha
  have hshape := (hev.shape_eq nofun (shape_of_resolve hv)).symm
  cases v with
  | record gs => exact ⟨gs, hv, hev.fields⟩
  | _ => cases hshape

theorem array (h : Alike types a b) : Alike types (.array a) (.array b) := by
  have hnames := constructive_namesResolve types
  exact ⟨hnames.array h.left, hnames.array h.right,
    .of_matches (.array (resolve_array a) (resolve_array b) h.above),
    .of_matches (.array (resolve_array b) (resolve_array a) h.below)⟩

theorem record {fs gs : List (String × Ty)} (hnodup : (fs.map Prod.fst).Nodup)
    (h : BindingsRel (Alike types) fs gs) : Alike types (.record fs) (.record gs) := by
  have hnames := constructive_namesResolve types
  obtain ⟨hlength, hpairs⟩ := List.forall₂_iff_zip.1 h
  obtain ⟨hlength', hpairs'⟩ := List.forall₂_iff_zip.1 h.flip
  refine ⟨hnames.record hnodup ?_, hnames.record (h.names_eq ▸ hnodup) ?_,
    .of_matches (.record (resolve_record fs) (resolve_record gs) hlength.le ?_),
    .of_matches (.record (resolve_record gs) (resolve_record fs) hlength'.le ?_)⟩
  · exact forall_mem_of_forall₂ h.flip fun _ _ _ hf => hf.2.left
  · exact forall_mem_of_forall₂ h fun _ _ _ hf => hf.2.right
  · exact fun p hp => ⟨(hpairs hp).1, (hpairs hp).2.above⟩
  · exact fun p hp => ⟨(hpairs' hp).1.symm, (hpairs' hp).2.below⟩

end Alike

end Ty

/-! ### Operators -/

variable {types : TypeTable} {s s' t t' u : Ty}

theorem BinaryOp.Rule.alike {op : BinaryOp} (hs : Ty.Alike types s s') (ht : Ty.Alike types t t')
    (h : op.Rule types s t u) : op.Rule types s' t' u := by
  cases h with
  | logical hop hs' ht' => exact .logical hop (hs.isA hs') (ht.isA ht')
  | arithmetic hop hs' ht' => exact .arithmetic hop (hs.isA hs') (ht.isA ht')
  | ordering hop hs' ht' => exact .ordering hop (hs.isA hs') (ht.isA ht')
  | equality hop hst => exact .equality hop (hs.comparable_eq ht ▸ hst)

theorem UnaryOp.Rule.alike {op : UnaryOp} (ht : Ty.Alike types t t') (h : op.Rule types t u) :
    op.Rule types t' u := by
  cases h with
  | not ht' => exact .not (ht.isA ht')
  | neg ht' => exact .neg (ht.isA ht')
  | lengthOfArray ht' => exact .lengthOfArray (ht.isA ht')
  | lengthOfString ht' => exact .lengthOfString (ht.isA ht')

end WhileStatics
