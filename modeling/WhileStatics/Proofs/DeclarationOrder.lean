import WhileStatics.Analysis
import WhileStatics.Proofs.AgreeingDeclarations
import WhileStatics.Proofs.ExpandedPrograms
import WhileStatics.Proofs.TypedPrograms

/-!
# The order of declarations

Declarations may be rearranged. Only declarations of one kind with one name
compete, the last of them being the one that counts, so an arrangement that keeps
the order of competing declarations leaves all tables as they are. Expansion and
checking then treat every declaration as before and yield their results in the
new arrangement.
-/

namespace WhileStatics

variable {α β : Type} {order : List Nat} {as : List α} {bs : List β}

/-! ### Arrangements -/

/-- The items at the given positions. -/
def arrange (order : List Nat) (as : List α) : List α := order.filterMap (as[·]?)

theorem arrange_range (as : List α) : arrange (List.range as.length) as = as := by
  induction as with
  | nil => rfl
  | cons a as ih =>
      rw [arrange, List.length_cons, List.range_succ_eq_map, List.filterMap_cons,
        List.filterMap_map]
      simpa [arrange, Function.comp_def] using ih

theorem perm_arrange (h : order.Perm (List.range as.length)) : (arrange order as).Perm as :=
  (h.filterMap (as[·]?)).trans (.of_eq (arrange_range as))

theorem filterMap_eq_of_filter_eq {f : α → Option β} {as as' : List α}
    (h : (as.filter fun a => (f a).isSome) = as'.filter fun a => (f a).isSome) :
    as.filterMap f = as'.filterMap f := by
  have hfilter : ∀ as : List α, (as.filter fun a => (f a).isSome).filterMap f = as.filterMap f := by
    intro as
    rw [List.filterMap_filter]
    congr 1
    funext a
    cases f a <;> rfl
  rw [← hfilter as, h, hfilter as']

/-- What is picked out of a list is the same in every arrangement that keeps its order. -/
theorem filterMap_arrange {f : α → Option β} (h : order.Perm (List.range as.length))
    (hkeep : order.Pairwise fun i j => ∀ a ∈ as[i]?, ∀ b ∈ as[j]?,
      (f a).isSome → (f b).isSome → i < j) :
    (arrange order as).filterMap f = as.filterMap f := by
  conv_rhs => rw [← arrange_range as]
  rw [arrange, arrange, List.filterMap_filterMap, List.filterMap_filterMap]
  -- The positions that count are in ascending order on both sides.
  apply filterMap_eq_of_filter_eq
  refine (h.filter _).eq_of_pairwise ?_ ?_ (List.pairwise_lt_range.filter _)
  · intro i j _ _ hij hji
    omega
  · rw [List.pairwise_filter]
    refine hkeep.imp ?_
    intro i j hij hi hj
    obtain ⟨a, ha, hfa⟩ := Option.bind_eq_some_iff.1 (Option.some_get hi).symm
    obtain ⟨b, hb, hfb⟩ := Option.bind_eq_some_iff.1 (Option.some_get hj).symm
    exact hij a ha b hb (by rw [hfa, Option.isSome_some]) (by rw [hfb, Option.isSome_some])

theorem forall₂_arrange {R : α → β → Prop} (h : List.Forall₂ R as bs) (order : List Nat) :
    List.Forall₂ R (arrange order as) (arrange order bs) := by
  have hat : ∀ i : Nat, Option.Rel R as[i]? bs[i]? := by
    intro i
    induction h generalizing i with
    | nil => simp
    | cons hab _ ih =>
        cases i with
        | zero => simpa using hab
        | succ i => simpa using ih i
  refine List.rel_filterMap (R := Eq) ?_ (List.forall₂_refl order)
  rintro i _ rfl
  exact hat i

theorem exists_forall₂_of_forall {R : α → β → Prop} (h : ∀ a ∈ as, ∃ b, R a b) :
    ∃ bs, List.Forall₂ R as bs := by
  induction as with
  | nil => exact ⟨[], .nil⟩
  | cons a as ih =>
      rw [List.forall_mem_cons] at h
      obtain ⟨b, hb⟩ := h.1
      obtain ⟨bs, hbs⟩ := ih h.2
      exact ⟨b :: bs, .cons hb hbs⟩

/-- A pass over the items one by one yields its results in the order of the items. -/
theorem forall₂_arrange_iff {R : α → β → Prop} (hR : Relator.RightUnique R)
    (horder : order.Perm (List.range as.length)) {cs : List β} :
    List.Forall₂ R (arrange order as) cs ↔
      ∃ bs, List.Forall₂ R as bs ∧ cs = arrange order bs := by
  constructor
  · intro h
    have harranged : ∀ a ∈ arrange order as, ∃ b, R a b :=
      forall_mem_of_forall₂ h.flip fun b _ _ hab => ⟨b, hab⟩
    have hall : ∀ a ∈ as, ∃ b, R a b :=
      fun a ha => harranged a ((perm_arrange horder).mem_iff.2 ha)
    obtain ⟨bs, hbs⟩ := exists_forall₂_of_forall hall
    exact ⟨bs, hbs, hR.forall₂ h (forall₂_arrange hbs order)⟩
  · rintro ⟨bs, hbs, rfl⟩
    exact forall₂_arrange hbs order

theorem Logged.result_mapM (f : α → Logged β) (as : List α) :
    (as.mapM f).result = as.mapM fun a => (f a).result := by
  induction as with
  | nil => rfl
  | cons a as ih =>
      simp only [List.mapM_cons, Logged.result_bind, Logged.result_pure, ih]
      rfl

theorem Logged.rightUnique_result (f : α → Logged β) :
    Relator.RightUnique fun a b => (f a).result = .ok b :=
  fun _ _ _ hb hc => Except.ok.inj (hb.symm.trans hc)

/-! ### Arrangements of programs -/

/-- The declarations are of one kind and have one name, so that the later one counts. -/
def Decl.Competes : Decl → Decl → Prop
  | .method m, .method m' => m.name = m'.name
  | .type t, .type t' => t.name = t'.name
  | .macroDecl m, .macroDecl m' => m.name = m'.name
  | _, _ => False

instance : DecidableRel Decl.Competes
  | .method m, .method m' => inferInstanceAs (Decidable (m.name = m'.name))
  | .type t, .type t' => inferInstanceAs (Decidable (t.name = t'.name))
  | .macroDecl m, .macroDecl m' => inferInstanceAs (Decidable (m.name = m'.name))
  | .method _, .type _ | .method _, .macroDecl _ | .type _, .method _ | .type _, .macroDecl _
  | .macroDecl _, .method _ | .macroDecl _, .type _ => inferInstanceAs (Decidable False)

namespace Program

variable {p q : Program} {n : String}

/-- The program with its declarations in the given order. -/
def inOrder (p : Program) (order : List Nat) : Program :=
  { p with decls := arrange order p.decls }

@[simp] theorem decls_inOrder (p : Program) (order : List Nat) :
    (p.inOrder order).decls = arrange order p.decls := rfl

/-- The order has every declaration once and keeps those that compete in their order. -/
structure Reorders (p : Program) (order : List Nat) : Prop where
  perm : order.Perm (List.range p.decls.length)
  keeps : order.Pairwise fun i j =>
    ∀ c ∈ p.decls[i]?, ∀ d ∈ p.decls[j]?, c.Competes d → i < j

namespace Reorders

/-- The last declaration of a kind with a name is the same in the new order. -/
theorem find?_eq (h : p.Reorders order) {kind : Decl → Option α} {name : α → String}
    (hkind : ∀ c d a b, kind c = some a → kind d = some b → name a = name b → c.Competes d) :
    ((arrange order p.decls).filterMap kind).reverse.find? (fun a => name a == n) =
      (p.decls.filterMap kind).reverse.find? fun a => name a == n := by
  rw [← List.getLast?_filter, ← List.getLast?_filter, List.filter_filterMap,
    List.filter_filterMap, filterMap_arrange h.perm]
  refine h.keeps.imp ?_
  intro i j hij c hc d hd hcn hdn
  obtain ⟨ha, han⟩ := Option.filter_eq_some_iff.1 (Option.some_get hcn).symm
  obtain ⟨hb, hbn⟩ := Option.filter_eq_some_iff.1 (Option.some_get hdn).symm
  refine hij c hc d hd (hkind c d _ _ ha hb ?_)
  rw [beq_iff_eq] at han hbn
  rw [han, hbn]

theorem get?_methods_eq (h : p.Reorders order) :
    (p.inOrder order).declarations.methods.get? n = p.declarations.methods.get? n := by
  rw [get?_methods, get?_methods]
  apply h.find?_eq
  intro c d m m' hc hd hname
  cases c <;> cases hc
  cases d <;> cases hd
  exact hname

theorem get?_types_eq (h : p.Reorders order) :
    (p.inOrder order).declarations.types.get? n = p.declarations.types.get? n := by
  rw [get?_types, get?_types]
  apply h.find?_eq
  intro c d t t' hc hd hname
  cases c <;> cases hc
  cases d <;> cases hd
  exact hname

theorem get?_macros_eq (h : p.Reorders order) :
    (p.inOrder order).declarations.macros.get? n = p.declarations.macros.get? n := by
  rw [get?_macros, get?_macros]
  apply h.find?_eq
  intro c d m m' hc hd hname
  cases c <;> cases hc
  cases d <;> cases hd
  exact hname

theorem agreeWith (h : p.Reorders order) :
    (p.inOrder order).declarations.AgreeWith p.declarations where
  path := by
    rw [path_declarations, path_declarations]
    rfl
  types n := by rw [h.get?_types_eq]
  methods n := by rw [h.get?_methods_eq]
  macros n := by rw [Table.contains, Table.contains, h.get?_macros_eq]

end Reorders

end Program

/-! ### Expansion with the same macros -/

namespace Expansion

variable {x x' : Expansion}

theorem exprWithin_eq_of_get? (hpath : x.path = x'.path)
    (hmacros : ∀ n, x.macros.get? n = x'.macros.get? n) (hoptions : x.options = x'.options)
    (scope : Scope) (b : Nat) : x.exprWithin scope b = x'.exprWithin scope b := by
  induction b with
  | zero => simp only [exprWithin, hpath, hmacros, hoptions]
  | succ b ih => simp only [exprWithin, replaceCall, hpath, hmacros, hoptions, ih]

/-- Expansion of statements is determined by the file and by expansion of expressions. -/
theorem pass_eq_of_walkExpr_eq (hpath : x.path = x'.path) (hexpr : x.walkExpr = x'.walkExpr) :
    x.pass = x'.pass := by
  have hoption : x.walkOption = x'.walkOption := by
    funext o
    cases o <;> simp only [walkOption, hexpr]
  have hlist : x.walkList = x'.walkList := by
    funext es
    induction es with
    | nil => rfl
    | cons e es ih => simp only [walkList, hexpr, ih]
  have hguard : x.guard = x'.guard := by
    funext span o
    cases o <;> simp only [guard, hexpr, hpath]
  have htarget : x.target = x'.target := by
    funext e
    simp only [target, hexpr, hpath]
  have hdeclared : x.varDecl = x'.varDecl := by
    funext d
    simp only [varDecl, hoption]
  simp only [pass, hexpr, hoption, hlist, hguard, htarget, hdeclared]

theorem decl_eq_of_get? (hpath : x.path = x'.path)
    (hmacros : ∀ n, x.macros.get? n = x'.macros.get? n) (hoptions : x.options = x'.options)
    (d : Decl) : x.decl d = x'.decl d := by
  have hexpr : x.walkExpr = x'.walkExpr := by
    funext e
    simp only [walkExpr, expr, exprAt, exprWithin_eq_of_get? hpath hmacros hoptions, hoptions]
  cases d with
  | method m => simp only [decl, method, block_eq_pass, pass_eq_of_walkExpr_eq hpath hexpr]
  | _ => rfl

end Expansion

/-! ### Rearranged programs -/

namespace Program

variable {p q : Program}

/-- Expansion goes through the declarations one by one. -/
theorem result_expand_eq_ok_iff {options : ExpandOptions} :
    (p.expand options).result = .ok q ↔
      ∃ decls, List.Forall₂ (fun d d' => ((p.expansion options).decl d).result = .ok d')
        p.decls decls ∧ { p with decls } = q := by
  simp only [expand, expansion, Logged.result_bind, bind_eq_ok_iff, Logged.result_tellAll,
    Logged.result_mapM_eq_ok_iff, Logged.result_pure, Except.ok.injEq, true_and, exists_const]

namespace Reorders

/-- Expansion of a rearranged program yields the expanded declarations in the new order. -/
theorem expand_eq_ok_iff (h : p.Reorders order) (options : ExpandOptions) :
    ((p.inOrder order).expand options).result = .ok q ↔
      ∃ r, (p.expand options).result = .ok r ∧ q = r.inOrder order := by
  have hdecl : ((p.inOrder order).expansion options).decl = (p.expansion options).decl := by
    funext d
    refine Expansion.decl_eq_of_get? ?_ (fun n => ?_) ?_ d
    · rfl
    · exact h.get?_macros_eq
    · rfl
  simp only [result_expand_eq_ok_iff, hdecl, decls_inOrder,
    forall₂_arrange_iff (Logged.rightUnique_result _) h.perm]
  constructor
  · rintro ⟨_, ⟨decls, hdecls, rfl⟩, rfl⟩
    exact ⟨_, ⟨decls, hdecls, rfl⟩, rfl⟩
  · rintro ⟨_, ⟨decls, hdecls, rfl⟩, rfl⟩
    exact ⟨_, ⟨decls, hdecls, rfl⟩, rfl⟩

/-- Checking of a rearranged program yields the checked declarations in the new order. -/
theorem check_eq_ok_iff (h : p.Reorders order) (options : CheckOptions) :
    ((p.inOrder order).check options).result = .ok q ↔
      ∃ r, (p.check options).result = .ok r ∧ q = r.inOrder order := by
  have hdecl : (p.inOrder order).declarations.checkDecl = p.declarations.checkDecl := by
    funext d
    exact h.agreeWith.checkDecl_eq d
  simp only [result_check_eq_ok_iff, hdecl, decls_inOrder,
    forall₂_arrange_iff (Logged.rightUnique_result _) h.perm]
  constructor
  · rintro ⟨_, ⟨decls, hdecls, rfl⟩, rfl⟩
    refine ⟨_, ⟨decls, hdecls, rfl⟩, ?_⟩
    split <;> rfl
  · rintro ⟨_, ⟨decls, hdecls, rfl⟩, rfl⟩
    refine ⟨_, ⟨decls, hdecls, rfl⟩, ?_⟩
    split <;> rfl

end Reorders

/-- Checking maps a check of single declarations over the program. -/
theorem result_check (p : Program) (options : CheckOptions) :
    (p.check options).result = do
      let decls ← p.decls.mapM fun d => (p.declarations.checkDecl d).result
      return if options.annotate then { p with decls } else p := by
  simp only [check_eq, Logged.result_bind, Logged.result_tellAll, Logged.result_mapM]
  rfl

/-- Checking is modular and does not depend on the order of declarations. What it says of a method
is the same in programs that agree on what type names stand for, on the profiles of methods and on
the names of macros, whatever return type is carried from earlier methods, and no declaration hears
of another one's outcome. A rearrangement that keeps competing declarations in their order expands,
or checks, exactly when the program does, and then to the same declarations in the new order. -/
theorem checks_methods_alone_in_any_order :
    (∀ p p' : Program, p.declarations.AgreeWith p'.declarations →
      ∀ m, (p.declarations.checkMethod m).outcome p.path =
        (p'.declarations.checkMethod m).outcome p'.path) ∧
      (∀ (ds : Declarations) (m : Method) (carried : Ty),
        (ds.visitMethod m).run' carried = ds.checkMethod m) ∧
      (∀ (p : Program) (options : CheckOptions), (p.check options).result = do
        let decls ← p.decls.mapM fun d => (p.declarations.checkDecl d).result
        return if options.annotate then { p with decls } else p) ∧
      ∀ (p : Program) (order : List Nat), p.Reorders order →
        (∀ options q, ((p.inOrder order).expand options).result = .ok q ↔
          ∃ r, (p.expand options).result = .ok r ∧ q = r.inOrder order) ∧
        ∀ options q, ((p.inOrder order).check options).result = .ok q ↔
          ∃ r, (p.check options).result = .ok r ∧ q = r.inOrder order := by
  refine ⟨?_, fun ds => ds.run'_visitMethod, result_check, ?_⟩
  · intro p p' hagree m
    have hpath : p.path = p'.path := by simpa using hagree.path
    rw [hagree.checkMethod_eq, hpath]
  · intro p order horder
    exact ⟨fun options _ => horder.expand_eq_ok_iff options,
      fun options _ => horder.check_eq_ok_iff options⟩

/-- A program in which `next` is declared twice, and its second declaration counts. -/
def counter (step : Expr) : Program where
  path := "counter.while"
  decls :=
    [.type ⟨"Count", .int, {}⟩, .macroDecl ⟨"step", [], step, {}⟩,
      .method ⟨"next", .void, [], [], {}⟩,
      .method ⟨"next", .named "Count", [⟨"n", .named "Count", {}⟩],
        [.ret {} (some (.binary {} .add (.var {} "n") step))], {}⟩,
      .method ⟨"main", .int, [],
        [.ret {} (some (.call {} "next" [.const {} (.int 1)]))], {}⟩]

/-- What counts a step plays no part in the check of `main`, and `main` may come first. -/
theorem counter_checked_in_any_order :
    (∀ m, ((counter (.const {} (.int 1))).declarations.checkMethod m).outcome "counter.while" =
      ((counter (.const {} (.int 2))).declarations.checkMethod m).outcome "counter.while") ∧
      ∃ q r, ((counter (.const {} (.int 1))).check).result = .ok r ∧
        ((counter (.const {} (.int 1))).inOrder [4, 2, 1, 3, 0]).check.result = .ok q ∧
        q = r.inOrder [4, 2, 1, 3, 0] := by
  obtain ⟨hmodular, _, _, horder⟩ := checks_methods_alone_in_any_order
  refine ⟨hmodular (counter _) (counter _) (agreeWith_of_map_eq rfl rfl rfl rfl), ?_⟩
  have hchecked : ∃ r, (counter (.const {} (.int 1))).check.result = .ok r := ⟨_, rfl⟩
  obtain ⟨r, hr⟩ := hchecked
  have hreorders : (counter (.const {} (.int 1))).Reorders [4, 2, 1, 3, 0] :=
    ⟨by decide, by decide⟩
  exact ⟨_, r, hr, ((horder _ _ hreorders).2 {} _).2 ⟨r, hr, rfl⟩, rfl⟩

end Program

end WhileStatics
