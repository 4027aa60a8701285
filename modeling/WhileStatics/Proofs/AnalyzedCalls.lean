import WhileStatics.Proofs.AnalyzedPrograms
import WhileStatics.Proofs.MacroCalls
import WhileStatics.Proofs.NestedStatements
import WhileStatics.Proofs.WrittenTypes
import Mathlib.Data.List.Nodup

/-!
# Calls in analyzed programs

Every call in an analyzed program goes to the method that the table has for its
name: to the checker a call is one of a method whenever there is a method of the
name. So a macro call that expansion left in place passes if a method has the
name of the macro, and where a name is declared more than once, calls agree with
its last method and not with the first.
-/

namespace WhileStatics

variable {ds : Declarations} {Γ : Context}

/-! ### Types of nodes -/

/-- Every node of an expression has a type if it differs only in its slots from one that is filled
in. -/
theorem Expr.Annotated.exists_hasType {e e' node : Expr} (h : e.Annotated ds Γ)
    (he : e.erase = e'.erase) (hnode : IsNode node e') : ∃ t, HasType ds Γ node t := by
  obtain ⟨path, hpath⟩ := isNode_iff_exists_node?.1 hnode
  have herased : (e.node? path).map erase = some node.erase := by
    rw [← node?_erase, he, node?_erase, hpath, Option.map_some]
  obtain ⟨node', hnode', heq⟩ := Option.map_eq_some_iff.1 herased
  obtain ⟨t, _, ht⟩ := h node' (isNode_iff_exists_node?.2 ⟨path, hnode'⟩)
  exact ⟨t, ht.transport (.refl ds) heq.symm⟩

theorem Program.WellTyped.exists_hasType {p : Program} (h : p.WellTyped) {m : Method}
    (hm : m ∈ p.methods) {site : Context × Expr} (hsite : site ∈ m.sites) {node : Expr}
    (hnode : Expr.IsNode node site.2) : ∃ t, HasType p.declarations site.1 node t := by
  obtain ⟨q, hq⟩ := h.exists_annotated
  have hall := (isAnnotationOf_iff.1 hq).symm.forall_sites
    (P := fun Γ e => ∀ node, Expr.IsNode node e → ∃ t, HasType p.declarations Γ node t)
    fun _ _ _ _ he node hnode => he.2.exists_hasType he.1 hnode
  exact hall m hm site hsite node hnode

namespace Program

variable {p q : Program} {n : String}

/-! ### Calls of macros -/

/-- A name that a well-typed program calls is one of a method. -/
theorem WellTyped.exists_method_of_calls (h : p.WellTyped) (hn : p.Calls n) :
    ∃ m, p.declarations.methods.get? n = some m := by
  obtain ⟨m, hm, site, hsite, i, as, hnode⟩ := hn
  obtain ⟨t, ht⟩ := h.exists_hasType hm hsite hnode
  cases ht with
  | call hmethod _ _ => exact ⟨_, hmethod⟩

/-- A macro that is called in an analyzed program has no template and shares its name with a
method. Where no name is one of a macro and of a method, no macro call survives. -/
theorem analyze_leaves_only_macro_calls_that_methods_answer (p q : Program)
    (options : AnalysisOptions) (h : (p.analyze options).result = .ok q) :
    (∀ n, q.Calls n → ∀ d, p.declarations.macros.get? n = some d →
      (∃ m, p.declarations.methods.get? n = some m) ∧
        (p.expansion options.expand).HasNoTemplate d) ∧
    ((∀ n, p.declarations.macros.contains n = true → p.declarations.methods.get? n = none) →
      ∀ n, q.Calls n → p.declarations.macros.get? n = none) := by
  obtain ⟨htyped, R, hpq, hR⟩ := wellTyped_and_settled_of_analyze h
  have hmethod : ∀ n, q.Calls n → ∃ m, p.declarations.methods.get? n = some m := by
    intro n hn
    obtain ⟨m, hm⟩ := htyped.exists_method_of_calls hn
    obtain ⟨m', hm', _⟩ := hpq.symm.sameSignatures.methods n m hm
    exact ⟨m', hm'⟩
  refine ⟨fun n hn d hd => ⟨hmethod n hn, ?_⟩, fun hnames n hn => ?_⟩
  · rw [← hpq.expansion_eq]
    apply hasNoTemplate_of_calls (hpq.expand_self hR) hn
    rwa [hpq.declared_macros_eq]
  · by_contra hmacro
    obtain ⟨d, hd⟩ := Option.ne_none_iff_exists'.1 hmacro
    obtain ⟨m, hm⟩ := hmethod n hn
    simp [hnames n (Table.contains_of_get? hd)] at hm

/-- A macro without a template and a method of the same name. -/
def homonyms : Program where
  path := "homonyms"
  decls := [
    .macroDecl { name := "id", params := [⟨"a", {}⟩], body := .var {} "a" },
    .method { name := "id", ret := .int, params := [⟨"a", .int, {}⟩],
              body := [.ret {} (some (.var {} "a"))] },
    .method { name := "main", ret := .int, params := [],
              body := [.ret {} (some (.call {} "id" [.const {} (.int 1)]))] }]

/-- The program `homonyms` after analysis. -/
def homonymsAnalyzed : Program where
  path := "homonyms"
  decls := homonyms.decls.take 1 ++ [
    .method { name := "id", ret := .int, params := [⟨"a", .int, {}⟩],
              body := [.ret {} (some (.var { ty := some .int } "a"))] },
    .method { name := "main", ret := .int, params := [],
              body := [.ret {} (some (.call { ty := some .int } "id"
                [.const { ty := some .int } (.int 1)]))] }]

theorem homonymsAnalyzed_calls_id : homonymsAnalyzed.Calls "id" :=
  ⟨_, .tail _ (.head _), _, .head _, { ty := some .int }, [.const { ty := some .int } (.int 1)],
    .self _⟩

/-- The call of the macro `id` survives, because a method answers to its name. In `increments` no
name is shared, so no macro call survives. -/
theorem homonyms_keep_and_increments_lose_macro_calls :
    (homonyms.analyze.result = .ok homonymsAnalyzed ∧
      ∃ d, homonyms.declarations.macros.get? "id" = some d ∧
        (homonyms.expansion {}).HasNoTemplate d) ∧
    ∃ q, increments.analyze.result = .ok q ∧
      ∀ n, q.Calls n → increments.declarations.macros.get? n = none := by
  have hhomonyms : homonyms.analyze.result = .ok homonymsAnalyzed := by rfl
  have hid := (analyze_leaves_only_macro_calls_that_methods_answer _ _ _ hhomonyms).1 "id"
    homonymsAnalyzed_calls_id
  obtain ⟨q, hq⟩ : ∃ q, increments.analyze.result = .ok q := ⟨_, rfl⟩
  refine ⟨⟨hhomonyms, _, rfl, (hid _ rfl).2⟩, q, hq, ?_⟩
  refine (analyze_leaves_only_macro_calls_that_methods_answer _ _ _ hq).2 fun n hn => ?_
  obtain ⟨d, hd⟩ := Option.isSome_iff_exists.1 hn
  cases List.mem_singleton.1 (Table.mem_of_get? hd)
  rfl

/-- A macro call can survive analysis. -/
theorem analyze_accepts_a_macro_call :
    ¬ ∀ (p q : Program) (options : AnalysisOptions), (p.analyze options).result = .ok q →
      ∀ n, q.Calls n → p.declarations.macros.get? n = none := by
  intro h
  have hid := h homonyms homonymsAnalyzed {} (by rfl) "id" homonymsAnalyzed_calls_id
  cases hid

end Program

/-! ### Signatures of callees -/

/-- The types in the slots of the arguments are below those of the parameters, one for one. -/
def Method.Accepts (types : TypeTable) (m : Method) (args : List Expr) : Prop :=
  List.Forall₂ (fun p a => ∃ t, a.ty = some t ∧ Ty.isSubtype types p.ty t = .ok true)
    m.params args

/-- The slots of the program agree with the methods that the look-up finds for its calls: the
method accepts the arguments, and the slot of a call expression holds the type that it returns. -/
structure Program.CallsAgree (q : Program) (lookup : String → Option Method) : Prop where
  stmt : ∀ m ∈ q.methods, ∀ Γ span n args, (Γ, .call span n args) ∈ m.parts →
    ∃ callee, lookup n = some callee ∧ callee.Accepts q.declarations.types args
  expr : ∀ m ∈ q.methods, ∀ site ∈ m.sites, ∀ i n args, Expr.IsNode (.call i n args) site.2 →
    ∃ callee, lookup n = some callee ∧ callee.Accepts q.declarations.types args ∧
      i.ty = some callee.ret

/-- Arguments that fit the parameters have such types in their slots. -/
theorem Method.accepts_of_fits {m : Method} {args : List Expr}
    (hslots : ∀ a ∈ args, ∀ t, HasType ds Γ a t → a.ty = some t)
    (h : List.Forall₂ (fun p a => Fits ds Γ p.ty a) m.params args) : m.Accepts ds.types args := by
  have hflipped : List.Forall₂ (fun a (p : Param) =>
      ∃ t, a.ty = some t ∧ Ty.isSubtype ds.types p.ty t = .ok true) args m.params := by
    refine forall₂_imp_of_mem h.flip fun a ha p hfits => ?_
    obtain ⟨t, ht, hsub⟩ := hfits
    exact ⟨t, hslots a ha t ht, hsub⟩
  exact hflipped.flip

/-- The arguments of a call that has a type fit the parameters of the method that it goes to. -/
theorem HasType.callFits {i : Info} {n : String} {args : List Expr} {t : Ty}
    (h : HasType ds Γ (.call i n args) t) :
    ∃ m, ds.methods.get? n = some m ∧ m.ret = t ∧
      List.Forall₂ (fun p a => Fits ds Γ p.ty a) m.params args := by
  cases h with
  | @call _ _ m _ ts hm hargs hts =>
      have hfits : List.Forall₂ (fun a p => Fits ds Γ (Param.ty p) a) args m.params := by
        refine forall₂_transport hts.flip (hargs.flip.imp fun t a ha p hp => ?_)
        exact ⟨t, ha, hp⟩
      exact ⟨m, hm, rfl, hfits.flip⟩

namespace Program

variable {p q : Program}

/-- The slot of a node of an annotation holds the one type that the node has. -/
theorem IsAnnotationOf.ty_eq (h : q.IsAnnotationOf q) (hq : q.WellTyped) {m : Method}
    (hm : m ∈ q.methods) {site : Context × Expr} (hsite : site ∈ m.sites) {node : Expr}
    (hnode : Expr.IsNode node site.2) {t : Ty} (ht : HasType q.declarations site.1 node t) :
    node.ty = some t := by
  obtain ⟨u, hslot, hu⟩ := h.annotated m hm site hsite node hnode
  obtain rfl := hu.unique hq.wellFormed_declarations (hq.wellFormed_sites hm site hsite) ht
  exact hslot

/-- The calls of an annotation agree with the table of methods. -/
theorem IsAnnotationOf.callsAgree (h : q.IsAnnotationOf q) (hq : q.WellTyped) :
    q.CallsAgree q.declarations.methods.get? where
  stmt m hm Γ span n args hpart := by
    have hsites := Method.sites_subset_of_mem_parts hpart
    cases (hq.methodTyped hm).of_mem_parts hpart with
    | call hcall =>
        obtain ⟨callee, hcallee, hfits⟩ := hcall
        refine ⟨callee, hcallee, Method.accepts_of_fits (fun a ha t ht => ?_) hfits⟩
        have hsite : (Γ, a) ∈ m.sites := hsites (List.mem_map_of_mem ha)
        exact h.ty_eq hq hm hsite (.self a) ht
  expr m hm site hsite i n args hnode := by
    obtain ⟨t, hslot, ht⟩ := h.annotated m hm site hsite _ hnode
    obtain ⟨callee, hcallee, rfl, hfits⟩ := ht.callFits
    refine ⟨callee, hcallee, Method.accepts_of_fits (fun a ha t ht => ?_) hfits, hslot⟩
    have harg : Expr.IsNode a (.call i n args) := .child ha (.self a)
    exact h.ty_eq hq hm hsite (harg.trans hnode) ht

theorem find?_name_eq_some_iff {ms : List Method} (hnodup : (ms.map Method.name).Nodup)
    {n : String} {m : Method} : ms.find? (fun m => m.name == n) = some m ↔ m ∈ ms ∧ m.name = n := by
  constructor
  · intro h
    exact ⟨List.mem_of_find?_eq_some h, by simpa using List.find?_some h⟩
  · rintro ⟨hm, rfl⟩
    induction ms with
    | nil => cases hm
    | cons m' ms ih =>
        rw [List.map_cons, List.nodup_cons] at hnodup
        rcases List.mem_cons.1 hm with rfl | hm
        · simp
        · have hne : m'.name ≠ m.name := fun heq => hnodup.1 (heq ▸ List.mem_map_of_mem hm)
          simpa [List.find?_cons, hne] using ih hnodup.2 hm

/-- Where no method name is repeated, the first method of a name is the last one. -/
theorem method?_eq_get?_methods (hnodup : (q.methods.map Method.name).Nodup) (n : String) :
    q.method? n = q.declarations.methods.get? n := by
  have hreverse : (q.methods.reverse.map Method.name).Nodup := by
    rwa [List.map_reverse, List.nodup_reverse]
  ext m
  rw [method?, get?_methods, find?_name_eq_some_iff hnodup, find?_name_eq_some_iff hreverse,
    List.mem_reverse]

/-- The calls of an annotated program agree with the last method of the called name. They agree
with the first one as well where no method name is repeated. -/
theorem analyzed_calls_agree_with_last_methods (p q : Program) (options : ExpandOptions)
    (h : (p.analyze ⟨options, ⟨true⟩⟩).result = .ok q) :
    q.CallsAgree q.declarations.methods.get? ∧
      ((q.methods.map Method.name).Nodup → q.CallsAgree q.method?) := by
  obtain ⟨r, s, _, htyped, hs, rfl⟩ := analyze_eq_ok_iff.1 h
  have hagree := hs.self.callsAgree (hs.wellTyped htyped)
  refine ⟨hagree, fun hnodup => ?_⟩
  rwa [funext (method?_eq_get?_methods hnodup)]

/-- A method that is declared again with other types, and a call that fits the last one. -/
def redeclared : Program where
  path := "redeclared"
  decls := [
    .method { name := "f", ret := .string, params := [⟨"a", .string, {}⟩],
              body := [.ret {} (some (.var {} "a"))] },
    .method { name := "f", ret := .int, params := [⟨"a", .int, {}⟩],
              body := [.ret {} (some (.var {} "a"))] },
    .method { name := "main", ret := .int, params := [],
              body := [.call {} "f" [.const {} (.int 1)],
                .ret {} (some (.call {} "f" [.const {} (.int 1)]))] }]

/-- The program `redeclared` after analysis. -/
def redeclaredAnalyzed : Program where
  path := "redeclared"
  decls := [
    .method { name := "f", ret := .string, params := [⟨"a", .string, {}⟩],
              body := [.ret {} (some (.var { ty := some .string } "a"))] },
    .method { name := "f", ret := .int, params := [⟨"a", .int, {}⟩],
              body := [.ret {} (some (.var { ty := some .int } "a"))] },
    .method { name := "main", ret := .int, params := [],
              body := [.call {} "f" [.const { ty := some .int } (.int 1)],
                .ret {} (some (.call { ty := some .int } "f"
                  [.const { ty := some .int } (.int 1)]))] }]

/-- The calls of `f` agree with its last declaration. In `homonyms` no method name is repeated, and
the call of `id` agrees with the first method of that name. -/
theorem redeclared_and_homonyms_calls_agree :
    (redeclared.analyze.result = .ok redeclaredAnalyzed ∧
      redeclaredAnalyzed.CallsAgree redeclaredAnalyzed.declarations.methods.get?) ∧
    homonyms.analyze.result = .ok homonymsAnalyzed ∧
      homonymsAnalyzed.CallsAgree homonymsAnalyzed.method? := by
  have hredeclared : redeclared.analyze.result = .ok redeclaredAnalyzed := by rfl
  have hhomonyms : homonyms.analyze.result = .ok homonymsAnalyzed := by rfl
  exact ⟨⟨hredeclared, (analyzed_calls_agree_with_last_methods _ _ {} hredeclared).1⟩, hhomonyms,
    (analyzed_calls_agree_with_last_methods _ _ {} hhomonyms).2 (by decide)⟩

/-- The calls of an analyzed program can disagree with the first methods of the called names. -/
theorem analyzed_calls_can_disagree_with_first_methods :
    ¬ ∀ p q : Program, p.analyze.result = .ok q → q.CallsAgree q.method? := by
  intro h
  have hagree := h redeclared redeclaredAnalyzed (by rfl)
  -- The call that `main` returns has an integer in its slot, and the first `f` returns a string.
  obtain ⟨callee, hcallee, _, hslot⟩ := hagree.expr _ (.tail _ (.tail _ (.head _))) _
    (.tail _ (.head _)) { ty := some .int } "f" [.const { ty := some .int } (.int 1)] (.self _)
  cases hcallee
  cases hslot

end Program

end WhileStatics
