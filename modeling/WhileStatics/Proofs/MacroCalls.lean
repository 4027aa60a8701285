import WhileStatics.Proofs.ExpandedPrograms

/-!
# Calls that remain after expansion

Expansion goes into every slot of every statement, into the arguments of calls,
and into bodies before arguments are put into them. A macro call is still there
afterwards only if there is nothing to put in its place: the body of the macro,
expanded by itself, is no binary, unary or constant expression.
-/

namespace WhileStatics

/-- The expression calls the name somewhere. -/
def Expr.Calls (e : Expr) (n : String) : Prop :=
  ∃ i as, IsNode (.call i n as) e

theorem Expr.allCalls_name_iff {P : String → Prop} {e : Expr} :
    e.AllCalls (fun call => P call.1) ↔ ∀ n, e.Calls n → P n := by
  constructor
  · rintro h n ⟨i, as, hnode⟩
    exact h _ hnode (n, as.length) rfl
  · intro h node hnode call hcall
    cases node with
    | call i n as =>
        obtain rfl : (n, as.length) = call := Option.some.inj hcall
        exact h n ⟨i, as, hnode⟩
    | _ => cases hcall

/-- Some expression in a method body of the program calls the name. -/
def Program.Calls (p : Program) (n : String) : Prop :=
  ∃ m ∈ p.methods, ∃ site ∈ m.sites, site.2.Calls n

namespace Expansion

variable {x : Expansion} {b : Nat}

/-- The body of the macro expands to an expression that no instance can be made of. -/
def HasNoTemplate (x : Expansion) (d : MacroDecl) : Prop :=
  ∃ body, (∀ scope, (x.expr scope d.body).result = .ok body) ∧ body.isTemplate = false

theorem Expands.expr_eq {e e' : Expr} (h : x.Expands b e e') (hb : b ≤ x.options.depthLimit)
    (scope : Scope) : (x.expr scope e).result = .ok e' := by
  rw [expr, exprAt, exprWithin_eq_ok_iff]
  exact h.mono hb

/-- An expression that calls no macro is expanded. -/
theorem isNormal_of_no_macro_calls {e : Expr}
    (h : ∀ n, e.Calls n → x.macros.get? n = none) : x.IsNormal b e :=
  fun node hnode call hcall =>
    .other (Expr.allCalls_name_iff (P := fun n => x.macros.get? n = none).2 h node hnode call hcall)

/-- A call of a macro stays in place only for want of a template. -/
theorem Keeps.hasNoTemplate {call : String × Nat} (h : x.Keeps b call)
    (hb : b ≤ x.options.depthLimit) {d : MacroDecl} (hd : x.macros.get? call.1 = some d) :
    x.HasNoTemplate d := by
  cases h with
  | other hnone => simp [hnone] at hd
  | @leftInPlace k n count d' body hd' _ hbody hform =>
      obtain rfl : d' = d := Option.some.inj (hd'.symm.trans hd)
      exact ⟨body, hbody.expr_eq (by omega), hform⟩

theorem ensures_isNormal (x : Expansion) :
    Change.Ensures x.change fun _ e => x.IsNormal x.options.depthLimit e :=
  fun _ _ _ _ h => h.1.isNormal

end Expansion

namespace Program

variable {p q : Program} {options : ExpandOptions}

theorem hasNoTemplate_of_calls (h : (p.expand options).result = .ok q) {n : String}
    (hn : q.Calls n) {d : MacroDecl} (hd : p.declarations.macros.get? n = some d) :
    (p.expansion options).HasNoTemplate d := by
  obtain ⟨m, hm, site, hsite, i, as, hnode⟩ := hn
  have hnormal := (expand_eq_ok_iff.1 h).forall_sites (Expansion.ensures_isNormal _) m hm site hsite
  have hkeeps := hnormal _ hnode (n, as.length) rfl
  exact hkeeps.hasNoTemplate (Nat.le_refl _) hd

/-- The macros that a method body of an expanded program still calls have bodies that expand to
something else than a binary, unary or constant expression; where no macro has such a body, no
macro is called any more. -/
theorem expand_leaves_only_calls_without_template (p q : Program) (options : ExpandOptions)
    (h : (p.expand options).result = .ok q) :
    (∀ n, q.Calls n → ∀ d, p.declarations.macros.get? n = some d →
      (p.expansion options).HasNoTemplate d) ∧
    ((∀ n d, p.declarations.macros.get? n = some d → ∀ scope body,
        ((p.expansion options).expr scope d.body).result = .ok body → body.isTemplate = true) →
      ∀ n, q.Calls n → p.declarations.macros.get? n = none) := by
  refine ⟨fun n hn d hd => hasNoTemplate_of_calls h hn hd, ?_⟩
  intro htemplates n hn
  by_contra hmacro
  obtain ⟨d, hd⟩ := Option.ne_none_iff_exists'.1 hmacro
  obtain ⟨body, hbody, hform⟩ := hasNoTemplate_of_calls h hn hd
  rw [htemplates n d hd .empty body (hbody .empty)] at hform
  cases hform

/-- A macro with a template, called in an argument of its own call. -/
def increments : Program where
  path := "increments"
  decls := [
    .macroDecl { name := "inc", params := [⟨"a", {}⟩],
                 body := .binary {} .add (.var {} "a") (.const {} (.int 1)) },
    .method { name := "main", ret := .void, params := [],
              body := [.print {} (.call {} "inc" [.call {} "inc" [.const {} (.int 3)]])] }]

/-- The program `increments` after expansion. -/
def incrementsExpanded : Program where
  path := "increments"
  decls := increments.decls.take 1 ++ [
    .method { name := "main", ret := .void, params := [],
              body := [.print {} (.binary {} .add
                (.binary {} .add (.const {} (.int 3)) (.const {} (.int 1)))
                (.const {} (.int 1)))] }]

/-- The call of `first` in `readings` remains for want of a template. In `increments` all macros
have one, so no call remains. -/
theorem readingsExpanded_calls_first :
    (readingsExpanded.Calls "first" ∧ ∃ d, readings.declarations.macros.get? "first" = some d ∧
      (readings.expansion ⟨2, false⟩).HasNoTemplate d) ∧
    ∀ n, incrementsExpanded.Calls n → increments.declarations.macros.get? n = none := by
  have hreadings : (readings.expand ⟨2, false⟩).result = .ok readingsExpanded := by rfl
  have hcalls : readingsExpanded.Calls "first" :=
    ⟨_, .head _, _, .tail _ (.head _), {}, [.var {} "xs"], .child (.head _) (.self _)⟩
  have hfirst := (expand_leaves_only_calls_without_template _ _ _ hreadings).1 "first" hcalls _ rfl
  have hincrements : (increments.expand {}).result = .ok incrementsExpanded := by rfl
  refine ⟨⟨hcalls, _, rfl, hfirst⟩,
    (expand_leaves_only_calls_without_template _ _ _ hincrements).2 ?_⟩
  intro n d hd scope body hbody
  have hinc : (n, d) ∈ increments.declarations.macros.entries := Table.mem_of_get? hd
  cases List.mem_singleton.1 hinc
  cases hbody
  rfl

end Program

end WhileStatics
