import WhileStatics.Expansion.Instance
import WhileStatics.Proofs.Outcomes

/-!
# What an expression expands to

The scope decides only which events are told, so an expression expands to the
same result in every scope. `Expands` is that result inside a number of
instantiations that may still nest, and `Replaces` says what can come in the
place of a call whose arguments are expanded. More room for instantiations never
changes a result that there was room for.
-/

namespace WhileStatics

namespace Expr

variable {f g : Info → String → List Expr → Logged Expr}

/-! ### Calls in lists -/

theorem mapCallsList_eq_ok_iff {es es' : List Expr} :
    (mapCallsList f es).result = .ok es' ↔
      List.Forall₂ (fun e e' => (e.mapCalls f).result = .ok e') es es' := by
  induction es generalizing es' with
  | nil => simp [mapCallsList, eq_comm]
  | cons e es ih =>
      simp only [mapCallsList, Logged.result_bind, bind_eq_ok_iff, Logged.result_pure,
        Except.ok.injEq, List.forall₂_cons_left_iff, ih]
      constructor
      · rintro ⟨e', he, es', hes, rfl⟩
        exact ⟨e', es', he, hes, rfl⟩
      · rintro ⟨e', es', he, hes, rfl⟩
        exact ⟨e', he, es', hes, rfl⟩

theorem mapCallsFields_eq_ok_iff {fs fs' : List (String × Expr)} :
    (mapCallsFields f fs).result = .ok fs' ↔
      List.Forall₂ (fun a b => a.1 = b.1 ∧ (a.2.mapCalls f).result = .ok b.2) fs fs' := by
  induction fs generalizing fs' with
  | nil => simp [mapCallsFields, eq_comm]
  | cons a fs ih =>
      obtain ⟨n, e⟩ := a
      simp only [mapCallsFields, Logged.result_bind, bind_eq_ok_iff, Logged.result_pure,
        Except.ok.injEq, List.forall₂_cons_left_iff, ih]
      constructor
      · rintro ⟨e', he, fs', hfs, rfl⟩
        exact ⟨(n, e'), fs', ⟨rfl, he⟩, hfs, rfl⟩
      · rintro ⟨⟨_, e'⟩, fs', ⟨rfl, he⟩, hfs, rfl⟩
        exact ⟨e', he, fs', hfs, rfl⟩

/-- Whatever replaces more calls by the same expressions yields the same result. -/
theorem mapCalls_mono (h : ∀ i n as r, (f i n as).result = .ok r → (g i n as).result = .ok r)
    {e e' : Expr} (he : (e.mapCalls f).result = .ok e') : (e.mapCalls g).result = .ok e' := by
  induction e generalizing e' with
  | binary i op l r ihl ihr =>
      simp only [mapCalls, Logged.result_bind, bind_eq_ok_iff, Logged.result_pure,
        Except.ok.injEq] at he ⊢
      obtain ⟨l', hl, r', hr, rfl⟩ := he
      exact ⟨l', ihl hl, r', ihr hr, rfl⟩
  | unary i op x ih =>
      simp only [mapCalls, Logged.result_bind, bind_eq_ok_iff, Logged.result_pure,
        Except.ok.injEq] at he ⊢
      obtain ⟨x', hx, rfl⟩ := he
      exact ⟨x', ih hx, rfl⟩
  | const i v => exact he
  | var i n => exact he
  | index i s p ihs ihp =>
      simp only [mapCalls, Logged.result_bind, bind_eq_ok_iff, Logged.result_pure,
        Except.ok.injEq] at he ⊢
      obtain ⟨s', hs, p', hp, rfl⟩ := he
      exact ⟨s', ihs hs, p', ihp hp, rfl⟩
  | call i n as ih =>
      simp only [mapCalls, Logged.result_bind, bind_eq_ok_iff, mapCallsList_eq_ok_iff] at he ⊢
      obtain ⟨as', has, hr⟩ := he
      exact ⟨as', forall₂_imp_of_mem has fun a ha _ => ih a ha, h _ _ _ _ hr⟩
  | generate i v c ihv ihc =>
      simp only [mapCalls, Logged.result_bind, bind_eq_ok_iff, Logged.result_pure,
        Except.ok.injEq] at he ⊢
      obtain ⟨v', hv, c', hc, rfl⟩ := he
      exact ⟨v', ihv hv, c', ihc hc, rfl⟩
  | array i es ih =>
      simp only [mapCalls, Logged.result_bind, bind_eq_ok_iff, mapCallsList_eq_ok_iff,
        Logged.result_pure, Except.ok.injEq] at he ⊢
      obtain ⟨es', hes, rfl⟩ := he
      exact ⟨es', forall₂_imp_of_mem hes fun e he _ => ih e he, rfl⟩
  | access i s n ih =>
      simp only [mapCalls, Logged.result_bind, bind_eq_ok_iff, Logged.result_pure,
        Except.ok.injEq] at he ⊢
      obtain ⟨s', hs, rfl⟩ := he
      exact ⟨s', ih hs, rfl⟩
  | record i fs ih =>
      simp only [mapCalls, Logged.result_bind, bind_eq_ok_iff, mapCallsFields_eq_ok_iff,
        Logged.result_pure, Except.ok.injEq] at he ⊢
      obtain ⟨fs', hfs, rfl⟩ := he
      exact ⟨fs', forall₂_imp_of_mem hfs fun a ha _ h => ⟨h.1, ih a ha h.2⟩, rfl⟩

end Expr

/-- Puts its argument in the place of a bare parameter. -/
def Bindings.subst (bindings : Bindings) : Expr → Expr
  | .var i n => (bindings.lookup n).getD (.var i n)
  | e => e

@[simp] theorem Bindings.result_apply (bindings : Bindings) (scope : Scope) (callee : String)
    (call : Span) (e : Expr) :
    (bindings.apply scope callee call e).result = .ok (bindings.subst e) := by
  cases e with
  | var i n =>
      cases hn : bindings.lookup n with
      | some arg => simp [Bindings.apply, Bindings.subst, hn]
      | none =>
          by_cases hscope : scope.contains n = true <;>
            simp [Bindings.apply, Bindings.subst, hn, hscope, Except.map]
  | _ => rfl

/-- The forms of expanded bodies that a call is replaced by an instance of. -/
def Expr.isTemplate : Expr → Bool
  | .binary .. | .unary .. | .const .. => true
  | _ => false

namespace Expansion

variable {x : Expansion} {scope scope' : Scope} {b c : Nat} {e e' : Expr}

/-! ### Results in one scope and another -/

/-- What comes in the place of a call when at most `budget` instantiations may nest. -/
def callWithin (x : Expansion) (scope : Scope) :
    (budget : Nat) → Info → String → List Expr → Logged Expr
  | 0, info, name, args =>
      match x.macros.get? name with
      | none => pure (.call info name args)
      | some _ => Logged.fail (.recursionLimit name x.options.depthLimit) info.span x.path
  | budget + 1, info, name, args =>
      match x.macros.get? name with
      | none => pure (.call info name args)
      | some d =>
          x.replaceCall (x.exprWithin scope budget) scope
            (x.options.depthLimit - (budget + 1)) d info name args

theorem exprWithin_eq (x : Expansion) (scope : Scope) (b : Nat) :
    x.exprWithin scope b = Expr.mapCalls (x.callWithin scope b) := by
  cases b <;> rfl

theorem callWithin_of_get?_eq_none {n : String} (h : x.macros.get? n = none) (scope : Scope)
    (budget : Nat) (i : Info) (as : List Expr) :
    x.callWithin scope budget i n as = pure (.call i n as) := by
  cases budget <;> rw [callWithin, h]

/-- The expression expands to the other one with room for `budget` nested instantiations. -/
def Expands (x : Expansion) (budget : Nat) (e e' : Expr) : Prop :=
  (x.exprWithin .empty budget e).result = .ok e'

/-- Argument counts are not checked, or there is one argument for each parameter. -/
def AcceptsCount (x : Expansion) (d : MacroDecl) (count : Nat) : Prop :=
  x.options.validateArity = true → d.params.length = count

/-- What comes in the place of a call whose arguments are expanded. -/
inductive Replaces (x : Expansion) (i : Info) (n : String) (as : List Expr) : Nat → Expr → Prop
  | other {k} (h : x.macros.get? n = none) : Replaces x i n as k (.call i n as)
  | binary {k d j op l r} (hd : x.macros.get? n = some d)
      (hcount : x.AcceptsCount d as.length)
      (hbody : x.Expands k d.body (.binary j op l r)) :
      Replaces x i n as (k + 1) (.binary i op ((Bindings.ofArgs d.params as).subst l)
        ((Bindings.ofArgs d.params as).subst r))
  | unary {k d j op y y'} (hd : x.macros.get? n = some d)
      (hcount : x.AcceptsCount d as.length)
      (hbody : x.Expands k d.body (.unary j op y))
      (hy : x.Expands k ((Bindings.ofArgs d.params as).subst y) y') :
      Replaces x i n as (k + 1) (.unary i op y')
  | const {k d j v} (hd : x.macros.get? n = some d)
      (hcount : x.AcceptsCount d as.length)
      (hbody : x.Expands k d.body (.const j v)) : Replaces x i n as (k + 1) (.const i v)
  | leftInPlace {k d body} (hd : x.macros.get? n = some d)
      (hcount : x.AcceptsCount d as.length)
      (hbody : x.Expands k d.body body) (hform : body.isTemplate = false) :
      Replaces x i n as (k + 1) (.call i n as)

theorem replaces_of_instantiate {d : MacroDecl} {i : Info} {n : String} {as : List Expr}
    {body r : Expr}
    (hscope : ∀ e e', (x.exprWithin scope b e).result = .ok e' ↔ x.Expands b e e')
    (hd : x.macros.get? n = some d)
    (hcount : x.AcceptsCount d as.length)
    (hbody : x.Expands b d.body body)
    (h : (instantiate (x.exprWithin scope b) scope n (.ofArgs d.params as) i as body).result =
      .ok r) : x.Replaces i n as (b + 1) r := by
  cases body with
  | binary j op lhs rhs =>
      simp only [instantiate, Logged.result_bind, Bindings.result_apply, Except.bind,
        Logged.result_pure, Except.ok.injEq] at h
      subst h
      exact .binary hd hcount hbody
  | unary j op y =>
      simp only [instantiate, Logged.result_bind, bind_eq_ok_iff, Bindings.result_apply,
        Except.ok.injEq, exists_eq_left', hscope, Logged.result_pure] at h
      obtain ⟨y', hy, rfl⟩ := h
      exact .unary hd hcount hbody hy
  | const j v =>
      simp only [instantiate, Logged.result_pure, Except.ok.injEq] at h
      subst h
      exact .const hd hcount hbody
  | _ =>
      simp only [instantiate, Logged.result_bind, Logged.result_tell, Except.bind,
        Logged.result_pure, Except.ok.injEq] at h
      subst h
      exact .leftInPlace hd hcount hbody rfl

theorem replaceCall_eq_ok_iff {expandBody : Expr → Logged Expr} {depth : Nat} {d : MacroDecl}
    {i : Info} {n : String} {as : List Expr} {r : Expr} :
    (x.replaceCall expandBody scope depth d i n as).result = .ok r ↔
      x.AcceptsCount d as.length ∧
        ∃ body, (expandBody d.body).result = .ok body ∧
          (instantiate expandBody scope n (.ofArgs d.params as) i as body).result = .ok r := by
  by_cases hcount : x.AcceptsCount d as.length
  · have hguard : (x.options.validateArity && d.params.length != as.length) = false := by
      simpa [AcceptsCount] using hcount
    simp [replaceCall, hguard, hcount]
  · have hguard : (x.options.validateArity && d.params.length != as.length) = true := by
      simpa [AcceptsCount] using hcount
    simp [replaceCall, hguard, hcount]

theorem result_instantiate_of_isTemplate_eq_false {expandBody : Expr → Logged Expr} {n : String}
    {bindings : Bindings} {i : Info} {as : List Expr} {body : Expr}
    (h : body.isTemplate = false) :
    (instantiate expandBody scope n bindings i as body).result = .ok (.call i n as) := by
  cases body with
  | binary | unary | const => simp [Expr.isTemplate] at h
  | _ => rfl

/-- What replaces a call, once expansion does not depend on the scope with less room. -/
theorem callWithin_eq_ok_iff_of_scope (i : Info) (n : String) (as : List Expr) (r : Expr)
    (hscope : ∀ k < b, ∀ e e', (x.exprWithin scope k e).result = .ok e' ↔ x.Expands k e e') :
    (x.callWithin scope b i n as).result = .ok r ↔ x.Replaces i n as b r := by
  cases hd : x.macros.get? n with
  | none =>
      rw [callWithin_of_get?_eq_none hd, Logged.result_pure, Except.ok.injEq]
      constructor
      · rintro rfl
        exact .other hd
      · intro h
        cases h with
        | other _ => rfl
        | _ hd' => simp [hd] at hd'
  | some d =>
      cases b with
      | zero =>
          constructor
          · intro h
            simp [callWithin, hd] at h
          · intro h
            cases h with
            | other hd' => simp [hd] at hd'
      | succ b =>
          have hroom := hscope b (Nat.lt_succ_self b)
          simp only [callWithin, hd, replaceCall_eq_ok_iff, hroom]
          constructor
          · rintro ⟨hcount, body, hbody, h⟩
            exact replaces_of_instantiate hroom hd hcount hbody h
          · intro h
            cases h with
            | other hd' => simp [hd] at hd'
            | binary hd' hcount hbody =>
                obtain rfl := Option.some.inj (hd.symm.trans hd')
                exact ⟨hcount, _, hbody, by simp [instantiate, Except.map, Except.bind]⟩
            | unary hd' hcount hbody hy =>
                obtain rfl := Option.some.inj (hd.symm.trans hd')
                refine ⟨hcount, _, hbody, ?_⟩
                simp [instantiate, Except.map, Except.bind, (hroom _ _).2 hy]
            | const hd' hcount hbody =>
                obtain rfl := Option.some.inj (hd.symm.trans hd')
                exact ⟨hcount, _, hbody, rfl⟩
            | leftInPlace hd' hcount hbody hform =>
                obtain rfl := Option.some.inj (hd.symm.trans hd')
                exact ⟨hcount, _, hbody, result_instantiate_of_isTemplate_eq_false hform⟩

theorem callWithin_eq_ok_iff {i : Info} {n : String} {as : List Expr} {r : Expr} :
    (x.callWithin .empty b i n as).result = .ok r ↔ x.Replaces i n as b r :=
  callWithin_eq_ok_iff_of_scope i n as r fun _ _ _ _ => Iff.rfl

/-- An expression expands to the same result in every scope. -/
theorem exprWithin_eq_ok_iff :
    (x.exprWithin scope b e).result = .ok e' ↔ x.Expands b e e' := by
  induction b using Nat.strongRecOn generalizing e e' with
  | ind b ih =>
      have hcall i n as r :=
        callWithin_eq_ok_iff_of_scope (x := x) i n as r fun k hk e e' => ih k hk
      rw [Expands, exprWithin_eq, exprWithin_eq]
      constructor
      · exact Expr.mapCalls_mono fun i n as r h => callWithin_eq_ok_iff.2 ((hcall i n as r).1 h)
      · exact Expr.mapCalls_mono fun i n as r h => (hcall i n as r).2 (callWithin_eq_ok_iff.1 h)

theorem expands_iff :
    x.Expands b e e' ↔ (e.mapCalls (x.callWithin .empty b)).result = .ok e' := by
  rw [Expands, exprWithin_eq]

/-! ### More room -/

/-- A result that there was room for stays the result when there is more room. -/
theorem Expands.mono (h : x.Expands b e e') (hle : b ≤ c) : x.Expands c e e' := by
  induction b generalizing c e e' with
  | zero =>
      rw [expands_iff] at h ⊢
      refine Expr.mapCalls_mono (fun i n as r h => ?_) h
      rw [callWithin_eq_ok_iff] at h ⊢
      cases h with
      | other hd => exact .other hd
  | succ b ih =>
      obtain ⟨c, rfl⟩ : ∃ k, c = k + 1 := ⟨c - 1, by omega⟩
      have hle' : b ≤ c := by omega
      rw [expands_iff] at h ⊢
      refine Expr.mapCalls_mono (fun i n as r h => ?_) h
      rw [callWithin_eq_ok_iff] at h ⊢
      cases h with
      | other hd => exact .other hd
      | binary hd hcount hbody => exact .binary hd hcount (ih hbody hle')
      | unary hd hcount hbody hy => exact .unary hd hcount (ih hbody hle') (ih hy hle')
      | const hd hcount hbody => exact .const hd hcount (ih hbody hle')
      | leftInPlace hd hcount hbody hform => exact .leftInPlace hd hcount (ih hbody hle') hform

end Expansion

end WhileStatics
