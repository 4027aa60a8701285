import WhileStatics.Proofs.MacroRecursion

/-!
# Instances of macros

A call of a macro that expands becomes its expanded body, in which the immediate
operands that are bare parameters are replaced by the expanded arguments, all at
once and nowhere else. The operand of a unary body is expanded once more after
that, which does not change it. But it takes room one level deeper: an argument
that still holds macro calls may fail there with the limit, although it expanded
at the depth of the call. This is the only failure that an instance adds to those
of the arguments and of the body.
-/

namespace WhileStatics

/-- At the last position with a parameter of the name and with an argument stands the argument. -/
def BindsLast (params : List Ident) (args : List Expr) (v : String) (a : Expr) : Prop :=
  ∃ before p after, params.zip args = before ++ (p, a) :: after ∧ p.name = v ∧
    ∀ pair ∈ after, pair.1.name ≠ v

theorem BindsLast.mem {params : List Ident} {args : List Expr} {v : String} {a : Expr}
    (h : BindsLast params args v a) : a ∈ args := by
  obtain ⟨before, p, after, hzip, _⟩ := h
  have hpair : (p, a) ∈ params.zip args := by simp [hzip]
  exact (List.of_mem_zip hpair).2

/-- The operand of a unary operator at the root. -/
def Expr.operand? : Expr → Option Expr
  | .unary _ _ y => some y
  | _ => none

namespace Bindings

/-- The body as an instance for a call: operands of binary and unary bodies are replaced, constants
stay as they are, and for any other body the call itself stays. -/
def fill (bindings : Bindings) (i : Info) (n : String) (as : List Expr) : Expr → Expr
  | .binary _ op l r => .binary i op (bindings.subst l) (bindings.subst r)
  | .unary _ op y => .unary i op (bindings.subst y)
  | .const _ v => .const i v
  | _ => .call i n as

theorem info_fill (bindings : Bindings) (i : Info) (n : String) (as : List Expr) (body : Expr) :
    (bindings.fill i n as body).info = i := by
  cases body <;> rfl

theorem lookup_ofArgs_eq_some_iff {params : List Ident} {as : List Expr} {v : String} {a : Expr} :
    (ofArgs params as).lookup v = some a ↔ BindsLast params as v a := by
  rw [ofArgs, List.zip_map_left, List.lookup_eq_some_iff]
  constructor
  · rintro ⟨later, earlier, h, hlater⟩
    rw [List.reverse_eq_iff, List.reverse_append, List.reverse_cons, List.append_assoc,
      List.singleton_append] at h
    obtain ⟨before, rest, hzip, -, hrest⟩ := List.map_eq_append_iff.1 h
    obtain ⟨⟨p, _⟩, after, rfl, ⟨rfl, rfl⟩, hafter⟩ := List.map_eq_cons_iff.1 hrest
    refine ⟨before, p, after, hzip, rfl, fun pair hpair => ?_⟩
    have hmem : pair.map Ident.name id ∈ later :=
      List.mem_reverse.1 (hafter ▸ List.mem_map_of_mem hpair)
    exact (bne_iff_ne.1 (hlater _ hmem)).symm
  · rintro ⟨before, p, after, hzip, rfl, hafter⟩
    refine ⟨(after.map (Prod.map Ident.name id)).reverse,
      (before.map (Prod.map Ident.name id)).reverse, by simp [hzip], fun entry hentry => ?_⟩
    obtain ⟨pair, hpair, rfl⟩ := List.mem_map.1 (List.mem_reverse.1 hentry)
    exact bne_iff_ne.2 (hafter pair hpair).symm

end Bindings

namespace Expansion

variable {x : Expansion} {scope : Scope} {b c depth : Nat} {i : Info} {n : String}
  {args as : List Expr} {d : MacroDecl} {e e' r body : Expr}

theorem exprAt_eq_ok_iff :
    (x.exprAt scope depth e).result = .ok e' ↔ x.Expands (x.options.depthLimit - depth) e e' :=
  exprWithin_eq_ok_iff

theorem expands_call_iff :
    x.Expands b (.call i n args) r ↔
      ∃ as, List.Forall₂ (fun a a' => x.Expands b a a') args as ∧ x.Replaces i n as b r := by
  simp only [expands_iff, Expr.mapCalls, Logged.result_bind, bind_eq_ok_iff,
    Expr.mapCallsList_eq_ok_iff, callWithin_eq_ok_iff]

/-- The room that there was makes no difference to the result. -/
theorem Expands.deterministic {r' : Expr} (h : x.Expands b e r) (h' : x.Expands c e r') :
    r = r' :=
  Except.ok.inj ((h.mono (Nat.le_max_left b c)).symm.trans (h'.mono (Nat.le_max_right b c)))

/-! ### Instances of expanded bodies -/

theorem result_instantiate_unary (expandBody : Expr → Logged Expr) (bindings : Bindings)
    (j : Info) (op : UnaryOp) (y : Expr) :
    (instantiate expandBody scope n bindings i as (.unary j op y)).result =
      (expandBody (bindings.subst y)).result.bind fun y' => .ok (.unary i op y') := by
  rw [instantiate, Logged.result_bind, Bindings.result_apply]
  exact Logged.result_bind _ _

theorem result_instantiate_of_operand?_eq_none (expandBody : Expr → Logged Expr)
    (bindings : Bindings) (h : body.operand? = none) :
    (instantiate expandBody scope n bindings i as body).result =
      .ok (bindings.fill i n as body) := by
  cases body with
  | unary j op y => cases h
  | binary j op l r => simp [instantiate, Bindings.fill, Except.bind, Except.map]
  | _ => rfl

theorem result_replaceCall {expandBody : Expr → Logged Expr}
    (hcount : x.AcceptsCount d as.length) :
    (x.replaceCall expandBody scope depth d i n as).result =
      (expandBody d.body).result.bind fun body =>
        (instantiate expandBody scope n (.ofArgs d.params as) i as body).result := by
  have hguard : (x.options.validateArity && d.params.length != as.length) = false := by
    simpa [AcceptsCount] using hcount
  simp [replaceCall, hguard, Except.bind]

/-- A call of a macro is replaced by the instance of its body, expanded one level deeper. -/
theorem replaces_iff_of_get? (hd : x.macros.get? n = some d) :
    x.Replaces i n as b r ↔
      ∃ k body, b = k + 1 ∧ x.AcceptsCount d as.length ∧ x.Expands k d.body body ∧
        (instantiate (x.exprWithin .empty k) .empty n (.ofArgs d.params as) i as body).result =
          .ok r := by
  cases b with
  | zero =>
      constructor
      · intro h
        cases h with
        | other hnone => simp [hnone] at hd
      · rintro ⟨k, _, hk, _⟩
        omega
  | succ k =>
      rw [← callWithin_eq_ok_iff]
      simp [callWithin, hd, replaceCall_eq_ok_iff, Expands]

/-! ### The operand of a unary instance -/

/-- The operand after substitution comes from the body or from the arguments, all of which are
expanded with room for one instantiation more. -/
theorem Expands.isNormal_subst {y : Expr} (hbody : x.Expands b d.body body)
    (hy : y ∈ body.operand?) (has : ∀ a ∈ as, x.IsNormal (b + 1) a) :
    x.IsNormal (b + 1) ((Bindings.ofArgs d.params as).subst y) := by
  cases body with
  | unary j op _ =>
      obtain rfl := Option.some.inj hy
      have hoperand := hbody.isNormal.child (List.mem_singleton_self _)
      exact Expr.allCalls_subst has (hoperand.mono (Nat.le_succ b))
  | _ => cases hy

/-- An instance fills the body, and the operand of a unary one expands to itself. -/
theorem Expands.eq_fill_of_instantiate (hbody : x.Expands b d.body body)
    (has : ∀ a ∈ as, x.IsNormal (b + 1) a)
    (h : (instantiate (x.exprWithin .empty b) .empty n (.ofArgs d.params as) i as body).result =
      .ok r) :
    r = (Bindings.ofArgs d.params as).fill i n as body ∧
      ∀ y ∈ body.operand?, x.Expands b ((Bindings.ofArgs d.params as).subst y)
        ((Bindings.ofArgs d.params as).subst y) := by
  cases body with
  | unary j op y =>
      rw [result_instantiate_unary, bind_eq_ok_iff] at h
      obtain ⟨y', hy, hr⟩ := h
      -- With more room the operand expands to itself, and room makes no difference.
      obtain rfl : y' = _ := Expands.deterministic hy (hbody.isNormal_subst rfl has).expands
      refine ⟨(Except.ok.inj hr).symm, ?_⟩
      rintro _ ⟨⟩
      exact hy
  | _ =>
      rw [result_instantiate_of_operand?_eq_none _ _ rfl] at h
      exact ⟨(Except.ok.inj h).symm, nofun⟩

/-- What a call of a macro becomes inside `depth` instantiations: its arguments expand at that
depth and its body one level deeper, and the parameters among the immediate operands of the body
are replaced all at once. -/
structure IsInstance (x : Expansion) (scope : Scope) (depth : Nat) (d : MacroDecl) (i : Info)
    (n : String) (args as : List Expr) (body : Expr) (bindings : Bindings) (r : Expr) : Prop where
  args_expand : List.Forall₂ (fun a a' => (x.exprAt scope depth a).result = .ok a') args as
  body_expands : (x.exprAt scope (depth + 1) d.body).result = .ok body
  binds : ∀ v a, bindings.lookup v = some a ↔ BindsLast d.params as v a
  info_eq : r.info = i
  result_eq : r = bindings.fill i n as body
  /-- Expanding the operand of a unary instance once more does not change it. -/
  operand_expands : ∀ y ∈ body.operand?,
    (x.exprAt scope (depth + 1) (bindings.subst y)).result = .ok (bindings.subst y)

/-- A call of a macro that expands becomes one parallel and shallow substitution in the expanded
body of the macro. -/
theorem expanded_call_is_shallow_instance (x : Expansion) (scope : Scope) (depth : Nat)
    (d : MacroDecl) (i : Info) (n : String) (args : List Expr) (r : Expr)
    (hd : x.macros.get? n = some d)
    (h : (x.exprAt scope depth (.call i n args)).result = .ok r) :
    ∃ as body bindings, x.IsInstance scope depth d i n args as body bindings r := by
  rw [exprAt_eq_ok_iff, expands_call_iff] at h
  obtain ⟨as, hargs, hreplaces⟩ := h
  obtain ⟨k, body, hk, _, hbody, hinstance⟩ := (replaces_iff_of_get? hd).1 hreplaces
  have hdeeper : x.options.depthLimit - (depth + 1) = k := by omega
  have has : ∀ a ∈ as, x.IsNormal (k + 1) a :=
    forall_mem_of_forall₂ hargs fun _ _ _ ha => hk ▸ ha.isNormal
  obtain ⟨hr, hoperand⟩ := hbody.eq_fill_of_instantiate has hinstance
  refine ⟨as, body, .ofArgs d.params as, ?_, ?_, ?_, ?_, hr, ?_⟩
  · exact hargs.imp fun _ _ ha => exprAt_eq_ok_iff.2 ha
  · exact exprAt_eq_ok_iff.2 (hdeeper ▸ hbody)
  · exact fun v a => Bindings.lookup_ofArgs_eq_some_iff
  · rw [hr, Bindings.info_fill]
  · exact fun y hy => exprAt_eq_ok_iff.2 (hdeeper ▸ hoperand y hy)

/-- Macros of which `first` has no template, and of which `negateLast` repeats its parameter. -/
def signs (limit : Nat) : Expansion where
  path := "signs"
  macros := ((Table.empty.insert "first"
      { name := "first", params := [⟨"a", {}⟩],
        body := .index {} (.var {} "a") (.const {} (.int 0)) }).insert "negate"
      { name := "negate", params := [⟨"a", {}⟩], body := .unary {} .neg (.var {} "a") }).insert
    "negateLast"
      { name := "negateLast", params := [⟨"a", {}⟩, ⟨"a", {}⟩],
        body := .unary {} .neg (.var {} "a") }
  options := { depthLimit := limit }

/-- The last argument goes to the repeated parameter, with the macro call that stays in it. -/
theorem negateLast_call_is_shallow_instance :
    ((signs 2).exprAt .empty 0 (.call {} "negateLast"
        [.const {} (.int 1), .call {} "first" [.var {} "xs"]])).result =
      .ok (.unary {} .neg (.call {} "first" [.var {} "xs"])) ∧
    ∃ d as body bindings, (signs 2).IsInstance .empty 0 d {} "negateLast"
      [.const {} (.int 1), .call {} "first" [.var {} "xs"]] as body bindings
      (.unary {} .neg (.call {} "first" [.var {} "xs"])) := by
  have h : ((signs 2).exprAt .empty 0 (.call {} "negateLast"
      [.const {} (.int 1), .call {} "first" [.var {} "xs"]])).result =
      .ok (.unary {} .neg (.call {} "first" [.var {} "xs"])) := by rfl
  exact ⟨h, _, expanded_call_is_shallow_instance _ _ _ _ _ _ _ _ rfl h⟩

/-! ### Failures for want of room -/

/-- Instantiations nest deeper than the limit allows. -/
def ExceedsLimit (x : Expansion) (f : Failure) : Prop :=
  ∃ m, f.fault = .recursionLimit m x.options.depthLimit

/-- What expands with some room fails with less room only for the limit. -/
theorem Expands.exceedsLimit (h : x.Expands c e e') (hle : b ≤ c) :
    FailsOnly x.ExceedsLimit (x.exprWithin scope b e).result := by
  induction b generalizing c e e' with
  | zero =>
      rw [exprWithin_eq]
      refine Expr.failsOnly_mapCalls fun i n as as' _ _ => ?_
      rw [callWithin]
      split
      · exact failsOnly_ok _
      · exact failsOnly_error_iff.2 ⟨n, rfl⟩
  | succ b ih =>
      obtain ⟨c, rfl⟩ : ∃ k, c = k + 1 := ⟨c - 1, by omega⟩
      have hle' : b ≤ c := by omega
      rw [exprWithin_eq]
      refine Expr.failsOnly_mapCalls fun i n as as' hnode has => ?_
      cases hd : x.macros.get? n with
      | none => simp [callWithin, hd]
      | some d =>
          -- With more room the same arguments, the same body and its operand expand.
          obtain ⟨r, hr⟩ := exists_mapCalls_of_isNode hnode (expands_iff.1 h)
          obtain ⟨as'', has'', hreplaces⟩ := expands_call_iff.1 (expands_iff.2 hr)
          obtain rfl : as'' = as' := by
            have hunique : Relator.RightUnique (x.Expands (c + 1)) := fun _ _ _ =>
              Expands.deterministic
            refine hunique.forall₂ has'' (has.imp fun a a' ha => ?_)
            rw [← exprWithin_eq, exprWithin_eq_ok_iff] at ha
            exact ha.mono hle
          obtain ⟨k, body, hk, hcount, hbody, hinstance⟩ := (replaces_iff_of_get? hd).1 hreplaces
          obtain rfl : c = k := by omega
          simp only [callWithin, hd, result_replaceCall hcount]
          refine (ih hbody hle').bind fun body' hbody' => ?_
          obtain rfl := (exprWithin_eq_ok_iff.1 hbody').deterministic hbody
          refine failsOnly_instantiate ?_
          rintro j op y rfl
          rw [result_instantiate_unary, bind_eq_ok_iff] at hinstance
          obtain ⟨y', hy, _⟩ := hinstance
          exact ih hy hle'

/-- Of the operands of a unary body only an argument can fail when it is expanded once more. -/
theorem Expands.subst_eq_error_iff {y : Expr} {f : Failure} (hbody : x.Expands b d.body body)
    (hy : y ∈ body.operand?) :
    (x.exprWithin scope b ((Bindings.ofArgs d.params as).subst y)).result = .error f ↔
      ∃ j v a, y = .var j v ∧ BindsLast d.params as v a ∧
        (x.exprWithin scope b a).result = .error f := by
  have hoperand : (x.exprWithin scope b y).result = .ok y := by
    cases body with
    | unary j op _ =>
        obtain rfl := Option.some.inj hy
        exact exprWithin_eq_ok_iff.2 (hbody.isNormal.child (List.mem_singleton_self _)).expands
    | _ => cases hy
  cases y with
  | var j v =>
      simp only [← Bindings.lookup_ofArgs_eq_some_iff, Bindings.subst]
      cases hv : (Bindings.ofArgs d.params as).lookup v <;> simp [hoperand, hv]
  | _ => simp [Bindings.subst, hoperand]

theorem result_exprAt_call (hd : x.macros.get? n = some d)
    (hdepth : depth < x.options.depthLimit) (hcount : x.AcceptsCount d args.length)
    (hargs : List.Forall₂ (fun a a' => (x.exprAt scope depth a).result = .ok a') args as)
    (hbody : (x.exprAt scope (depth + 1) d.body).result = .ok body) :
    (x.exprAt scope depth (.call i n args)).result =
      (instantiate (x.exprAt scope (depth + 1)) scope n (.ofArgs d.params as) i as
        body).result := by
  obtain ⟨k, hk⟩ : ∃ k, x.options.depthLimit - depth = k + 1 :=
    ⟨x.options.depthLimit - depth - 1, by omega⟩
  have hdeeper : x.exprAt scope (depth + 1) = x.exprWithin scope k := by
    funext e
    rw [exprAt, show x.options.depthLimit - (depth + 1) = k by omega]
  rw [hargs.length_eq] at hcount
  simp only [exprAt, hk, exprWithin_eq] at hargs
  rw [hdeeper] at hbody ⊢
  rw [exprAt, hk, exprWithin_eq, Expr.mapCalls, Logged.result_bind,
    Expr.mapCallsList_eq_ok_iff.2 hargs]
  simp only [Except.bind, callWithin, hd, result_replaceCall hcount, hbody]

/-- Where the arguments of a call and the body of its macro expand, there is one thing left to fail:
the operand of a unary body, if it is a parameter and its argument does not expand one level deeper.
Then the failure is that of the limit, and the argument still calls a macro. -/
theorem instance_fails_only_for_room_of_operand (x : Expansion) (scope : Scope) (depth : Nat)
    (d : MacroDecl) (i : Info) (n : String) (args as : List Expr) (body : Expr)
    (hd : x.macros.get? n = some d) (hdepth : depth < x.options.depthLimit)
    (hcount : x.options.validateArity = false ∨ d.params.length = args.length)
    (hargs : List.Forall₂ (fun a a' => (x.exprAt scope depth a).result = .ok a') args as)
    (hbody : (x.exprAt scope (depth + 1) d.body).result = .ok body) :
    (∀ f, (x.exprAt scope depth (.call i n args)).result = .error f ↔
      ∃ j v a, body.operand? = some (.var j v) ∧ BindsLast d.params as v a ∧
        (x.exprAt scope (depth + 1) a).result = .error f) ∧
    (∀ f, (x.exprAt scope depth (.call i n args)).result = .error f → x.ExceedsLimit f) ∧
    ((∀ a ∈ as, ∀ m, a.Calls m → x.macros.get? m = none) →
      ∃ r, (x.exprAt scope depth (.call i n args)).result = .ok r) := by
  have haccepts : x.AcceptsCount d args.length := by
    rcases hcount with hoff | hcount
    · simp [AcceptsCount, hoff]
    · exact fun _ => hcount
  have hfails f : (x.exprAt scope depth (.call i n args)).result = .error f ↔
      ∃ j v a, body.operand? = some (.var j v) ∧ BindsLast d.params as v a ∧
        (x.exprAt scope (depth + 1) a).result = .error f := by
    rw [result_exprAt_call hd hdepth haccepts hargs hbody]
    cases hoperand : body.operand? with
    | none => simp [result_instantiate_of_operand?_eq_none _ _ hoperand]
    | some y =>
        have herror : (x.exprAt scope (depth + 1) ((Bindings.ofArgs d.params as).subst y)).result =
            .error f ↔ ∃ j v a, y = .var j v ∧ BindsLast d.params as v a ∧
              (x.exprAt scope (depth + 1) a).result = .error f :=
          (exprAt_eq_ok_iff.1 hbody).subst_eq_error_iff hoperand
        cases body with
        | unary j op _ =>
            obtain rfl := Option.some.inj hoperand
            rw [result_instantiate_unary, bind_eq_error_iff]
            simpa using herror
        | _ => cases hoperand
  refine ⟨hfails, fun f hf => ?_, fun hcalls => ?_⟩
  · obtain ⟨_, _, a, _, hbinds, herror⟩ := (hfails f).1 hf
    have hnormal : x.IsNormal (x.options.depthLimit - depth) a :=
      forall_mem_of_forall₂ hargs (fun _ _ _ ha => (exprAt_eq_ok_iff.1 ha).isNormal) a hbinds.mem
    exact hnormal.expands.exceedsLimit (by omega) f herror
  · cases hr : (x.exprAt scope depth (.call i n args)).result with
    | ok r => exact ⟨r, rfl⟩
    | error f =>
        obtain ⟨_, _, a, _, hbinds, herror⟩ := (hfails f).1 hr
        have hok : (x.exprAt scope (depth + 1) a).result = .ok a :=
          exprAt_eq_ok_iff.2 (isNormal_of_no_macro_calls (hcalls a hbinds.mem)).expands
        cases hok.symm.trans herror

/-- With room for one instantiation both the argument and the body expand, and yet the call fails
in the argument. -/
theorem negate_call_exceeds_limit_in_argument :
    ((signs 1).exprAt .empty 0 (.call {} "negate" [.call {} "first" [.var {} "xs"]])).result =
      .error ⟨.recursionLimit "first" 1, {}, "signs"⟩ ∧
    ∃ a, BindsLast [⟨"a", {}⟩] [.call {} "first" [.var {} "xs"]] "a" a ∧
      ((signs 1).exprAt .empty 1 a).result = .error ⟨.recursionLimit "first" 1, {}, "signs"⟩ := by
  have h : ((signs 1).exprAt .empty 0 (.call {} "negate"
      [.call {} "first" [.var {} "xs"]])).result =
      .error ⟨.recursionLimit "first" 1, {}, "signs"⟩ := by rfl
  obtain ⟨hfails, _⟩ := instance_fails_only_for_room_of_operand (signs 1) .empty 0 _ {} "negate"
    [.call {} "first" [.var {} "xs"]] [.call {} "first" [.var {} "xs"]]
    (.unary {} .neg (.var {} "a")) rfl (by decide) (.inr rfl) (.cons rfl .nil) rfl
  obtain ⟨_, _, a, ⟨⟩, hbinds, herror⟩ := (hfails _).1 h
  exact ⟨h, a, hbinds, herror⟩

/-- A call whose arguments and whose body expand need not expand. -/
theorem call_with_expanding_parts_can_fail :
    ¬ ∀ (x : Expansion) (scope : Scope) (depth : Nat) (d : MacroDecl) (i : Info) (n : String)
      (args as : List Expr) (body : Expr), x.macros.get? n = some d →
      depth < x.options.depthLimit →
      (x.options.validateArity = false ∨ d.params.length = args.length) →
      List.Forall₂ (fun a a' => (x.exprAt scope depth a).result = .ok a') args as →
      (x.exprAt scope (depth + 1) d.body).result = .ok body →
      ∃ r, (x.exprAt scope depth (.call i n args)).result = .ok r := by
  intro h
  obtain ⟨r, hr⟩ := h (signs 1) .empty 0 _ {} "negate" [.call {} "first" [.var {} "xs"]]
    [.call {} "first" [.var {} "xs"]] (.unary {} .neg (.var {} "a")) rfl (by decide) (.inr rfl)
    (.cons rfl .nil) rfl
  cases hr

end Expansion
end WhileStatics
