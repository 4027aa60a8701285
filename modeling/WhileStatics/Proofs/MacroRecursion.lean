import WhileStatics.Proofs.ExpansionFailures
import WhileStatics.Proofs.MacroCalls
import Mathlib.Logic.Relation
import Mathlib.Data.Finset.Card

/-!
# Recursive macros and the limit on nesting

The bodies of macros call other macros. An expression from which these calls
lead to a cycle expands with no limit, because every call in a body is reached
and takes one level of nesting. Without a cycle two levels for each macro are
enough: one for the body of a macro, and one because the operand of a unary
instance is expanded again one level deeper, together with the calls that
remained in it.
-/

namespace WhileStatics

variable {macros : Table MacroDecl} {e e' : Expr} {m n k : String}

/-! ### The calls between macros -/

/-- The body of the macro `m` calls the macro `k`. -/
def MacroCalls (macros : Table MacroDecl) (m k : String) : Prop :=
  ∃ d, macros.get? m = some d ∧ d.body.Calls k ∧ macros.contains k = true

/-- The calls in macro bodies lead from the macro to one that they lead back to. -/
def ReachesCycle (macros : Table MacroDecl) (m : String) : Prop :=
  ∃ k, Relation.ReflTransGen (MacroCalls macros) m k ∧ Relation.TransGen (MacroCalls macros) k k

namespace ReachesCycle

/-- A macro that leads to a cycle calls another one that does. -/
theorem exists_call (h : ReachesCycle macros m) :
    ∃ k, MacroCalls macros m k ∧ ReachesCycle macros k := by
  obtain ⟨c, hpath, hcycle⟩ := h
  rcases Relation.ReflTransGen.cases_head hpath with rfl | ⟨k, hk, hrest⟩
  · obtain ⟨k, hk, hback⟩ := Relation.TransGen.head'_iff.1 hcycle
    exact ⟨k, hk, m, hback, hcycle⟩
  · exact ⟨k, hk, c, hrest, hcycle⟩

theorem of_call (hmk : MacroCalls macros m k) (h : ReachesCycle macros k) :
    ReachesCycle macros m := by
  obtain ⟨c, hpath, hcycle⟩ := h
  exact ⟨c, hpath.head hmk, hcycle⟩

end ReachesCycle

/-- All macros that the expression calls are in the set. -/
def Expr.CallsWithin (macros : Table MacroDecl) (S : Finset String) (e : Expr) : Prop :=
  e.AllCalls fun call => macros.contains call.1 = true → call.1 ∈ S

theorem Expr.callsWithin_iff {S : Finset String} :
    e.CallsWithin macros S ↔ ∀ n, e.Calls n → macros.contains n = true → n ∈ S :=
  Expr.allCalls_name_iff (P := fun n => macros.contains n = true → n ∈ S)

/-- The bodies of the macros in the set call no others, and none of them leads back to itself. -/
structure IsAcyclic (macros : Table MacroDecl) (S : Finset String) : Prop where
  closed : ∀ ⦃m k⦄, m ∈ S → MacroCalls macros m k → k ∈ S
  acyclic : ∀ ⦃m⦄, m ∈ S → ¬ Relation.TransGen (MacroCalls macros) m m

namespace IsAcyclic

variable {S : Finset String} {d : MacroDecl}

theorem callsWithin_body (h : IsAcyclic macros S) (hn : n ∈ S) (hd : macros.get? n = some d) :
    d.body.CallsWithin macros S := by
  rw [Expr.callsWithin_iff]
  intro k hk hmacro
  exact h.closed hn ⟨d, hd, hk, hmacro⟩

/-- The macros that a macro of the set leads to are fewer than those of the set. -/
theorem exists_ssubset (h : IsAcyclic macros S) (hn : n ∈ S) (hd : macros.get? n = some d) :
    ∃ T ⊂ S, IsAcyclic macros T ∧ d.body.CallsWithin macros T := by
  classical
  refine ⟨S.filter (Relation.TransGen (MacroCalls macros) n), ?_, ⟨?_, ?_⟩, ?_⟩
  · refine Finset.filter_ssubset.2 ⟨n, hn, h.acyclic hn⟩
  · intro m k hm hmk
    rw [Finset.mem_filter] at hm ⊢
    exact ⟨h.closed hm.1 hmk, hm.2.tail hmk⟩
  · intro m hm
    exact h.acyclic (Finset.mem_filter.1 hm).1
  · rw [Expr.callsWithin_iff]
    intro k hk hmacro
    have hcall : MacroCalls macros n k := ⟨d, hd, hk, hmacro⟩
    exact Finset.mem_filter.2 ⟨h.closed hn hcall, .single hcall⟩

end IsAcyclic

/-- The macros from which no cycle is reached. -/
theorem exists_isAcyclic (macros : Table MacroDecl) :
    ∃ S, IsAcyclic macros S ∧ S.card ≤ macros.size ∧
      ∀ n, macros.contains n = true → ¬ ReachesCycle macros n → n ∈ S := by
  classical
  refine ⟨(macros.entries.map Prod.fst).toFinset.filter (¬ ReachesCycle macros ·),
    ⟨?_, ?_⟩, ?_, ?_⟩
  · intro m k hm hmk
    have hk : macros.contains k = true := by
      obtain ⟨_, _, _, hk⟩ := hmk
      exact hk
    rw [Finset.mem_filter] at hm ⊢
    exact ⟨List.mem_toFinset.2 (Table.mem_map_fst_of_contains hk),
      fun hcycle => hm.2 (hcycle.of_call hmk)⟩
  · intro m hm hcycle
    exact (Finset.mem_filter.1 hm).2 ⟨m, .refl, hcycle⟩
  · calc
      _ ≤ (macros.entries.map Prod.fst).toFinset.card := Finset.card_filter_le _ _
      _ ≤ (macros.entries.map Prod.fst).length := List.toFinset_card_le _
      _ = macros.size := List.length_map _
  · intro n hn hacyclic
    exact Finset.mem_filter.2
      ⟨List.mem_toFinset.2 (Table.mem_map_fst_of_contains hn), hacyclic⟩

namespace Expansion

variable {x : Expansion} {b : Nat} {scope : Scope} {S : Finset String}

/-! ### Cycles -/

/-- Where an expression is mapped, so is every node in it. -/
theorem exists_mapCalls_of_isNode {f : Info → String → List Expr → Logged Expr} {node : Expr}
    (hnode : Expr.IsNode node e) (h : (e.mapCalls f).result = .ok e') :
    ∃ node', (node.mapCalls f).result = .ok node' := by
  induction hnode generalizing e' with
  | self => exact ⟨e', h⟩
  | @child c e hc _ ih =>
      have hparts : ∃ cs, List.Forall₂ (fun c c' => (c.mapCalls f).result = .ok c')
          e.children cs := by
        rcases Expr.mapCalls_cases h with ⟨i, n, as, as', rfl, has, _⟩ | ⟨_, _, _, hchildren⟩
        · exact ⟨as', has⟩
        · exact ⟨e'.children, hchildren⟩
      obtain ⟨cs, hcs⟩ := hparts
      have hmapped : ∀ c ∈ e.children, ∃ c', (c.mapCalls f).result = .ok c' :=
        forall_mem_of_forall₂ hcs.flip fun c' _ c hc' => ⟨c', hc'⟩
      obtain ⟨c', hc'⟩ := hmapped c hc
      exact ih hc'

/-- A macro called in an expression that expands has a body that expands one level deeper. -/
theorem Expands.exists_body (h : x.Expands b e e') (hn : e.Calls n) {d : MacroDecl}
    (hd : x.macros.get? n = some d) : ∃ k body, b = k + 1 ∧ x.Expands k d.body body := by
  obtain ⟨i, as, hnode⟩ := hn
  obtain ⟨r, hr⟩ := exists_mapCalls_of_isNode hnode (expands_iff.1 h)
  rcases Expr.mapCalls_cases hr with ⟨_, _, _, as', ⟨⟩, _, hcall⟩ | ⟨hcallee, _⟩
  · cases callWithin_eq_ok_iff.1 hcall with
    | other hnone => simp [hnone] at hd
    | binary hd' _ hbody | unary hd' _ hbody _ | const hd' _ hbody
    | leftInPlace hd' _ hbody _ =>
        obtain rfl := Option.some.inj (hd'.symm.trans hd)
        exact ⟨_, _, rfl, hbody⟩
  · cases hcallee

/-- No room is enough for an expression that calls a macro from which a cycle is reached. -/
theorem not_expands_of_reachesCycle (hn : e.Calls n) (hcycle : ReachesCycle x.macros n) :
    ¬ x.Expands b e e' := by
  intro h
  induction b generalizing e e' n with
  | zero =>
      obtain ⟨k, ⟨d, hd, _⟩, _⟩ := hcycle.exists_call
      obtain ⟨_, _, hzero, _⟩ := h.exists_body hn hd
      omega
  | succ b ih =>
      obtain ⟨k, ⟨d, hd, hk, _⟩, hcycle'⟩ := hcycle.exists_call
      obtain ⟨b', body, hb, hbody⟩ := h.exists_body hn hd
      obtain rfl : b = b' := by omega
      exact ih hk hcycle' hbody

/-! ### Calls that results hold -/

/-- A result calls no other macros than a set that is closed under the calls in bodies. -/
theorem Expands.callsWithin (h : x.Expands b e e') (hS : IsAcyclic x.macros S)
    (he : e.CallsWithin x.macros S) : e'.CallsWithin x.macros S := by
  induction b using Nat.strongRecOn generalizing e e' with
  | ind b ih =>
      refine Expr.allCalls_of_mapCalls (fun i n _ as r hnode has hr => ?_) (expands_iff.1 h)
      change r.CallsWithin x.macros S
      have hmem : x.macros.contains n = true → n ∈ S :=
        Expr.callsWithin_iff.1 he n ⟨_, _, hnode⟩
      -- The parts of an expanded body call what the body may call.
      have hparts {k : Nat} {d : MacroDecl} {body : Expr} (hk : k < b)
          (hd : x.macros.get? n = some d) (hbody : x.Expands k d.body body) :
          body.CallsWithin x.macros S := by
        have hn : n ∈ S := hmem (Table.contains_of_get? hd)
        exact ih k hk hbody (hS.callsWithin_body hn hd)
      cases callWithin_eq_ok_iff.1 hr with
      | other hd =>
          exact Expr.allCalls_iff.2 ⟨by simp [Expr.callee?, Table.contains, hd], has⟩
      | @binary k d j op l r hd _ hbody =>
          have hbody' := hparts (Nat.lt_succ_self k) hd hbody
          rw [Expr.CallsWithin, Expr.allCalls_iff_of_callee?_eq_none rfl] at hbody' ⊢
          simp only [Expr.children, List.forall_mem_cons] at hbody' ⊢
          exact ⟨Expr.allCalls_subst has hbody'.1, Expr.allCalls_subst has hbody'.2.1, by simp⟩
      | @unary k d j op y y' hd _ hbody hy =>
          have hbody' := hparts (Nat.lt_succ_self k) hd hbody
          rw [Expr.CallsWithin, Expr.allCalls_iff_of_callee?_eq_none rfl] at hbody' ⊢
          simp only [Expr.children, List.forall_mem_singleton] at hbody' ⊢
          exact ih k (Nat.lt_succ_self k) hy (Expr.allCalls_subst has hbody')
      | const _ _ _ =>
          rw [Expr.CallsWithin, Expr.allCalls_iff_of_callee?_eq_none rfl]
          simp [Expr.children]
      | leftInPlace _ _ _ _ =>
          exact Expr.allCalls_iff.2 ⟨by simpa [Expr.callee?] using hmem, has⟩

/-! ### Room for two levels per macro -/

/-- The failure is another one than that instantiations nest too deep. -/
def IsNotLimit (f : Failure) : Prop := f.fault.kind ≠ .recursionLimit

theorem failsOnly_callWithin_succ {i : Info} {as : List Expr}
    (h : ∀ d, x.macros.get? n = some d →
      FailsOnly IsNotLimit (x.exprWithin scope b d.body).result ∧
        ∀ j op y, x.Expands b d.body (.unary j op y) →
          FailsOnly IsNotLimit
            (x.exprWithin scope b ((Bindings.ofArgs d.params as).subst y)).result) :
    FailsOnly IsNotLimit (x.callWithin scope (b + 1) i n as).result := by
  cases hd : x.macros.get? n with
  | none => simp [callWithin, hd]
  | some d =>
      simp only [callWithin, hd]
      refine failsOnly_replaceCall (by simp [IsNotLimit, Fault.kind]) (h d hd).1 ?_
      intro body hbody
      refine failsOnly_instantiate ?_
      rintro j op y rfl
      exact (h d hd).2 j op y (exprWithin_eq_ok_iff.1 hbody)

/-- An expanded expression can be expanded one level deeper if the macros that it still calls have
room for their bodies there. -/
theorem IsNormal.failsOnly_exprWithin (h : x.IsNormal (b + 2) e)
    (hbodies : ∀ n d, e.Calls n → x.macros.get? n = some d →
      FailsOnly IsNotLimit (x.exprWithin scope b d.body).result) :
    FailsOnly IsNotLimit (x.exprWithin scope (b + 1) e).result := by
  rw [exprWithin_eq]
  refine Expr.failsOnly_mapCalls fun i n as as' hnode _ => ?_
  refine failsOnly_callWithin_succ fun d hd => ⟨hbodies n d ⟨i, as, hnode⟩ hd, ?_⟩
  intro j op y hbody
  -- The call stayed, so its body has no unary form.
  cases h _ hnode (n, as.length) rfl with
  | other hnone => simp [hnone] at hd
  | @leftInPlace _ _ _ d' body' hd' _ hbody' hform =>
      obtain rfl := Option.some.inj (hd'.symm.trans hd)
      have hsame := Except.ok.inj ((hbody.mono (Nat.le_succ b)).symm.trans hbody')
      simp [← hsame, Expr.isTemplate] at hform

/-- A call whose arguments are expanded needs no more room than the bodies of the macros do. -/
theorem failsOnly_callWithin {i : Info} {as : List Expr} (hS : IsAcyclic x.macros S) (hn : n ∈ S)
    (has : ∀ a ∈ as, x.IsNormal (b + 2) a ∧ a.CallsWithin x.macros S)
    (hbody : ∀ m ∈ S, ∀ d, x.macros.get? m = some d → ∀ c, b ≤ c →
      FailsOnly IsNotLimit (x.exprWithin scope c d.body).result) :
    FailsOnly IsNotLimit (x.callWithin scope (b + 2) i n as).result := by
  refine failsOnly_callWithin_succ fun d hd => ⟨hbody n hn d hd (b + 1) (Nat.le_succ b), ?_⟩
  intro j op y hunary
  -- The operand is a part of the body or an argument, and expanded in both cases.
  have hnormal : x.IsNormal (b + 2) ((Bindings.ofArgs d.params as).subst y) := by
    apply Expr.allCalls_subst fun a ha => (has a ha).1
    exact (hunary.isNormal.child (by simp [Expr.children])).mono (Nat.le_succ _)
  have hcalls : ((Bindings.ofArgs d.params as).subst y).CallsWithin x.macros S := by
    apply Expr.allCalls_subst fun a ha => (has a ha).2
    have hy := hunary.callsWithin hS (hS.callsWithin_body hn hd)
    exact (Expr.allCalls_iff.1 hy).2 y (by simp [Expr.children])
  apply hnormal.failsOnly_exprWithin
  intro m d' hm hd'
  have hmS : m ∈ S := Expr.callsWithin_iff.1 hcalls m hm (Table.contains_of_get? hd')
  exact hbody m hmS d' hd' b (Nat.le_refl b)

/-- Two levels for each macro are enough for expressions that call no others. -/
theorem failsOnly_exprWithin (hS : IsAcyclic x.macros S) (he : e.CallsWithin x.macros S)
    (hb : 2 * S.card ≤ b) : FailsOnly IsNotLimit (x.exprWithin scope b e).result := by
  induction S using Finset.strongInduction generalizing e b with
  | H S ih =>
      rw [exprWithin_eq]
      refine Expr.failsOnly_mapCalls fun i n as as' hnode has => ?_
      cases hd : x.macros.get? n with
      | none => cases b <;> simp [callWithin, hd]
      | some d =>
          have hn : n ∈ S :=
            Expr.callsWithin_iff.1 he n ⟨i, as, hnode⟩ (Table.contains_of_get? hd)
          have hpos := Finset.card_pos.2 ⟨n, hn⟩
          obtain ⟨b, rfl⟩ : ∃ c, b = c + 2 := ⟨b - 2, by omega⟩
          apply failsOnly_callWithin hS hn
          · refine forall_mem_of_forall₂ has fun a ha a' ha' => ?_
            rw [← exprWithin_eq, exprWithin_eq_ok_iff] at ha'
            have hcalls := (Expr.allCalls_iff.1 (he.of_isNode hnode)).2 a ha
            exact ⟨ha'.isNormal, ha'.callsWithin hS hcalls⟩
          · -- What a macro leads to is a smaller set, which the hypothesis of induction is about.
            intro m hm d' hd' c hc
            obtain ⟨T, hTS, hT, hcalls⟩ := hS.exists_ssubset hm hd'
            have hcard := Finset.card_lt_card hTS
            exact ih T hTS hT hcalls (by omega)

end Expansion

namespace Program

theorem expand_ne_ok_of_reachesCycle {p : Program} (hn : p.Calls n)
    (hcycle : ReachesCycle p.declarations.macros n) (options : ExpandOptions) (q : Program) :
    (p.expand options).result ≠ .ok q := by
  intro h
  obtain ⟨m, hm, site, hsite, hcall⟩ := hn
  have hpointwise := (expand_eq_ok_iff.1 h).symm
  have hall := hpointwise.forall_sites
    (P := fun _ e => ∃ e', (p.expansion options).Expands options.depthLimit e e')
    fun _ _ e' e he => ⟨e', he.1⟩
  obtain ⟨e', he'⟩ := hall m hm site hsite
  exact Expansion.not_expands_of_reachesCycle hcall hcycle he'

theorem isNotLimit_of_expand {p : Program} {options : ExpandOptions}
    (h : ∀ n, p.Calls n → ¬ ReachesCycle p.declarations.macros n)
    (hlimit : 2 * p.declarations.macros.size ≤ options.depthLimit) :
    FailsOnly Expansion.IsNotLimit (p.expand options).result := by
  obtain ⟨S, hS, hcard, hmem⟩ := exists_isAcyclic p.declarations.macros
  apply failsOnly_expand
  · intro m _ part _ f hf
    simp [Expansion.IsNotLimit, hf.kind_eq]
  · intro m hm site hsite scope
    apply Expansion.failsOnly_exprWithin hS
    · rw [Expr.callsWithin_iff]
      intro n hn hmacro
      exact hmem n hmacro (h n ⟨m, hm, site, hsite, hn⟩)
    · calc
        2 * S.card ≤ 2 * p.declarations.macros.size := by omega
        _ ≤ options.depthLimit - 0 := hlimit

/-- A program that calls a macro from which a cycle is reached expands with no limit. If it calls
none, then twice the number of macros is a limit that is never exceeded. The macro that counts under
a name is the last one. -/
theorem recursion_limit_separates_recursive_macros (p : Program) :
    p.LastWins ∧
    ((∃ n, p.Calls n ∧ ReachesCycle p.declarations.macros n) →
      ∀ options q, (p.expand options).result ≠ .ok q) ∧
    ((∀ n, p.Calls n → ¬ ReachesCycle p.declarations.macros n) →
      ∀ options : ExpandOptions, 2 * p.declarations.macros.size ≤ options.depthLimit →
        ∀ f, (p.expand options).result = .error f → f.fault.kind ≠ .recursionLimit) := by
  refine ⟨p.lastWins, ?_, ?_⟩
  · rintro ⟨n, hn, hcycle⟩ options q
    exact expand_ne_ok_of_reachesCycle hn hcycle options q
  · intro h options hlimit f hf
    exact isNotLimit_of_expand h hlimit f hf

/-- Two macros that call each other. -/
def pingPong : Program where
  path := "ping"
  decls := [
    .macroDecl { name := "ping", params := [], body := .unary {} .neg (.call {} "pong" []) },
    .macroDecl { name := "pong", params := [], body := .call {} "ping" [] },
    .method { name := "main", ret := .void, params := [],
              body := [.print {} (.call {} "ping" [])] }]

/-- A macro with a unary body, applied to a call that stays in place. No body calls a macro. -/
def negated : Program where
  path := "negated"
  decls := [
    .macroDecl { name := "minus", params := [⟨"a", {}⟩], body := .unary {} .neg (.var {} "a") },
    .macroDecl { name := "limit", params := [], body := .var {} "max" },
    .method { name := "main", ret := .void, params := [⟨"max", .int, {}⟩],
              body := [.print {} (.call {} "minus" [.call {} "limit" []])] }]

/-- The macros of `pingPong` are too deep for every limit. Those of `negated` do not call each
other, yet one level is too little for them, and four are enough. -/
theorem pingPong_never_expands :
    (∀ options q, (pingPong.expand options).result ≠ .ok q) ∧
    (negated.expand ⟨1, true⟩).result = .error ⟨.recursionLimit "limit" 1, {}, "negated"⟩ ∧
    ∀ f, (negated.expand ⟨4, true⟩).result = .error f → f.fault.kind ≠ .recursionLimit := by
  have hping : MacroCalls pingPong.declarations.macros "ping" "pong" :=
    ⟨_, rfl, ⟨{}, [], .child (.head _) (.self _)⟩, rfl⟩
  have hpong : MacroCalls pingPong.declarations.macros "pong" "ping" :=
    ⟨_, rfl, ⟨{}, [], .self _⟩, rfl⟩
  have hnone : ∀ m k, ¬ MacroCalls negated.declarations.macros m k := by
    rintro m k ⟨d, hd, ⟨i, as, hnode⟩, _⟩
    have hmem : (m, d) ∈ negated.declarations.macros.entries := Table.mem_of_get? hd
    rcases List.mem_pair.1 hmem with hlimit | hminus
    · cases hlimit
      cases hnode with
      | child hc _ => cases hc
    · cases hminus
      cases hnode with
      | child hc hnode =>
          obtain rfl := List.mem_singleton.1 hc
          cases hnode with
          | child hc _ => cases hc
  refine ⟨?_, by rfl, ?_⟩
  · apply (recursion_limit_separates_recursive_macros pingPong).2.1
    have hcall : pingPong.Calls "ping" := ⟨_, .head _, _, .head _, {}, [], .self _⟩
    exact ⟨"ping", hcall, "ping", .refl, .tail (.single hping) hpong⟩
  · apply (recursion_limit_separates_recursive_macros negated).2.2
    · intro n _ hcycle
      obtain ⟨k, hk, _⟩ := hcycle.exists_call
      exact hnone n k hk
    · decide

end Program

end WhileStatics
