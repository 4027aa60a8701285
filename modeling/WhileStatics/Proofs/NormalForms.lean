import WhileStatics.Proofs.Expanding
import WhileStatics.Proofs.Sites
import WhileStatics.Proofs.Tables

/-!
# Expanded expressions

An expression is expanded when all calls in it stay in place. Whether a call
stays depends on its name and on the number of its arguments, not on what they
are, so this is a property of the nodes of the expression that neither its spans
nor its slots have a part in. Expansion yields expanded expressions, although
its results mix arguments, operands of bodies that were expanded further inside
and calls that stayed, and it leaves expanded expressions as they are.
-/

namespace WhileStatics

/-- The name that is called and the number of arguments, if the root is a call. -/
def Expr.callee? : Expr → Option (String × Nat)
  | .call _ n as => some (n, as.length)
  | _ => none

namespace Expr

variable {f : Info → String → List Expr → Logged Expr} {C : String × Nat → Prop} {e e' : Expr}

/-- All calls in the expression have the property, which may look at the name and at the number of
arguments. -/
def AllCalls (C : String × Nat → Prop) (e : Expr) : Prop :=
  ∀ node, IsNode node e → ∀ call ∈ node.callee?, C call

theorem allCalls_iff :
    e.AllCalls C ↔ (∀ call ∈ e.callee?, C call) ∧ ∀ c ∈ e.children, c.AllCalls C :=
  forall_isNode_iff

theorem allCalls_iff_of_callee?_eq_none (h : e.callee? = none) :
    e.AllCalls C ↔ ∀ c ∈ e.children, c.AllCalls C := by
  rw [allCalls_iff, h]
  simp

theorem AllCalls.of_isNode {node : Expr} (h : e.AllCalls C) (hnode : IsNode node e) :
    node.AllCalls C :=
  fun inner hinner => h inner (hinner.trans hnode)

/-- What replaces a call is given the mapped arguments; any other expression keeps its form, and
its parts are mapped one by one. -/
theorem mapCalls_cases (h : (e.mapCalls f).result = .ok e') :
    (∃ i n as as', e = .call i n as ∧
      List.Forall₂ (fun a a' => (a.mapCalls f).result = .ok a') as as' ∧
      (f i n as').result = .ok e') ∨
    e.callee? = none ∧ e'.callee? = none ∧ e'.info = e.info ∧
      List.Forall₂ (fun c c' => (c.mapCalls f).result = .ok c') e.children e'.children := by
  cases e with
  | call i n as =>
      simp only [mapCalls, Logged.result_bind, bind_eq_ok_iff, mapCallsList_eq_ok_iff] at h
      obtain ⟨as', has, hr⟩ := h
      exact .inl ⟨i, n, as, as', rfl, has, hr⟩
  | const i v =>
      obtain rfl := Except.ok.inj h
      exact .inr ⟨rfl, rfl, rfl, .nil⟩
  | var i n =>
      obtain rfl := Except.ok.inj h
      exact .inr ⟨rfl, rfl, rfl, .nil⟩
  | unary i op y =>
      simp only [mapCalls, Logged.result_bind, bind_eq_ok_iff, Logged.result_pure,
        Except.ok.injEq] at h
      obtain ⟨y', hy, rfl⟩ := h
      exact .inr ⟨rfl, rfl, rfl, .cons hy .nil⟩
  | access i s n =>
      simp only [mapCalls, Logged.result_bind, bind_eq_ok_iff, Logged.result_pure,
        Except.ok.injEq] at h
      obtain ⟨s', hs, rfl⟩ := h
      exact .inr ⟨rfl, rfl, rfl, .cons hs .nil⟩
  | array i es =>
      simp only [mapCalls, Logged.result_bind, bind_eq_ok_iff, Logged.result_pure,
        Except.ok.injEq, mapCallsList_eq_ok_iff] at h
      obtain ⟨es', hes, rfl⟩ := h
      exact .inr ⟨rfl, rfl, rfl, hes⟩
  | record i fs =>
      simp only [mapCalls, Logged.result_bind, bind_eq_ok_iff, Logged.result_pure,
        Except.ok.injEq, mapCallsFields_eq_ok_iff] at h
      obtain ⟨fs', hfs, rfl⟩ := h
      refine .inr ⟨rfl, rfl, rfl, ?_⟩
      rw [children, children, List.forall₂_map_left_iff, List.forall₂_map_right_iff]
      exact hfs.imp fun _ _ h => h.2
  | binary | index | generate =>
      simp only [mapCalls, Logged.result_bind, bind_eq_ok_iff, Logged.result_pure,
        Except.ok.injEq] at h
      obtain ⟨l', hl, r', hr, rfl⟩ := h
      exact .inr ⟨rfl, rfl, rfl, .cons hl (.cons hr .nil)⟩

/-- If the nodes of whatever replaces a call have a property, and so has what takes the place of any
other node, then the nodes of the result have it. -/
theorem forall_isNode_of_mapCalls {P : Expr → Prop}
    (hf : ∀ i n as as' r, IsNode (.call i n as) e → (∀ a ∈ as', ∀ node, IsNode node a → P node) →
      (f i n as').result = .ok r → ∀ node, IsNode node r → P node)
    (hother : ∀ node node', IsNode node e → node'.callee? = none → node'.info = node.info →
      P node')
    (h : (e.mapCalls f).result = .ok e') : ∀ node, IsNode node e' → P node := by
  induction e using children_induction generalizing e' with
  | step e ih =>
      have hparts : ∀ c ∈ e.children, ∀ c', (c.mapCalls f).result = .ok c' →
          ∀ node, IsNode node c' → P node := by
        intro c hc c' hc'
        refine ih c hc (fun i n as as' r hnode => ?_) (fun node node' hnode => ?_) hc'
        · exact hf i n as as' r (.child hc hnode)
        · exact hother node node' (.child hc hnode)
      rcases mapCalls_cases h with ⟨i, n, as, as', rfl, has, hr⟩ | ⟨_, hcallee, hinfo, hchildren⟩
      · exact hf i n as as' e' (.self _) (forall_mem_of_forall₂ has hparts) hr
      · rw [forall_isNode_iff]
        exact ⟨hother e e' (.self e) hcallee hinfo, forall_mem_of_forall₂ hchildren hparts⟩

/-- If the calls in whatever replaces a call have a property, then so have those in the result. -/
theorem allCalls_of_mapCalls
    (hf : ∀ i n as as' r, IsNode (.call i n as) e → (∀ a ∈ as', a.AllCalls C) →
      (f i n as').result = .ok r → r.AllCalls C)
    (h : (e.mapCalls f).result = .ok e') : e'.AllCalls C := by
  refine forall_isNode_of_mapCalls hf ?_ h
  intro node node' _ hcallee _
  simp [hcallee]

/-- The nodes of an operand after substitution are its own or those of an argument. -/
theorem forall_isNode_subst {P : Expr → Prop} {ps : List Ident} {as : List Expr}
    (has : ∀ a ∈ as, ∀ node, IsNode node a → P node) (he : ∀ node, IsNode node e → P node) :
    ∀ node, IsNode node ((Bindings.ofArgs ps as).subst e) → P node := by
  cases e with
  | var i n =>
      rw [Bindings.subst]
      cases hn : (Bindings.ofArgs ps as).lookup n with
      | none => exact he
      | some a =>
          have hmem := mem_of_lookup hn
          rw [Bindings.ofArgs, List.mem_reverse] at hmem
          exact has a (List.of_mem_zip hmem).2
  | _ => exact he

theorem allCalls_subst {ps : List Ident} {as : List Expr} (has : ∀ a ∈ as, a.AllCalls C)
    (he : e.AllCalls C) : ((Bindings.ofArgs ps as).subst e).AllCalls C :=
  forall_isNode_subst has he

end Expr

namespace Expansion

variable {x : Expansion} {b c : Nat} {e e' : Expr}

/-- Calls with this many arguments stay in place when at most `budget` instantiations may nest. -/
inductive Keeps (x : Expansion) : (budget : Nat) → String × Nat → Prop
  | other {k n count} (h : x.macros.get? n = none) : Keeps x k (n, count)
  | leftInPlace {k n count d body} (hd : x.macros.get? n = some d)
      (hcount : x.AcceptsCount d count) (hbody : x.Expands k d.body body)
      (hform : body.isTemplate = false) : Keeps x (k + 1) (n, count)

theorem replaces_call {i : Info} {n : String} {as : List Expr} :
    x.Replaces i n as b (.call i n as) ↔ x.Keeps b (n, as.length) := by
  constructor
  · intro h
    cases h with
    | other hd => exact .other hd
    | leftInPlace hd hcount hbody hform => exact .leftInPlace hd hcount hbody hform
  · intro h
    cases h with
    | other hd => exact .other hd
    | leftInPlace hd hcount hbody hform => exact .leftInPlace hd hcount hbody hform

theorem Keeps.mono {call : String × Nat} (h : x.Keeps b call) (hle : b ≤ c) : x.Keeps c call := by
  cases h with
  | other hd => exact .other hd
  | leftInPlace hd hcount hbody hform =>
      obtain ⟨k, rfl⟩ : ∃ k, c = k + 1 := ⟨c - 1, by omega⟩
      exact .leftInPlace hd hcount (hbody.mono (by omega)) hform

/-- All calls in the expression stay in place. -/
def IsNormal (x : Expansion) (budget : Nat) (e : Expr) : Prop :=
  ∀ node, Expr.IsNode node e → ∀ call ∈ node.callee?, x.Keeps budget call

theorem isNormal_iff :
    x.IsNormal b e ↔ (∀ call ∈ e.callee?, x.Keeps b call) ∧ ∀ c ∈ e.children, x.IsNormal b c :=
  Expr.allCalls_iff

theorem isNormal_iff_of_callee?_eq_none (h : e.callee? = none) :
    x.IsNormal b e ↔ ∀ c ∈ e.children, x.IsNormal b c :=
  Expr.allCalls_iff_of_callee?_eq_none h

theorem IsNormal.mono (h : x.IsNormal b e) (hle : b ≤ c) : x.IsNormal c e :=
  fun node hnode call hcall => (h node hnode call hcall).mono hle

/-! ### Results are normal -/

/-- What an expression expands to is normal. -/
theorem Expands.isNormal (h : x.Expands b e e') : x.IsNormal b e' := by
  induction b using Nat.strongRecOn generalizing e e' with
  | ind b ih =>
      refine Expr.allCalls_of_mapCalls (fun i n _ as r _ has hr => ?_) (expands_iff.1 h)
      change x.IsNormal b r
      cases callWithin_eq_ok_iff.1 hr with
      | other hd => exact isNormal_iff.2 ⟨by simpa [Expr.callee?] using .other hd, has⟩
      | @binary k d j op l r hd _ hbody =>
          -- The operands come from a body that was expanded with less room.
          have hnormal := (ih k (Nat.lt_succ_self k) hbody).mono (Nat.le_succ k)
          rw [isNormal_iff_of_callee?_eq_none rfl] at hnormal ⊢
          simp only [Expr.children, List.forall_mem_cons] at hnormal ⊢
          exact ⟨Expr.allCalls_subst has hnormal.1, Expr.allCalls_subst has hnormal.2.1, by simp⟩
      | @unary k d j op y y' hd _ _ hy =>
          have hnormal := (ih k (Nat.lt_succ_self k) hy).mono (Nat.le_succ k)
          rw [isNormal_iff_of_callee?_eq_none rfl]
          simpa [Expr.children] using hnormal
      | const _ _ _ =>
          rw [isNormal_iff_of_callee?_eq_none rfl]
          simp [Expr.children]
      | leftInPlace hd hcount hbody hform =>
          exact isNormal_iff.2
            ⟨by simpa [Expr.callee?] using .leftInPlace hd hcount hbody hform, has⟩

/-! ### Normal expressions stay as they are -/

theorem IsNormal.child {part : Expr} (h : x.IsNormal b e) (hpart : part ∈ e.children) :
    x.IsNormal b part :=
  (isNormal_iff.1 h).2 part hpart

/-- A normal expression expands to itself. -/
theorem IsNormal.expands (h : x.IsNormal b e) : x.Expands b e e := by
  rw [expands_iff]
  induction e with
  | binary i op l r ihl ihr =>
      have hl := ihl (h.child (by simp [Expr.children]))
      have hr := ihr (h.child (by simp [Expr.children]))
      simp [Expr.mapCalls, hl, hr, Except.bind, Except.map]
  | unary i op y ih =>
      have hy := ih (h.child (by simp [Expr.children]))
      simp [Expr.mapCalls, hy, Except.map]
  | const i v => rfl
  | var i n => rfl
  | index i s p ihs ihp =>
      have hs := ihs (h.child (by simp [Expr.children]))
      have hp := ihp (h.child (by simp [Expr.children]))
      simp [Expr.mapCalls, hs, hp, Except.bind, Except.map]
  | call i n as ih =>
      have has := Expr.mapCallsList_eq_ok_iff.2
        (List.forall₂_same.2 fun a ha => ih a ha (h.child ha))
      have hcall := callWithin_eq_ok_iff.2 ((replaces_call (i := i)).2 ((isNormal_iff.1 h).1 _ rfl))
      simp [Expr.mapCalls, has, hcall, Except.bind]
  | generate i v c ihv ihc =>
      have hv := ihv (h.child (by simp [Expr.children]))
      have hc := ihc (h.child (by simp [Expr.children]))
      simp [Expr.mapCalls, hv, hc, Except.bind, Except.map]
  | array i es ih =>
      have hes := Expr.mapCallsList_eq_ok_iff.2
        (List.forall₂_same.2 fun e he => ih e he (h.child he))
      simp [Expr.mapCalls, hes, Except.map]
  | access i s n ih =>
      have hs := ih (h.child (by simp [Expr.children]))
      simp [Expr.mapCalls, hs, Except.map]
  | record i fs ih =>
      have hfs := Expr.mapCallsFields_eq_ok_iff.2 (List.forall₂_same.2 fun f hf =>
        ⟨rfl, ih f hf (h.child (List.mem_map_of_mem hf))⟩)
      simp [Expr.mapCalls, hfs, Except.map]

/-- Results expand to themselves with any room that they were found with or more. -/
theorem Expands.idempotent (h : x.Expands b e e') : x.Expands b e' e' :=
  h.isNormal.expands

/-! ### Slots do not count -/

theorem callee?_erase (e : Expr) : e.erase.callee? = e.callee? := by
  cases e with
  | call i n as => simp [Expr.erase, Expr.callee?, Expr.eraseList_eq_map]
  | _ => rfl

theorem isNormal_erase_iff : x.IsNormal b e.erase ↔ x.IsNormal b e := by
  induction e using Expr.children_induction with
  | _ e ih =>
      rw [isNormal_iff, isNormal_iff, callee?_erase, Expr.children_erase, List.forall_mem_map]
      exact and_congr_right fun _ => forall₂_congr fun c hc => ih c hc

/-- An expression that differs from a normal one only in its slots is normal. -/
theorem IsNormal.of_erase_eq (h : x.IsNormal b e) (he : e'.erase = e.erase) :
    x.IsNormal b e' := by
  rw [← isNormal_erase_iff, he]
  exact isNormal_erase_iff.2 h

end Expansion
end WhileStatics
