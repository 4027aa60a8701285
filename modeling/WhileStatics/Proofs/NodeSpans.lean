import WhileStatics.Proofs.NormalForms

/-!
# Spans of expanded expressions

The node that replaces a call carries the span of the call, and everything below
it comes with its span from an argument or from the body of a macro. So if the
spans of an expression and those of all macro bodies are in a class, then the
spans of what the expression expands to are, however instantiations are nested.
-/

namespace WhileStatics

variable {S : Span → Prop} {e e' : Expr}

namespace Expr

/-- The spans of all nodes are in the class. -/
def SpansIn (S : Span → Prop) (e : Expr) : Prop := ∀ node, IsNode node e → S node.span

theorem spansIn_iff : e.SpansIn S ↔ S e.span ∧ ∀ c ∈ e.children, c.SpansIn S :=
  forall_isNode_iff

theorem SpansIn.child {c : Expr} (h : e.SpansIn S) (hc : c ∈ e.children) : c.SpansIn S :=
  (spansIn_iff.1 h).2 c hc

theorem SpansIn.of_isNode {node : Expr} (h : e.SpansIn S) (hnode : IsNode node e) :
    node.SpansIn S :=
  fun inner hinner => h inner (hinner.trans hnode)

theorem SpansIn.subst {ps : List Ident} {as : List Expr} (he : e.SpansIn S)
    (has : ∀ a ∈ as, a.SpansIn S) : ((Bindings.ofArgs ps as).subst e).SpansIn S :=
  forall_isNode_subst has he

end Expr

namespace Expansion

variable {x : Expansion} {b : Nat}

/-- The spans of all nodes of macro bodies are in the class. -/
def BodySpansIn (x : Expansion) (S : Span → Prop) : Prop :=
  ∀ n d, x.macros.get? n = some d → d.body.SpansIn S

/-- Expansion brings in no spans but those of the expression and of macro bodies. -/
theorem Expands.spansIn (h : x.Expands b e e') (hbodies : x.BodySpansIn S)
    (he : e.SpansIn S) : e'.SpansIn S := by
  induction b using Nat.strongRecOn generalizing e e' with
  | ind b ih =>
      refine Expr.forall_isNode_of_mapCalls (fun i n _ as r hnode has hr => ?_)
        (fun node node' hnode _ hinfo => ?_) (expands_iff.1 h)
      · change r.SpansIn S
        have hcall : S i.span := he _ hnode
        cases callWithin_eq_ok_iff.1 hr with
        | other _ | leftInPlace _ _ _ _ => exact Expr.spansIn_iff.2 ⟨hcall, has⟩
        | @binary k d j op l r hd _ hbody =>
            have hbody' := ih k (Nat.lt_succ_self k) hbody (hbodies n d hd)
            have hl : l.SpansIn S := hbody'.child (by simp [Expr.children])
            have hr : r.SpansIn S := hbody'.child (by simp [Expr.children])
            exact Expr.spansIn_iff.2
              ⟨hcall, by simpa [Expr.children] using ⟨hl.subst has, hr.subst has⟩⟩
        | @unary k d j op y y' hd _ hbody hy =>
            -- The operand is expanded a second time, after the arguments are put into it.
            have hbody' := ih k (Nat.lt_succ_self k) hbody (hbodies n d hd)
            have hoperand : y.SpansIn S := hbody'.child (by simp [Expr.children])
            have hy' := ih k (Nat.lt_succ_self k) hy (hoperand.subst has)
            exact Expr.spansIn_iff.2 ⟨hcall, by simpa [Expr.children] using hy'⟩
        | const _ _ _ => exact Expr.spansIn_iff.2 ⟨hcall, by simp [Expr.children]⟩
      · rw [Expr.span, hinfo]
        exact he node hnode

end Expansion

end WhileStatics
