import WhileStatics.Proofs.Failures
import WhileStatics.Proofs.NestedStatements
import WhileStatics.Proofs.WrittenTypes

/-!
# Failures of checking

A check that fails reports a fault at a declaration, at a statement or at a node
of an expression. Checking complains about names of types only where it resolves
a type, and all types that it resolves are reached by written ones or built of
those. So a class of types that holds the written types, and that neither
building types nor following names leaves, confines the reported faults to those
of the rules and of resolving the types of the class. Apart from these, a check
reports only assignments to what is not assignable and calls of macros.
-/

namespace WhileStatics

variable {Q : Ty → Prop} {P : Fault → Prop}

/-! ### Operations on types -/

namespace Ty

variable {types : TypeTable} {a b t : Ty}

/-- Resolving a type of the class fails only with faults that have the property, and so has every
fault of a typing rule. -/
structure Confines (types : TypeTable) (Q : Ty → Prop) (P : Fault → Prop) : Prop where
  constructive : Constructive Q
  hereditary : Hereditary types Q
  resolve : ∀ t, Q t → FailsOnly P (t.resolve types)
  other : ∀ f : Fault, f.kind ∉ [.unknownType, .cyclicType, .recursionLimit, .internal] → P f

namespace Confines

theorem mono {P' : Fault → Prop} (h : Confines types Q P) (hP : ∀ f, P f → P' f) :
    Confines types Q P' where
  constructive := h.constructive
  hereditary := h.hereditary
  resolve t ht := (h.resolve t ht).mono hP
  other f hf := hP f (h.other f hf)

theorem isSubtype (h : Confines types Q P) (ha : Q a) (hb : Q b) :
    FailsOnly P (isSubtype types a b) :=
  failsOnly_isSubtype h.hereditary h.resolve ha hb

theorem requireSubtype (h : Confines types Q P) (ha : Q a) (hb : Q b) :
    FailsOnly P (requireSubtype types a b) := by
  refine (h.isSubtype ha hb).bindM fun answer _ => ?_
  cases answer with
  | true => exact failsOnly_ok _
  | false => exact failsOnly_error_iff.2 (h.other _ (by simp [Fault.kind]))

theorem comparable (h : Confines types Q P) (ha : Q a) (hb : Q b) :
    FailsOnly P (comparable types a b) := by
  refine (h.isSubtype ha hb).bindM fun answer _ => ?_
  cases answer with
  | true => exact failsOnly_ok _
  | false => exact h.isSubtype hb ha

theorem boundFrom (h : Confines types Q P) {ts : List Ty} (ha : Q a) (hts : ∀ t ∈ ts, Q t) :
    FailsOnly P (boundFrom types a ts) := by
  induction ts generalizing a with
  | nil => exact failsOnly_ok _
  | cons t ts ih =>
      rw [List.forall_mem_cons] at hts
      refine (h.isSubtype hts.1 ha).bindM fun above _ => ?_
      cases above with
      | true => exact ih hts.1 hts.2
      | false =>
          refine (h.isSubtype ha hts.1).bindM fun below _ => ?_
          cases below with
          | true => exact ih ha hts.2
          | false => exact failsOnly_error_iff.2 (h.other _ (by simp [Fault.kind]))

theorem leastUpperBound (h : Confines types Q P) {ts : List Ty} (hts : ∀ t ∈ ts, Q t) :
    FailsOnly P (leastUpperBound types ts) :=
  h.boundFrom (h.constructive.primitive _ (by simp)) hts

theorem requireShape (h : Confines types Q P) {shapes : List Shape} (ht : Q t) :
    FailsOnly P (t.requireShape types shapes) := by
  refine (h.resolve t ht).bindM fun u _ => ?_
  split
  · split
    · exact failsOnly_ok _
    · exact failsOnly_error_iff.2 (h.other _ (by simp [Fault.kind]))
  · exact failsOnly_error_iff.2 (h.other _ (by simp [Fault.kind]))

theorem validateFields (h : Confines types Q P) {whole : Ty} {seen : List String}
    {fs : List (String × Ty)} (hfs : ∀ f ∈ fs, FailsOnly P (validate types f.2)) :
    FailsOnly P (validateFields types whole seen fs) := by
  induction fs generalizing seen with
  | nil => exact failsOnly_ok _
  | cons f fs ih =>
      obtain ⟨n, t⟩ := f
      rw [List.forall_mem_cons] at hfs
      rw [Ty.validateFields]
      split
      · exact failsOnly_error_iff.2 (h.other _ (by simp [Fault.kind]))
      · exact hfs.1.bindM fun _ _ => ih hfs.2

theorem validate (h : Confines types Q P) (ht : Q t) : FailsOnly P (validate types t) := by
  induction t with
  | array e ih =>
      rw [Ty.validate]
      exact ih (h.hereditary.element ht)
  | record fs ih =>
      rw [Ty.validate]
      exact h.validateFields fun f hf => ih f hf (h.hereditary.field ht hf)
  | named n =>
      rw [Ty.validate]
      exact (h.resolve _ ht).bindM fun _ _ => failsOnly_ok _
  | _ => exact failsOnly_ok _

end Confines

end Ty

/-! ### Literals -/

namespace Value

variable {types : TypeTable}

theorem failsOnly_itemTypes {vs : List Value} (h : ∀ v ∈ vs, FailsOnly P (v.typeOf types)) :
    FailsOnly P (itemTypes types vs) := by
  induction vs with
  | nil => exact failsOnly_ok _
  | cons v vs ih =>
      rw [List.forall_mem_cons] at h
      refine h.1.bindM fun t _ => ?_
      exact (ih h.2).bindM fun ts _ => failsOnly_ok _

theorem failsOnly_fieldTypes (hP : ∀ n, P (.repeatedLiteralField n)) {seen : List String}
    {fs : List (String × Value)} (h : ∀ f ∈ fs, FailsOnly P (f.2.typeOf types)) :
    FailsOnly P (fieldTypes types seen fs) := by
  induction fs generalizing seen with
  | nil => exact failsOnly_ok _
  | cons f fs ih =>
      obtain ⟨n, v⟩ := f
      rw [List.forall_mem_cons] at h
      rw [fieldTypes]
      split
      · exact failsOnly_error_iff.2 (hP n)
      · refine h.1.bindM fun t _ => ?_
        exact (ih h.2).bindM fun ts _ => failsOnly_ok _

theorem failsOnly_typeOf (h : Ty.Confines types Q P) (v : Value) :
    FailsOnly P (v.typeOf types) := by
  induction v with
  | bool _ | char _ | int _ | string _ => exact failsOnly_ok _
  | array vs ih =>
      rw [typeOf]
      refine (failsOnly_itemTypes ih).bindM fun ts hts => ?_
      have hitems := forall_mem_of_forall₂ (itemTypes_eq_ok_iff.1 hts) fun v _ t ht =>
        constructive_typeOf h.constructive ht
      exact (h.leastUpperBound hitems).bindM fun _ _ => failsOnly_ok _
  | record fs ih =>
      rw [typeOf]
      have hrepeated : ∀ n, P (.repeatedLiteralField n) := fun n =>
        h.other _ (by simp [Fault.kind])
      exact (failsOnly_fieldTypes hrepeated ih).bindM fun _ _ => failsOnly_ok _

end Value

/-! ### Expressions -/

/-- Faults with the property may be reported at the span of the file at `path`. -/
def Admits (path : String) (P : Fault → Prop) (R : Failure → Prop) (span : Span) : Prop :=
  ∀ fault, P fault → R ⟨fault, span, path⟩

variable {R : Failure → Prop}

section Premises

variable {ds : Declarations} {l r e : Typed}

theorem Typed.failsOnly_require (h : Ty.Confines ds.types Q P) {shapes : List Shape} (he : Q e.ty)
    (hR : Admits ds.path P R e.expr.span) : FailsOnly R (e.require ds shapes) :=
  failsOnly_atSpan_iff.2 ((h.requireShape he).mono hR)

theorem Typed.failsOnly_requireBelow (h : Ty.Confines ds.types Q P) {sup : Ty} (hsup : Q sup)
    (he : Q e.ty) (hR : Admits ds.path P R e.expr.span) : FailsOnly R (e.requireBelow ds sup) :=
  failsOnly_atSpan_iff.2 ((h.requireSubtype hsup he).mono hR)

theorem Typed.failsOnly_requireBoth (h : Ty.Confines ds.types Q P) {shape : Shape} {t : Ty}
    (hl : Q l.ty) (hr : Q r.ty) (hRl : Admits ds.path P R l.expr.span)
    (hRr : Admits ds.path P R r.expr.span) :
    FailsOnly R (do
      let _ ← l.require ds [shape]
      let _ ← r.require ds [shape]
      return t : Except Failure Ty) := by
  refine (failsOnly_require h hl hRl).bindM fun _ _ => ?_
  exact (failsOnly_require h hr hRr).bindM fun _ _ => failsOnly_ok _

theorem BinaryOp.failsOnly_typeOf (h : Ty.Confines ds.types Q P) {span : Span} (hl : Q l.ty)
    (hr : Q r.ty) (hRl : Admits ds.path P R l.expr.span) (hRr : Admits ds.path P R r.expr.span)
    (hR : Admits ds.path P R span) (op : BinaryOp) : FailsOnly R (op.typeOf ds span l r) := by
  cases op with
  | eq | notEq =>
      refine (failsOnly_atSpan_iff.2 ((h.comparable hl hr).mono hR)).bindM fun answer _ => ?_
      cases answer with
      | true => exact failsOnly_ok _
      | false => exact failsOnly_error_iff.2 (hR _ (h.other _ (by simp [Fault.kind])))
  | _ => exact Typed.failsOnly_requireBoth h hl hr hRl hRr

theorem UnaryOp.failsOnly_typeOf (h : Ty.Confines ds.types Q P) (he : Q e.ty)
    (hR : Admits ds.path P R e.expr.span) (op : UnaryOp) : FailsOnly R (op.typeOf ds e) := by
  cases op <;> exact (Typed.failsOnly_require h he hR).bindM fun _ _ => failsOnly_ok _

theorem Typed.failsOnly_elementType (h : Ty.Confines ds.types Q P) (he : Q e.ty)
    (hR : Admits ds.path P R e.expr.span) : FailsOnly R (e.elementType ds) := by
  refine (failsOnly_require h he hR).bindM fun u _ => ?_
  split <;> exact failsOnly_ok _

theorem Typed.failsOnly_fieldType (h : Ty.Confines ds.types Q P) {span : Span} {field : String}
    (he : Q e.ty) (hRe : Admits ds.path P R e.expr.span) (hR : Admits ds.path P R span) :
    FailsOnly R (e.fieldType ds span field) := by
  refine (failsOnly_require h he hRe).bindM fun u _ => ?_
  split
  · exact failsOnly_ok _
  · exact failsOnly_error_iff.2 (hR _ (h.other _ (by simp [Fault.kind])))

end Premises

/-- The types of all variables in scope are in the class. -/
def Scope.TypesIn (Q : Ty → Prop) (scope : Scope) : Prop := ∀ b ∈ scope.context, Q b.2

theorem Scope.TypesIn.push {scope : Scope} (h : scope.TypesIn Q) : scope.push.TypesIn Q := h

/-- What can be wrong with a call of the name: a fault with the property, or that the name is one
of a macro and not of a method. -/
inductive Declarations.CalleeFault (ds : Declarations) (P : Fault → Prop) (n : String) :
    Fault → Prop
  | rule {fault} (h : P fault) : CalleeFault ds P n fault
  | macroCall (hmethod : ds.methods.get? n = none) (hname : ds.macros.contains n = true) :
      CalleeFault ds P n (.unexpandedCall n)

/-- The failures that checking can report at a node. -/
inductive Expr.Reports (ds : Declarations) (P : Fault → Prop) : Expr → Failure → Prop
  | rule {e fault} (h : P fault) : Reports ds P e ⟨fault, e.span, ds.path⟩
  | callee {i n as fault} (h : ds.CalleeFault P n fault) :
      Reports ds P (.call i n as) ⟨fault, i.span, ds.path⟩

/-- All failures that can be reported at nodes of the expression have the property. -/
def Expr.ReportsOnly (ds : Declarations) (P : Fault → Prop) (R : Failure → Prop) (e : Expr) :
    Prop :=
  ∀ node, IsNode node e → ∀ f, node.Reports ds P f → R f

theorem Expr.ReportsOnly.child {ds : Declarations} {e c : Expr} (h : e.ReportsOnly ds P R)
    (hc : c ∈ e.children) : c.ReportsOnly ds P R :=
  fun node hnode => h node (.child hc hnode)

theorem Expr.ReportsOnly.admits {ds : Declarations} {e : Expr} (h : e.ReportsOnly ds P R) :
    Admits ds.path P R e.span :=
  fun _ hfault => h e (.self e) _ (.rule hfault)

namespace Declarations

variable {ds : Declarations} {scope : Scope}

/-- The class confines the faults of types and holds the types in the signatures of all methods. -/
structure Confines (ds : Declarations) (Q : Ty → Prop) (P : Fault → Prop) : Prop where
  types : Ty.Confines ds.types Q P
  returns : ∀ n m, ds.methods.get? n = some m → Q m.ret
  params : ∀ n m, ds.methods.get? n = some m → ∀ p ∈ m.params, Q p.ty

namespace Confines

theorem callee (h : ds.Confines Q P) {name : String} {count : Nat} :
    FailsOnly (ds.CalleeFault P name) (ds.callee name count) := by
  rw [Declarations.callee]
  split
  · split
    · exact failsOnly_ok _
    · exact failsOnly_error_iff.2 (.rule (h.types.other _ (by simp [Fault.kind])))
  · next hmethod =>
    split
    · next hname => exact failsOnly_error_iff.2 (.macroCall hmethod hname)
    · exact failsOnly_error_iff.2 (.rule (h.types.other _ (by simp [Fault.kind])))

/-- Inferred types are in the class. -/
theorem infer_ty (h : ds.Confines Q P) (hscope : scope.TypesIn Q) {e : Expr}
    {r : Typed} (hr : ds.infer scope e = .ok r) : Q r.ty :=
  (infer_sound hr).typed.constructive h.types.constructive h.types.hereditary h.returns hscope

end Confines

/-- Inference keeps the span of an expression. -/
theorem admits_of_infer {e : Expr} {r : Typed} (he : e.ReportsOnly ds P R)
    (hr : ds.infer scope e = .ok r) : Admits ds.path P R r.expr.span := by
  have hinfo : r.expr.info.erase = e.info.erase := by
    rw [← Expr.info_erase, (infer_sound hr).erased, Expr.info_erase]
  have hspan : r.expr.info.erase.span = e.info.erase.span := by rw [hinfo]
  change Admits ds.path P R r.expr.info.erase.span
  rw [hspan]
  exact he.admits

section Lists

theorem failsOnly_inferList {es : List Expr} (h : ∀ e ∈ es, FailsOnly R (ds.infer scope e)) :
    FailsOnly R (ds.inferList scope es) := by
  induction es with
  | nil => exact failsOnly_ok _
  | cons e es ih =>
      rw [List.forall_mem_cons] at h
      refine h.1.bindM fun e' _ => ?_
      exact (ih h.2).bindM fun es' _ => failsOnly_ok _

theorem failsOnly_inferFields {fs : List (String × Expr)}
    (h : ∀ f ∈ fs, FailsOnly R (ds.infer scope f.2)) :
    FailsOnly R (ds.inferFields scope fs) := by
  induction fs with
  | nil => exact failsOnly_ok _
  | cons f fs ih =>
      obtain ⟨n, e⟩ := f
      rw [List.forall_mem_cons] at h
      refine h.1.bindM fun e' _ => ?_
      exact (ih h.2).bindM fun fs' _ => failsOnly_ok _

theorem failsOnly_inferArgs {ps : List Param} {as : List Expr}
    (h : ∀ a ∈ as, FailsOnly R (ds.infer scope a))
    (hbelow : ∀ p ∈ ps, ∀ a ∈ as, ∀ r, ds.infer scope a = .ok r →
      FailsOnly R (r.requireBelow ds p.ty)) :
    FailsOnly R (ds.inferArgs scope ps as) := by
  induction as generalizing ps with
  | nil => cases ps <;> exact failsOnly_ok _
  | cons a as ih =>
      cases ps with
      | nil => exact failsOnly_ok _
      | cons p ps =>
          rw [List.forall_mem_cons] at h
          refine h.1.bindM fun a' ha' => ?_
          refine (hbelow p (by simp) a (by simp) a' ha').bindM fun _ _ => ?_
          refine (ih h.2 fun q hq c hc => ?_).bindM fun as' _ => failsOnly_ok _
          exact hbelow q (by simp [hq]) c (by simp [hc])

end Lists

namespace Confines

theorem inferArgs (h : ds.Confines Q P) (hscope : scope.TypesIn Q) {n : String}
    {m : Method} (hm : ds.methods.get? n = some m) {as : List Expr}
    (hR : ∀ a ∈ as, a.ReportsOnly ds P R) (has : ∀ a ∈ as, FailsOnly R (ds.infer scope a)) :
    FailsOnly R (ds.inferArgs scope m.params as) := by
  refine failsOnly_inferArgs has fun p hp a ha r hr => ?_
  exact Typed.failsOnly_requireBelow h.types (h.params n m hm p hp) (h.infer_ty hscope hr)
    (admits_of_infer (hR a ha) hr)

/-- Inference fails only with what can be reported at a node of the expression. -/
theorem infer (h : ds.Confines Q P) (hscope : scope.TypesIn Q) {e : Expr}
    (hR : e.ReportsOnly ds P R) : FailsOnly R (ds.infer scope e) := by
  induction e using Expr.children_induction with
  | step e ih =>
      have hparts : ∀ c ∈ e.children, FailsOnly R (ds.infer scope c) :=
        fun c hc => ih c hc (hR.child hc)
      have hspans : ∀ c ∈ e.children, ∀ r, ds.infer scope c = .ok r →
          Admits ds.path P R r.expr.span :=
        fun c hc r hr => admits_of_infer (hR.child hc) hr
      have hroot := hR.admits
      cases e with
      | binary i op l r =>
          simp only [Expr.children, List.forall_mem_cons] at hparts hspans
          refine hparts.1.bindM fun l' hl => hparts.2.1.bindM fun r' hr => ?_
          refine FailsOnly.bindM ?_ fun _ _ => failsOnly_ok _
          exact op.failsOnly_typeOf h.types (h.infer_ty hscope hl) (h.infer_ty hscope hr)
            (hspans.1 l' hl) (hspans.2.1 r' hr) hroot
      | unary i op x =>
          simp only [Expr.children, List.forall_mem_cons] at hparts hspans
          refine hparts.1.bindM fun x' hx => ?_
          refine FailsOnly.bindM ?_ fun _ _ => failsOnly_ok _
          exact op.failsOnly_typeOf h.types (h.infer_ty hscope hx) (hspans.1 x' hx)
      | const i v =>
          refine FailsOnly.bindM ?_ fun _ _ => failsOnly_ok _
          exact failsOnly_atSpan_iff.2 ((v.failsOnly_typeOf h.types).mono hroot)
      | var i n =>
          rw [Declarations.infer]
          split
          · exact failsOnly_ok _
          · exact failsOnly_error_iff.2 (hroot _ (h.types.other _ (by simp [Fault.kind])))
      | index i s p =>
          simp only [Expr.children, List.forall_mem_cons] at hparts hspans
          refine hparts.1.bindM fun s' hs => hparts.2.1.bindM fun p' hp => ?_
          refine (Typed.failsOnly_require h.types (h.infer_ty hscope hp)
            (hspans.2.1 p' hp)).bindM fun _ _ => ?_
          have helement :=
            Typed.failsOnly_elementType h.types (h.infer_ty hscope hs) (hspans.1 s' hs)
          exact helement.bindM fun _ _ => failsOnly_ok _
      | call i n as =>
          have hcallee : FailsOnly R (atSpan i.span (ds.callee n as.length) ds.path) :=
            failsOnly_atSpan_iff.2 (h.callee.mono fun _ hfault => hR _ (.self _) _ (.callee hfault))
          refine hcallee.bindM fun m hm => ?_
          rw [atSpan_eq_ok_iff, callee_eq_ok_iff] at hm
          have hargs := h.inferArgs hscope hm.1 (fun a ha => hR.child ha) hparts
          exact hargs.bindM fun _ _ => failsOnly_ok _
      | generate i v c =>
          simp only [Expr.children, List.forall_mem_cons] at hparts hspans
          refine hparts.1.bindM fun v' hv => hparts.2.1.bindM fun c' hc => ?_
          refine (Typed.failsOnly_require h.types (h.infer_ty hscope hc)
            (hspans.2.1 c' hc)).bindM fun _ _ => ?_
          exact failsOnly_ok _
      | array i es =>
          refine (failsOnly_inferList hparts).bindM fun rs hrs => ?_
          have htypes : ∀ t ∈ rs.map Typed.ty, Q t := by
            rw [List.forall_mem_map]
            exact forall_mem_of_forall₂ (inferList_eq_ok_iff.1 hrs) fun e _ r hr =>
              h.infer_ty hscope hr
          refine FailsOnly.bindM ?_ fun _ _ => failsOnly_ok _
          exact failsOnly_atSpan_iff.2 ((h.types.leastUpperBound htypes).mono hroot)
      | access i s f =>
          simp only [Expr.children, List.forall_mem_cons] at hparts hspans
          refine hparts.1.bindM fun s' hs => ?_
          refine FailsOnly.bindM ?_ fun _ _ => failsOnly_ok _
          exact Typed.failsOnly_fieldType h.types (h.infer_ty hscope hs) (hspans.1 s' hs) hroot
      | record i fs =>
          have hvalues : ∀ f ∈ fs, FailsOnly R (ds.infer scope f.2) :=
            fun f hf => hparts f.2 (List.mem_map_of_mem hf)
          refine (failsOnly_inferFields hvalues).bindM fun rs hrs => ?_
          have hfields : ∀ f ∈ rs.map fun f => (f.1, f.2.ty), Q f.2 := by
            rw [List.forall_mem_map]
            exact forall_mem_of_forall₂ (inferFields_eq_ok_iff.1 hrs) fun f _ r hr =>
              h.infer_ty hscope hr.2
          refine FailsOnly.bindM ?_ fun _ _ => failsOnly_ok _
          -- The type may repeat a field, but its parts are in the class.
          rw [failsOnly_atSpan_iff, Ty.validate]
          exact (h.types.validateFields fun f hf => h.types.validate (hfields f hf)).mono hroot

theorem inferCondition (h : ds.Confines Q P) (hscope : scope.TypesIn Q) {e : Expr}
    (hR : e.ReportsOnly ds P R) : FailsOnly R (ds.inferCondition scope e) := by
  refine (h.infer hscope hR).bindM fun r hr => ?_
  refine (Typed.failsOnly_require h.types (h.infer_ty hscope hr)
    (admits_of_infer hR hr)).bindM fun _ _ => ?_
  exact failsOnly_ok _

theorem inferBelow (h : ds.Confines Q P) (hscope : scope.TypesIn Q) {sup : Ty}
    (hsup : Q sup) {e : Expr} (hR : e.ReportsOnly ds P R) :
    FailsOnly R (ds.inferBelow scope sup e) := by
  refine (h.infer hscope hR).bindM fun r hr => ?_
  have hbelow := Typed.failsOnly_requireBelow h.types hsup (h.infer_ty hscope hr)
    (admits_of_infer hR hr)
  exact hbelow.bindM fun _ _ => failsOnly_ok _

theorem inferOptionBelow (h : ds.Confines Q P) (hscope : scope.TypesIn Q) {sup : Ty}
    (hsup : Q sup) {o : Option Expr} (hR : ∀ e ∈ o.toList, e.ReportsOnly ds P R) :
    FailsOnly R (ds.inferOptionBelow scope sup o) := by
  cases o with
  | none => exact failsOnly_ok _
  | some e => exact (h.inferBelow hscope hsup (hR e (by simp))).bindM fun _ _ => failsOnly_ok _

theorem inferCall (h : ds.Confines Q P) (hscope : scope.TypesIn Q) {span : Span} {n : String}
    {as : List Expr} (hcall : ∀ fault, ds.CalleeFault P n fault → R ⟨fault, span, ds.path⟩)
    (hR : ∀ a ∈ as, a.ReportsOnly ds P R) : FailsOnly R (ds.inferCall scope span n as) := by
  refine (failsOnly_atSpan_iff.2 (h.callee.mono hcall)).bindM fun m hm => ?_
  rw [atSpan_eq_ok_iff, callee_eq_ok_iff] at hm
  exact h.inferArgs hscope hm.1 hR fun a ha => h.infer hscope (hR a ha)

end Confines

end Declarations

/-! ### Statements -/

/-- The failures that checking can report at a statement apart from those of its expressions. -/
inductive Stmt.Reports (ds : Declarations) (P : Fault → Prop) : Stmt → Failure → Prop
  | decl {d fault} (h : P fault) : Reports ds P (.decl d) ⟨fault, d.span, ds.path⟩
  | target {span t e} (h : t.isLvalue = false) :
      Reports ds P (.assign span t e) ⟨.notLvalue t, t.span, ds.path⟩
  | callee {span n as fault} (h : ds.CalleeFault P n fault) :
      Reports ds P (.call span n as) ⟨fault, span, ds.path⟩

/-- All failures that can be reported at the statements and the expressions have the property. -/
structure ReportsOnly (ds : Declarations) (P : Fault → Prop) (R : Failure → Prop)
    (parts : List (Context × Stmt)) (sites : List (Context × Expr)) : Prop where
  parts : ∀ part ∈ parts, ∀ f, part.2.Reports ds P f → R f
  sites : ∀ site ∈ sites, site.2.ReportsOnly ds P R

theorem ReportsOnly.mono {ds : Declarations} {parts parts' : List (Context × Stmt)}
    {sites sites' : List (Context × Expr)} (h : ReportsOnly ds P R parts sites)
    (hparts : parts' ⊆ parts) (hsites : sites' ⊆ sites) : ReportsOnly ds P R parts' sites' where
  parts part hpart := h.parts part (hparts hpart)
  sites site hsite := h.sites site (hsites hsite)

namespace Declarations.Confines

variable {ds : Declarations} {scope : Scope} {ret : Ty}

theorem checkVarDecl (h : ds.Confines Q P) (hscope : scope.TypesIn Q) {d : VarDecl} (hd : Q d.ty)
    (hdecl : Admits ds.path P R d.span) (hinit : ∀ e ∈ d.init.toList, e.ReportsOnly ds P R) :
    FailsOnly R ((ds.checkVarDecl d).result scope) := by
  refine Walk.failsOnly_bind ?_ fun _ _ => failsOnly_ok _
  refine (failsOnly_atSpan_iff.2 ((h.types.validate hd).mono hdecl)).bindM fun _ _ => ?_
  split
  · exact failsOnly_error_iff.2 (hdecl _ (h.types.other _ (by simp [Fault.kind])))
  · exact h.inferOptionBelow hscope hd hinit

theorem checkAssign (h : ds.Confines Q P) (hscope : scope.TypesIn Q) {target value : Expr}
    (htarget : target.isLvalue = false → R ⟨.notLvalue target, target.span, ds.path⟩)
    (ht : target.ReportsOnly ds P R) (hv : value.ReportsOnly ds P R) :
    FailsOnly R (ds.checkAssign scope target value) := by
  rw [Declarations.checkAssign]
  split
  · refine (h.infer hscope ht).bindM fun t' ht' => ?_
    have hvalue := h.inferBelow hscope (h.infer_ty hscope ht') hv
    exact hvalue.bindM fun _ _ => failsOnly_ok _
  · next hlvalue => exact failsOnly_error_iff.2 (htarget (by simpa using hlvalue))

/-- The types in scope stay in the class after a declaration that passes. -/
theorem scopeAfter_checkVarDecl (hscope : scope.TypesIn Q) {d d' : VarDecl}
    (hd : Q d.ty) (h : (ds.checkVarDecl d).result scope = .ok d') :
    ((ds.checkVarDecl d).scopeAfter scope).TypesIn Q := by
  rw [Scope.TypesIn, context_scopeAfter_checkVarDecl h]
  exact List.forall_mem_cons.2 ⟨hd, hscope⟩

theorem scopeAfter_checkStmt (hscope : scope.TypesIn Q) {s s' : Stmt}
    (hs : ∀ t ∈ s.localTypes, Q t) (h : (ds.checkStmt ret s).result scope = .ok s') :
    ((ds.checkStmt ret s).scopeAfter scope).TypesIn Q := by
  rw [Scope.TypesIn, context_scopeAfter_checkStmt h]
  cases s with
  | decl d =>
      have hd : Q d.ty := hs d.ty (by simp [Stmt.localTypes])
      exact List.forall_mem_cons.2 ⟨hd, hscope⟩
  | _ => exact hscope

mutual

/-- Checking a statement whose types are in the class fails only with what can be reported at its
parts. -/
theorem checkStmt (h : ds.Confines Q P) (hret : Q ret) {scope : Scope} {Γ : Context}
    (hscope : scope.TypesIn Q) : (s : Stmt) → (∀ t ∈ s.localTypes, Q t) →
      ReportsOnly ds P R (s.parts Γ) (s.sites Γ) →
        FailsOnly R ((ds.checkStmt ret s).result scope)
  | .assertion _ c, _, hR => by
      have hc := hR.sites (Γ, c) (by simp [Stmt.sites])
      exact Walk.failsOnly_bind (h.inferCondition hscope hc) fun _ _ => failsOnly_ok _
  | .print _ e, _, hR => by
      have he := hR.sites (Γ, e) (by simp [Stmt.sites])
      exact Walk.failsOnly_bind (h.infer hscope he) fun _ _ => failsOnly_ok _
  | .assign span t e, _, hR => by
      have htarget := fun hlvalue =>
        hR.parts (Γ, .assign span t e) (by simp [Stmt.parts]) _ (.target hlvalue)
      have ht := hR.sites (Γ, t) (by simp [Stmt.sites])
      have he := hR.sites (Γ, e) (by simp [Stmt.sites])
      exact Walk.failsOnly_bind (h.checkAssign hscope htarget ht he) fun _ _ => failsOnly_ok _
  | .ret _ o, _, hR => by
      have ho := List.forall_mem_map.1 hR.sites
      exact Walk.failsOnly_bind (h.inferOptionBelow hscope hret ho) fun _ _ => failsOnly_ok _
  | .jump .., _, _ => failsOnly_ok _
  | .decl d, hs, hR => by
      simp only [Stmt.localTypes, List.forall_mem_singleton] at hs
      have hdecl : Admits ds.path P R d.span := fun fault hfault =>
        hR.parts (Γ, .decl d) (by simp [Stmt.parts]) _ (.decl hfault)
      have hinit := List.forall_mem_map.1 hR.sites
      exact Walk.failsOnly_bind (h.checkVarDecl hscope hs hdecl hinit) fun _ _ => failsOnly_ok _
  | .branch _ c yes no, hs, hR => by
      simp only [Stmt.localTypes, List.forall_mem_append] at hs
      have hc := hR.sites (Γ, c) (by simp [Stmt.sites])
      have hyes : ReportsOnly ds P R (Stmt.blockParts Γ yes) (Stmt.blockSites Γ yes) :=
        hR.mono (by simp [Stmt.parts]) (by simp [Stmt.sites])
      have hno : ReportsOnly ds P R (Stmt.blockParts Γ no) (Stmt.blockSites Γ no) :=
        hR.mono (by simp [Stmt.parts]) (by simp [Stmt.sites])
      refine Walk.failsOnly_bind (h.inferCondition hscope hc) fun _ _ => ?_
      refine Walk.failsOnly_bind (h.checkBlock hret hscope.push yes hs.1 hyes) fun _ _ => ?_
      have hkeeps := Walk.keepsScope_inBlock (ds.keepsOuter_checkBlock ret yes) scope
      rw [Walk.scopeAfter_ask, hkeeps]
      refine Walk.failsOnly_bind (h.checkBlock hret hscope.push no hs.2 hno) fun _ _ => ?_
      exact failsOnly_ok _
  | .forLoop _ d c step body, hs, hR => by
      simp only [Stmt.localTypes, List.forall_mem_cons, List.forall_mem_append] at hs
      have hdecl : Admits ds.path P R d.span := fun fault hfault =>
        hR.parts (Γ, .decl d) (by simp [Stmt.parts]) _ (.decl hfault)
      have hinit : ∀ e ∈ d.init.toList, e.ReportsOnly ds P R := fun e he =>
        hR.sites (Γ, e) (by simp [Stmt.sites, Option.mem_toList.1 he])
      have hc := hR.sites (d.extend Γ, c) (by simp [Stmt.sites])
      have hstep : ReportsOnly ds P R (step.parts (d.extend Γ)) (step.sites (d.extend Γ)) :=
        hR.mono (by intro; simp +contextual [Stmt.parts]) (by intro; simp +contextual [Stmt.sites])
      have hbody : ReportsOnly ds P R (Stmt.blockParts (step.extend (d.extend Γ)) body)
          (Stmt.blockSites (step.extend (d.extend Γ)) body) :=
        hR.mono (by intro; simp +contextual [Stmt.parts]) (by intro; simp +contextual [Stmt.sites])
      refine Walk.failsOnly_bind (h.checkVarDecl hscope.push hs.1 hdecl hinit) fun d' hd' => ?_
      have hscope₁ := scopeAfter_checkVarDecl hscope.push hs.1 hd'
      refine Walk.failsOnly_bind (h.inferCondition hscope₁ hc) fun _ _ => ?_
      refine Walk.failsOnly_bind (h.checkStmt hret hscope₁ step hs.2.1 hstep) fun step' hstep' => ?_
      have hscope₂ := scopeAfter_checkStmt hscope₁ hs.2.1 hstep'
      refine Walk.failsOnly_bind (h.checkBlock hret hscope₂.push body hs.2.2 hbody) fun _ _ => ?_
      exact failsOnly_ok _
  | .loop _ _ c body, hs, hR => by
      have hc := hR.sites (Γ, c) (by simp [Stmt.sites])
      have hbody : ReportsOnly ds P R (Stmt.blockParts Γ body) (Stmt.blockSites Γ body) :=
        hR.mono (by simp [Stmt.parts]) (by simp [Stmt.sites])
      refine Walk.failsOnly_bind (h.inferCondition hscope hc) fun _ _ => ?_
      refine Walk.failsOnly_bind (h.checkBlock hret hscope.push body hs hbody) fun _ _ => ?_
      exact failsOnly_ok _
  | .switch _ e cs, hs, hR => by
      have he := hR.sites (Γ, e) (by simp [Stmt.sites])
      have hcs : ReportsOnly ds P R (Stmt.caseParts Γ cs) (Stmt.caseSites Γ cs) :=
        hR.mono (by simp [Stmt.parts]) (by simp [Stmt.sites])
      refine Walk.failsOnly_bind (h.infer hscope he) fun r hr => ?_
      have hon := h.infer_ty hscope hr
      exact Walk.failsOnly_bind (h.checkCases hret hon hscope cs hs hcs) fun _ _ => failsOnly_ok _
  | .call span n as, _, hR => by
      have hcall := fun fault hfault =>
        hR.parts (Γ, .call span n as) (by simp [Stmt.parts]) ⟨fault, span, ds.path⟩ (.callee hfault)
      have has := List.forall_mem_map.1 hR.sites
      exact Walk.failsOnly_bind (h.inferCall hscope hcall has) fun _ _ => failsOnly_ok _

theorem checkBlock (h : ds.Confines Q P) (hret : Q ret) {scope : Scope} {Γ : Context}
    (hscope : scope.TypesIn Q) : (ss : List Stmt) → (∀ t ∈ Stmt.blockLocalTypes ss, Q t) →
      ReportsOnly ds P R (Stmt.blockParts Γ ss) (Stmt.blockSites Γ ss) →
        FailsOnly R ((ds.checkBlock ret ss).result scope)
  | [], _, _ => failsOnly_ok _
  | s :: ss, hts, hR => by
      simp only [Stmt.blockLocalTypes, List.forall_mem_append] at hts
      have hs : ReportsOnly ds P R (s.parts Γ) (s.sites Γ) :=
        hR.mono (by simp [Stmt.blockParts]) (by simp [Stmt.blockSites])
      have hss : ReportsOnly ds P R (Stmt.blockParts (s.extend Γ) ss)
          (Stmt.blockSites (s.extend Γ) ss) :=
        hR.mono (by simp [Stmt.blockParts]) (by simp [Stmt.blockSites])
      refine Walk.failsOnly_bind (h.checkStmt hret hscope s hts.1 hs) fun s' hs' => ?_
      have hscope' := scopeAfter_checkStmt hscope hts.1 hs'
      refine Walk.failsOnly_bind (h.checkBlock hret hscope' ss hts.2 hss) fun _ _ => ?_
      exact failsOnly_ok _

theorem checkCases (h : ds.Confines Q P) {on : Ty} (hret : Q ret) (hon : Q on)
    {scope : Scope} {Γ : Context} (hscope : scope.TypesIn Q) : (cs : List Case) →
      (∀ t ∈ Stmt.caseLocalTypes cs, Q t) →
        ReportsOnly ds P R (Stmt.caseParts Γ cs) (Stmt.caseSites Γ cs) →
          FailsOnly R ((ds.checkCases ret on cs).result scope)
  | [], _, _ => failsOnly_ok _
  | .mk _ g body :: cs, hts, hR => by
      simp only [Stmt.caseLocalTypes, List.forall_mem_append] at hts
      have hg : ∀ e ∈ g.toList, e.ReportsOnly ds P R := fun e he =>
        hR.sites (Γ, e) (by simp [Stmt.caseSites, Option.mem_toList.1 he])
      have hbody : ReportsOnly ds P R (Stmt.blockParts Γ body) (Stmt.blockSites Γ body) :=
        hR.mono (by simp [Stmt.caseParts]) (by intro; simp +contextual [Stmt.caseSites])
      have hcs : ReportsOnly ds P R (Stmt.caseParts Γ cs) (Stmt.caseSites Γ cs) :=
        hR.mono (by simp [Stmt.caseParts]) (by intro; simp +contextual [Stmt.caseSites])
      refine Walk.failsOnly_bind (h.inferOptionBelow hscope hon hg) fun _ _ => ?_
      refine Walk.failsOnly_bind (h.checkBlock hret hscope.push body hts.1 hbody) fun _ _ => ?_
      have hkeeps := Walk.keepsScope_inBlock (ds.keepsOuter_checkBlock ret body) scope
      rw [Walk.scopeAfter_ask, hkeeps]
      refine Walk.failsOnly_bind (h.checkCases hret hon hscope cs hts.2 hcs) fun _ _ => ?_
      exact failsOnly_ok _

end

end Declarations.Confines

/-! ### Programs -/

/-- The failures that checking can report at a declaration in the file at `path` apart from those in
a method body. -/
inductive Decl.Reports (path : String) (P : Fault → Prop) : Decl → Failure → Prop
  | ret {m fault} (h : P fault) : Reports path P (.method m) ⟨fault, m.span, path⟩
  | param {m p fault} (hp : p ∈ m.params) (h : P fault) :
      Reports path P (.method m) ⟨fault, p.span, path⟩
  | type {t fault} (h : P fault) : Reports path P (.type t) ⟨fault, t.span, path⟩

namespace Declarations.Confines

variable {ds : Declarations} {scope : Scope}

theorem checkParams (h : ds.Confines Q P) {ps : List Param} (hps : ∀ p ∈ ps, Q p.ty)
    (hR : ∀ p ∈ ps, Admits ds.path P R p.span) : FailsOnly R (ds.checkParams scope ps) := by
  induction ps generalizing scope with
  | nil => exact failsOnly_ok _
  | cons p ps ih =>
      rw [List.forall_mem_cons] at hps hR
      refine (failsOnly_atSpan_iff.2 ((h.types.validate hps.1).mono hR.1)).bindM fun _ _ => ?_
      split
      · exact failsOnly_error_iff.2 (hR.1 _ (h.types.other _ (by simp [Fault.kind])))
      · exact ih hps.2 hR.2

theorem checkMethod (h : ds.Confines Q P) {m : Method} (hm : ∀ t ∈ m.writtenTypes, Q t)
    (hdecl : ∀ f, (Decl.method m).Reports ds.path P f → R f)
    (hbody : ReportsOnly ds P R m.parts m.sites) :
    FailsOnly R (ds.checkMethod m).result := by
  simp only [Method.writtenTypes, List.forall_mem_cons, List.forall_mem_append,
    List.forall_mem_map] at hm
  have hret : Admits ds.path P R m.span := fun fault hfault => hdecl _ (.ret hfault)
  have hspans : ∀ p ∈ m.params, Admits ds.path P R p.span := fun p hp fault hfault =>
    hdecl _ (.param hp hfault)
  simp only [Declarations.checkMethod, Logged.result_bind, Logged.result_tell,
    Logged.result_ofExcept]
  refine (failsOnly_ok _).bind fun _ _ => ?_
  refine (failsOnly_atSpan_iff.2 ((h.types.validate hm.1).mono hret)).bind fun _ _ => ?_
  refine (h.checkParams hm.2.1 hspans).bind fun scope hscope => ?_
  have hparams : scope.TypesIn Q := by
    obtain ⟨_, _, hnodup, rfl⟩ := checkParams_eq_ok_iff.1 hscope
    rw [Scope.TypesIn, Method.context_foldl_declareParam hnodup, Method.context]
    simp only [List.mem_reverse, List.forall_mem_map]
    exact hm.2.1
  exact (h.checkBlock hm.1 hparams m.body hm.2.2 hbody).bind fun _ _ => failsOnly_ok _

theorem checkDecl (h : ds.Confines Q P) {d : Decl} (hd : ∀ t ∈ d.writtenTypes, Q t)
    (hname : ∀ t ∈ d.type?, Q (.named t.name)) (hdecl : ∀ f, d.Reports ds.path P f → R f)
    (hbody : ∀ m ∈ d.method?, ReportsOnly ds P R m.parts m.sites) :
    FailsOnly R (ds.checkDecl d).result := by
  cases d with
  | method m =>
      rw [Declarations.checkDecl, Logged.result_bind]
      exact (h.checkMethod hd hdecl (hbody m rfl)).bind fun _ _ => failsOnly_ok _
  | type t =>
      simp only [Declarations.checkDecl, Logged.result_bind, Logged.result_ofExcept]
      have hty : Q t.ty := hd t.ty (by simp [Decl.writtenTypes])
      have hspan : Admits ds.path P R t.span := fun fault hfault => hdecl _ (.type hfault)
      refine (failsOnly_atSpan_iff.2 ((h.types.validate hty).mono hspan)).bind fun _ _ => ?_
      refine FailsOnly.bind ?_ fun _ _ => failsOnly_ok _
      exact failsOnly_atSpan_iff.2 ((h.types.resolve _ (hname t rfl)).mono hspan)
  | macroDecl m => exact failsOnly_ok _

end Declarations.Confines

namespace Program

variable {p : Program}

theorem mem_writtenTypes {t : Ty} : t ∈ p.writtenTypes ↔ ∃ d ∈ p.decls, t ∈ d.writtenTypes :=
  List.mem_flatMap

theorem ty_mem_writtenTypes {n : String} {d : TypeDecl}
    (hd : p.declarations.types.get? n = some d) : d.ty ∈ p.writtenTypes :=
  mem_writtenTypes.2 ⟨.type d, mem_decls_of_get?_types hd, by simp [Decl.writtenTypes]⟩

/-- A class that holds all written types holds the types in the signatures of all methods. -/
theorem confines_declarations (h : Ty.Confines p.declarations.types Q P)
    (hwritten : ∀ t ∈ p.writtenTypes, Q t) : p.declarations.Confines Q P where
  types := h
  returns n m hm := by
    refine hwritten _ (mem_writtenTypes.2 ⟨.method m, mem_decls_of_get?_methods hm, ?_⟩)
    simp [Decl.writtenTypes, Method.writtenTypes]
  params n m hm param hparam := by
    refine hwritten _ (mem_writtenTypes.2 ⟨.method m, mem_decls_of_get?_methods hm, ?_⟩)
    simp [Decl.writtenTypes, Method.writtenTypes, List.mem_map_of_mem hparam]

/-- The failures that checking a program can report, by the place of the fault. -/
inductive Reports (p : Program) (P : Fault → Prop) (f : Failure) : Prop
  | decl {d} (hd : d ∈ p.decls) (h : d.Reports p.path P f) : Reports p P f
  | stmt {m part} (hm : m ∈ p.methods) (hpart : part ∈ m.parts)
      (h : part.2.Reports p.declarations P f) : Reports p P f
  | expr {m site node} (hm : m ∈ p.methods) (hsite : site ∈ m.sites)
      (hnode : Expr.IsNode node site.2) (h : node.Reports p.declarations P f) : Reports p P f

/-- Checking a program whose written types and type names are in the class reports a fault with
the property, or a wrong assignment target or a call of a macro, at its place. -/
theorem check_reports (h : Ty.Confines p.declarations.types Q P)
    (hwritten : ∀ t ∈ p.writtenTypes, Q t) (hnames : ∀ t ∈ p.types, Q (.named t.name))
    (options : CheckOptions) : FailsOnly (p.Reports P) (p.check options).result := by
  have hconfines := confines_declarations h hwritten
  have hdecl : ∀ d ∈ p.decls, FailsOnly (p.Reports P) (p.declarations.checkDecl d).result := by
    intro d hd
    refine hconfines.checkDecl (fun t ht => hwritten t (mem_writtenTypes.2 ⟨d, hd, ht⟩)) ?_
      (fun f hf => .decl hd (p.path_declarations ▸ hf)) ?_
    · intro t ht
      exact hnames t (List.mem_filterMap.2 ⟨d, hd, ht⟩)
    · intro m hm
      have hmem : m ∈ p.methods := List.mem_filterMap.2 ⟨d, hd, hm⟩
      exact ⟨fun part hpart f hf => .stmt hmem hpart hf,
        fun site hsite node hnode f hf => .expr hmem hsite hnode hf⟩
  simp only [check_eq, Logged.result_bind, Logged.result_tellAll]
  refine (failsOnly_ok _).bind fun _ _ => ?_
  exact (Logged.failsOnly_mapM hdecl).bind fun _ _ => failsOnly_ok _

/-- A reported fault has the property if internal faults have it. -/
theorem Reports.fault {f : Failure} (h : p.Reports P f)
    (hinternal : ∀ fault : Fault, fault.kind = .internal → P fault) : P f.fault := by
  have hcallee : ∀ n fault, p.declarations.CalleeFault P n fault → P fault := by
    rintro n fault (hfault | _)
    · exact hfault
    · exact hinternal _ rfl
  cases h with
  | decl _ h => cases h <;> assumption
  | @stmt m part _ _ h =>
      obtain ⟨Γ, s⟩ := part
      cases h with
      | decl hfault => exact hfault
      | target _ => exact hinternal _ rfl
      | callee hfault => exact hcallee _ _ hfault
  | expr _ _ _ h =>
      cases h with
      | rule hfault => exact hfault
      | callee hfault => exact hcallee _ _ hfault

end Program

end WhileStatics
