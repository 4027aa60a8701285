import WhileStatics.Program
import Mathlib.Data.List.Forall2

/-!
# Expressions in programs

A statement holds expressions at its sites, each under the variables in scope
there, and an expression consists of its nodes. Erasing empties the type slots
of all nodes and keeps everything else.
-/

namespace WhileStatics

/-- The variables in scope with their types, latest first. -/
abbrev Context := List (String × Ty)

/-- The same node with an empty slot. -/
def Info.erase (i : Info) : Info := { i with ty := none }

namespace Expr

/-- The immediate parts of an expression. -/
def children : Expr → List Expr
  | .binary _ _ l r => [l, r]
  | .unary _ _ x => [x]
  | .const .. => []
  | .var .. => []
  | .index _ s p => [s, p]
  | .call _ _ as => as
  | .generate _ v c => [v, c]
  | .array _ es => es
  | .access _ s _ => [s]
  | .record _ fs => fs.map Prod.snd

/-- The nodes of an expression: itself and the nodes of its parts. -/
inductive IsNode : Expr → Expr → Prop
  | self (e : Expr) : IsNode e e
  | child {n c e : Expr} (hc : c ∈ e.children) (hn : IsNode n c) : IsNode n e

theorem IsNode.trans {a b c : Expr} (hab : IsNode a b) (hbc : IsNode b c) : IsNode a c := by
  induction hbc with
  | self => exact hab
  | child hc _ ih => exact .child hc ih

/-- Induction on expressions with a hypothesis for every immediate part. -/
theorem children_induction {motive : Expr → Prop}
    (step : ∀ e, (∀ c ∈ e.children, motive c) → motive e) (e : Expr) : motive e := by
  induction e with
  | binary i op l r ihl ihr => exact step _ (by simp [children, ihl, ihr])
  | unary i op x ih => exact step _ (by simp [children, ih])
  | const i v => exact step _ (by simp [children])
  | var i n => exact step _ (by simp [children])
  | index i s p ihs ihp => exact step _ (by simp [children, ihs, ihp])
  | call i n as ih => exact step _ ih
  | generate i v c ihv ihc => exact step _ (by simp [children, ihv, ihc])
  | array i es ih => exact step _ ih
  | access i s f ih => exact step _ (by simp [children, ih])
  | record i fs ih => exact step _ (List.forall_mem_map.2 ih)

/-- Something holds of all nodes when it holds of the root and of all nodes of the parts. -/
theorem forall_isNode_iff {p : Expr → Prop} {e : Expr} :
    (∀ n, IsNode n e → p n) ↔ p e ∧ ∀ c ∈ e.children, ∀ n, IsNode n c → p n := by
  constructor
  · intro h
    exact ⟨h e (.self e), fun c hc n hn => h n (.child hc hn)⟩
  · rintro ⟨hroot, hparts⟩ n hn
    cases hn with
    | self => exact hroot
    | child hc hn => exact hparts _ hc n hn

mutual

/-- Empties the type slot of every node. -/
def erase : Expr → Expr
  | .binary i op l r => .binary i.erase op (erase l) (erase r)
  | .unary i op x => .unary i.erase op (erase x)
  | .const i v => .const i.erase v
  | .var i n => .var i.erase n
  | .index i s p => .index i.erase (erase s) (erase p)
  | .call i n as => .call i.erase n (eraseList as)
  | .generate i v c => .generate i.erase (erase v) (erase c)
  | .array i es => .array i.erase (eraseList es)
  | .access i s f => .access i.erase (erase s) f
  | .record i fs => .record i.erase (eraseFields fs)

/-- Empties the type slots in a list of expressions. -/
def eraseList : List Expr → List Expr
  | [] => []
  | e :: es => erase e :: eraseList es

/-- Empties the type slots in the values of record fields. -/
def eraseFields : List (String × Expr) → List (String × Expr)
  | [] => []
  | (n, e) :: fs => (n, erase e) :: eraseFields fs

end

theorem eraseList_eq_map (es : List Expr) : eraseList es = es.map erase := by
  induction es with
  | nil => rfl
  | cons e es ih => rw [eraseList, ih, List.map_cons]

theorem eraseFields_eq_map (fs : List (String × Expr)) :
    eraseFields fs = fs.map fun f => (f.1, f.2.erase) := by
  induction fs with
  | nil => rfl
  | cons f fs ih => rw [eraseFields, ih, List.map_cons]

theorem isLvalue_erase (e : Expr) : e.erase.isLvalue = e.isLvalue := by
  cases e <;> rfl

theorem isConst_erase (e : Expr) : e.erase.isConst = e.isConst := by
  cases e <;> rfl

theorem children_erase (e : Expr) : e.erase.children = e.children.map erase := by
  cases e with
  | call | array => simp [erase, children, eraseList_eq_map]
  | record => simp [erase, children, eraseFields_eq_map]
  | _ => rfl

/-- The node at an address, which says which part to go to at each step from the root. -/
def node? : List Nat → Expr → Option Expr
  | [], e => some e
  | i :: path, e => e.children[i]?.bind (node? path)

/-- The nodes of an expression are what stands at its addresses. -/
theorem isNode_iff_exists_node? {n e : Expr} : IsNode n e ↔ ∃ path, e.node? path = some n := by
  constructor
  · intro h
    induction h with
    | self => exact ⟨[], rfl⟩
    | child hc _ ih =>
        obtain ⟨i, hi⟩ := List.mem_iff_getElem?.1 hc
        obtain ⟨path, hpath⟩ := ih
        exact ⟨i :: path, by rw [node?, hi, Option.bind_some, hpath]⟩
  · rintro ⟨path, h⟩
    induction path generalizing e with
    | nil =>
        obtain rfl := Option.some.inj h
        exact .self e
    | cons i path ih =>
        obtain ⟨c, hc, hn⟩ := Option.bind_eq_some_iff.1 h
        exact .child (List.mem_of_getElem? hc) (ih hn)

/-- Erasing keeps the addresses of nodes. -/
theorem node?_erase (path : List Nat) (e : Expr) :
    e.erase.node? path = (e.node? path).map erase := by
  induction path generalizing e with
  | nil => rfl
  | cons i path ih =>
      rw [node?, node?, children_erase, List.getElem?_map, Option.bind_map, Option.map_bind]
      exact Option.bind_congr fun c _ => ih c

/-- Lists that differ only in slots are related item by item. -/
theorem forall₂_of_eraseList_eq {motive : (e e' : Expr) → e'.erase = e.erase → Prop}
    {es es' : List Expr} (h : eraseList es' = eraseList es)
    (ih : ∀ e ∈ es, ∀ e' (he : e'.erase = e.erase), motive e e' he) :
    List.Forall₂ (fun e e' => ∃ he : e'.erase = e.erase, motive e e' he) es es' := by
  induction es generalizing es' with
  | nil =>
      cases es' with
      | nil => exact .nil
      | cons _ _ => simp [eraseList] at h
  | cons e es ihes =>
      cases es' with
      | nil => simp [eraseList] at h
      | cons e' es' =>
          simp only [eraseList, List.cons.injEq] at h
          exact .cons ⟨h.1, ih e (by simp) e' h.1⟩ (ihes h.2 fun e he => ih e (by simp [he]))

theorem eraseFields_eq_iff {fs fs' : List (String × Expr)} :
    eraseFields fs' = eraseFields fs ↔
      fs'.map Prod.fst = fs.map Prod.fst ∧
        eraseList (fs'.map Prod.snd) = eraseList (fs.map Prod.snd) := by
  induction fs generalizing fs' with
  | nil => cases fs' <;> simp [eraseFields, eraseList]
  | cons f fs ih =>
      cases fs' with
      | nil => simp [eraseFields, eraseList]
      | cons f' fs' =>
          simp only [eraseFields, eraseList, List.map_cons, List.cons.injEq, Prod.mk.injEq, ih]
          exact and_and_and_comm

/-- Induction on two expressions that differ only in their slots. -/
@[elab_as_elim]
theorem erase_induction {motive : (e e' : Expr) → e'.erase = e.erase → Prop}
    (binary : ∀ i i' op l l' r r' h, i'.erase = i.erase →
      (∃ hl, motive l l' hl) → (∃ hr, motive r r' hr) →
      motive (.binary i op l r) (.binary i' op l' r') h)
    (unary : ∀ i i' op x x' h, i'.erase = i.erase → (∃ hx, motive x x' hx) →
      motive (.unary i op x) (.unary i' op x') h)
    (const : ∀ i i' v h, i'.erase = i.erase → motive (.const i v) (.const i' v) h)
    (var : ∀ i i' n h, i'.erase = i.erase → motive (.var i n) (.var i' n) h)
    (index : ∀ i i' s s' p p' h, i'.erase = i.erase →
      (∃ hs, motive s s' hs) → (∃ hp, motive p p' hp) →
      motive (.index i s p) (.index i' s' p') h)
    (call : ∀ i i' n as as' h, i'.erase = i.erase →
      List.Forall₂ (fun a a' => ∃ ha, motive a a' ha) as as' →
      motive (.call i n as) (.call i' n as') h)
    (generate : ∀ i i' v v' c c' h, i'.erase = i.erase →
      (∃ hv, motive v v' hv) → (∃ hc, motive c c' hc) →
      motive (.generate i v c) (.generate i' v' c') h)
    (array : ∀ i i' es es' h, i'.erase = i.erase →
      List.Forall₂ (fun e e' => ∃ he, motive e e' he) es es' →
      motive (.array i es) (.array i' es') h)
    (access : ∀ i i' s s' f h, i'.erase = i.erase → (∃ hs, motive s s' hs) →
      motive (.access i s f) (.access i' s' f) h)
    (record : ∀ i i' fs fs' h, i'.erase = i.erase → fs'.map Prod.fst = fs.map Prod.fst →
      List.Forall₂ (fun e e' => ∃ he, motive e e' he) (fs.map Prod.snd) (fs'.map Prod.snd) →
      motive (.record i fs) (.record i' fs') h)
    (e e' : Expr) (h : e'.erase = e.erase) : motive e e' h := by
  induction e generalizing e' with
  | binary i op l r ihl ihr =>
      cases e' with
      | binary i' op' l' r' =>
          obtain ⟨hi, rfl, hl, hr⟩ := Expr.binary.inj h
          exact binary i i' _ l l' r r' h hi ⟨hl, ihl l' hl⟩ ⟨hr, ihr r' hr⟩
      | _ => simp [erase] at h
  | unary i op x ih =>
      cases e' with
      | unary i' op' x' =>
          obtain ⟨hi, rfl, hx⟩ := Expr.unary.inj h
          exact unary i i' _ x x' h hi ⟨hx, ih x' hx⟩
      | _ => simp [erase] at h
  | const i v =>
      cases e' with
      | const i' v' =>
          obtain ⟨hi, rfl⟩ := Expr.const.inj h
          exact const i i' _ h hi
      | _ => simp [erase] at h
  | var i n =>
      cases e' with
      | var i' n' =>
          obtain ⟨hi, rfl⟩ := Expr.var.inj h
          exact var i i' _ h hi
      | _ => simp [erase] at h
  | index i s p ihs ihp =>
      cases e' with
      | index i' s' p' =>
          obtain ⟨hi, hs, hp⟩ := Expr.index.inj h
          exact index i i' s s' p p' h hi ⟨hs, ihs s' hs⟩ ⟨hp, ihp p' hp⟩
      | _ => simp [erase] at h
  | call i n as ih =>
      cases e' with
      | call i' n' as' =>
          obtain ⟨hi, rfl, has⟩ := Expr.call.inj h
          exact call i i' _ as as' h hi (forall₂_of_eraseList_eq has ih)
      | _ => simp [erase] at h
  | generate i v c ihv ihc =>
      cases e' with
      | generate i' v' c' =>
          obtain ⟨hi, hv, hc⟩ := Expr.generate.inj h
          exact generate i i' v v' c c' h hi ⟨hv, ihv v' hv⟩ ⟨hc, ihc c' hc⟩
      | _ => simp [erase] at h
  | array i es ih =>
      cases e' with
      | array i' es' =>
          obtain ⟨hi, hes⟩ := Expr.array.inj h
          exact array i i' es es' h hi (forall₂_of_eraseList_eq hes ih)
      | _ => simp [erase] at h
  | access i s f ih =>
      cases e' with
      | access i' s' f' =>
          obtain ⟨hi, hs, rfl⟩ := Expr.access.inj h
          exact access i i' s s' _ h hi ⟨hs, ih s' hs⟩
      | _ => simp [erase] at h
  | record i fs ih =>
      cases e' with
      | record i' fs' =>
          obtain ⟨hi, hfs⟩ := Expr.record.inj h
          obtain ⟨hnames, hvalues⟩ := eraseFields_eq_iff.1 hfs
          refine record i i' fs fs' h hi hnames (forall₂_of_eraseList_eq hvalues ?_)
          intro e he
          obtain ⟨f, hf, rfl⟩ := List.mem_map.1 he
          exact ih f hf
      | _ => simp [erase] at h

end Expr

/-- Puts `f e` in the place of the initial value `e`, if there is one. -/
def VarDecl.mapExprs (f : Expr → Expr) (d : VarDecl) : VarDecl := { d with init := d.init.map f }

/-- The context in which what follows a declaration stands. -/
def VarDecl.extend (Γ : Context) (d : VarDecl) : Context := (d.name, d.ty) :: Γ

namespace Stmt

mutual

/-- Puts `f e` in the place of every expression `e` that stands in a statement. -/
def mapExprs (f : Expr → Expr) : Stmt → Stmt
  | .assertion span c => .assertion span (f c)
  | .print span e => .print span (f e)
  | .assign span t e => .assign span (f t) (f e)
  | .ret span e => .ret span (e.map f)
  | .jump span j => .jump span j
  | .decl d => .decl (d.mapExprs f)
  | .branch span c yes no => .branch span (f c) (mapExprsBlock f yes) (mapExprsBlock f no)
  | .forLoop span d c step body =>
      .forLoop span (d.mapExprs f) (f c) (mapExprs f step) (mapExprsBlock f body)
  | .loop span test c body => .loop span test (f c) (mapExprsBlock f body)
  | .switch span e cs => .switch span (f e) (mapExprsCases f cs)
  | .call span n as => .call span n (as.map f)

/-- The same for the statements of a block. -/
def mapExprsBlock (f : Expr → Expr) : List Stmt → List Stmt
  | [] => []
  | s :: ss => mapExprs f s :: mapExprsBlock f ss

/-- The same for the guards and the bodies of cases. -/
def mapExprsCases (f : Expr → Expr) : List Case → List Case
  | [] => []
  | .mk span g body :: cs => .mk span (g.map f) (mapExprsBlock f body) :: mapExprsCases f cs

end

/-- Empties the type slots in a block. -/
abbrev eraseBlock : List Stmt → List Stmt := mapExprsBlock Expr.erase

/-- The context in which the next statement of a block stands. -/
def extend (Γ : Context) : Stmt → Context
  | .decl d => d.extend Γ
  | _ => Γ

mutual

/-- The expressions that stand in a statement, each with its context. -/
def sites (Γ : Context) : Stmt → List (Context × Expr)
  | .assertion _ c => [(Γ, c)]
  | .print _ e => [(Γ, e)]
  | .assign _ t e => [(Γ, t), (Γ, e)]
  | .ret _ e => e.toList.map (Γ, ·)
  | .jump .. => []
  | .decl d => d.init.toList.map (Γ, ·)
  | .branch _ c yes no => (Γ, c) :: (blockSites Γ yes ++ blockSites Γ no)
  | .forLoop _ d c step body =>
      d.init.toList.map (Γ, ·) ++ (d.extend Γ, c) ::
        (sites (d.extend Γ) step ++ blockSites (step.extend (d.extend Γ)) body)
  | .loop _ _ c body => (Γ, c) :: blockSites Γ body
  | .switch _ e cs => (Γ, e) :: caseSites Γ cs
  | .call _ _ as => as.map (Γ, ·)

/-- The expressions of a block; a declaration is in scope for the statements after it. -/
def blockSites (Γ : Context) : List Stmt → List (Context × Expr)
  | [] => []
  | s :: ss => sites Γ s ++ blockSites (s.extend Γ) ss

/-- The expressions of cases, each of which starts from the context of the whole. -/
def caseSites (Γ : Context) : List Case → List (Context × Expr)
  | [] => []
  | .mk _ g body :: cs => g.toList.map (Γ, ·) ++ (blockSites Γ body ++ caseSites Γ cs)

end

theorem extend_mapExprs (f : Expr → Expr) (Γ : Context) (s : Stmt) :
    (s.mapExprs f).extend Γ = s.extend Γ := by
  cases s <;> rfl

theorem optionSites_map (f : Expr → Expr) (Γ : Context) (e : Option Expr) :
    (e.map f).toList.map (Γ, ·) = (e.toList.map (Γ, ·)).map (Prod.map id f) := by
  cases e <;> rfl

mutual

/-- Changing the expressions of a statement changes what stands at its sites and nothing else. -/
theorem sites_mapExprs (f : Expr → Expr) (Γ : Context) :
    (s : Stmt) → (s.mapExprs f).sites Γ = (s.sites Γ).map (Prod.map id f)
  | .assertion .. | .print .. | .assign .. | .jump .. => rfl
  | .ret _ e => optionSites_map f Γ e
  | .decl d => optionSites_map f Γ d.init
  | .branch _ c yes no => by
      simp [mapExprs, sites, blockSites_mapExprs f Γ yes, blockSites_mapExprs f Γ no]
  | .forLoop _ d c step body => by
      simp only [mapExprs, sites, VarDecl.mapExprs, VarDecl.extend, optionSites_map,
        sites_mapExprs f _ step, extend_mapExprs, blockSites_mapExprs f _ body, List.map_append,
        List.map_cons, Prod.map_apply, id_eq]
  | .loop _ _ c body => by simp [mapExprs, sites, blockSites_mapExprs f Γ body]
  | .switch _ e cs => by simp [mapExprs, sites, caseSites_mapExprs f Γ cs]
  | .call _ _ as => by simp [mapExprs, sites]

theorem blockSites_mapExprs (f : Expr → Expr) (Γ : Context) : (ss : List Stmt) →
    blockSites Γ (mapExprsBlock f ss) = (blockSites Γ ss).map (Prod.map id f)
  | [] => rfl
  | s :: ss => by
      simp [mapExprsBlock, blockSites, sites_mapExprs f Γ s, extend_mapExprs,
        blockSites_mapExprs f _ ss]

theorem caseSites_mapExprs (f : Expr → Expr) (Γ : Context) : (cs : List Case) →
    caseSites Γ (mapExprsCases f cs) = (caseSites Γ cs).map (Prod.map id f)
  | [] => rfl
  | .mk _ g body :: cs => by
      simp only [mapExprsCases, caseSites, optionSites_map, blockSites_mapExprs f Γ body,
        caseSites_mapExprs f Γ cs, List.map_append]

end

end Stmt

namespace Method

/-- The context of a method body: its parameters. -/
def context (m : Method) : Context := (m.params.map fun p => (p.name, p.ty)).reverse

/-- The expressions that stand in the body of a method, each with its context. -/
def sites (m : Method) : List (Context × Expr) := Stmt.blockSites m.context m.body

/-- Empties the type slots in the body of a method. -/
def erase (m : Method) : Method := { m with body := Stmt.eraseBlock m.body }

end Method

/-- Empties the type slots in the body of a method and keeps other declarations. -/
def Decl.erase : Decl → Decl
  | .method m => .method m.erase
  | d => d

namespace Program

/-- Empties the type slots in all method bodies. -/
def erase (p : Program) : Program := { p with decls := p.decls.map Decl.erase }

/-- The expressions that stand in the methods of a program, each with its context. -/
def sites (p : Program) : List (Context × Expr) := p.methods.flatMap Method.sites

theorem methods_erase (p : Program) : p.erase.methods = p.methods.map Method.erase := by
  rw [methods, methods, erase, List.filterMap_map, List.map_filterMap]
  refine List.filterMap_congr fun d _ => ?_
  cases d <;> rfl

/-- Erasing keeps the sites of a program and erases what stands there. -/
theorem sites_erase (p : Program) : p.erase.sites = p.sites.map (Prod.map id Expr.erase) := by
  rw [sites, sites, methods_erase, List.flatMap_map, List.map_flatMap]
  exact List.flatMap_congr fun m _ => Stmt.blockSites_mapExprs _ _ _

end Program

end WhileStatics
