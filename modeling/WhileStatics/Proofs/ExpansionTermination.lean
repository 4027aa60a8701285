import WhileStatics.Proofs.MacroInstances
import WhileStatics.Proofs.NestedCalls

/-!
# Expansion comes to an end

`perform` is one call of expansion as it is written, with a machine word for the
depth and with the calls that it makes left open. Arguments and other parts are
expanded at the same depth and are smaller. The body of a macro and the operand
of a unary instance can be of any size, but they are one level deeper, and the
limit leaves fewer levels there. So the recursion is well founded for all macros,
recursive ones included, and it has one solution, which is the expansion within a
budget.
-/

namespace WhileStatics

/-! ### Sizes of expressions -/

namespace Expr

mutual

/-- The number of nodes. -/
def size : Expr → Nat
  | .binary _ _ l r => l.size + r.size + 1
  | .unary _ _ y => y.size + 1
  | .const .. => 1
  | .var .. => 1
  | .index _ s p => s.size + p.size + 1
  | .call _ _ as => listSize as + 1
  | .generate _ v c => v.size + c.size + 1
  | .array _ es => listSize es + 1
  | .access _ s _ => s.size + 1
  | .record _ fs => fieldsSize fs + 1

/-- The number of nodes in a list of expressions. -/
def listSize : List Expr → Nat
  | [] => 0
  | e :: es => e.size + listSize es

/-- The number of nodes in the values of record fields. -/
def fieldsSize : List (String × Expr) → Nat
  | [] => 0
  | (_, e) :: fs => e.size + fieldsSize fs

end

theorem size_le_listSize {e : Expr} {es : List Expr} (h : e ∈ es) : e.size ≤ listSize es := by
  induction h with
  | head => simp [listSize]
  | tail _ _ ih => simp only [listSize]; omega

theorem fieldsSize_eq (fs : List (String × Expr)) : fieldsSize fs = listSize (fs.map Prod.snd) := by
  induction fs with
  | nil => rfl
  | cons f fs ih => simp [fieldsSize, listSize, ih]

theorem size_eq (e : Expr) : e.size = listSize e.children + 1 := by
  cases e <;> simp [size, children, listSize, fieldsSize_eq]

theorem size_lt_of_mem_children {c e : Expr} (h : c ∈ e.children) : c.size < e.size := by
  rw [size_eq e]
  exact Nat.lt_succ_of_le (size_le_listSize h)

/-! ### Calls in lists, as maps over lists -/

variable {f : Info → String → List Expr → Logged Expr}

theorem mapCallsList_eq_mapM (es : List Expr) : mapCallsList f es = es.mapM (mapCalls f) := by
  induction es with
  | nil => rfl
  | cons e es ih => rw [mapCallsList, ih, List.mapM_cons]

theorem mapCallsFields_eq_mapM (fs : List (String × Expr)) :
    mapCallsFields f fs = fs.mapM fun a => do return (a.1, ← mapCalls f a.2) := by
  induction fs with
  | nil => rfl
  | cons a fs ih => simp [mapCallsFields, ih]

end Expr

namespace Logged

variable {α β : Type}

/-- Computations that go on in the same way after every value that there is are the same. -/
theorem bind_congr_ok {m : Logged α} {f g : α → Logged β}
    (h : ∀ a, m.result = .ok a → f a = g a) : m >>= f = m >>= g := by
  obtain ⟨r, es⟩ := m
  cases r with
  | error e => rfl
  | ok a =>
      change Logged.bind _ _ = Logged.bind _ _
      simp [Logged.bind, h a rfl]

theorem mapM_congr_mem {f g : α → Logged β} {as : List α} (h : ∀ a ∈ as, f a = g a) :
    as.mapM f = as.mapM g := by
  induction as with
  | nil => rfl
  | cons a as ih =>
      obtain ⟨ha, has⟩ := List.forall_mem_cons.1 h
      rw [List.mapM_cons, List.mapM_cons, ha, ih has]

end Logged

/-! ### Activations -/

/-- A call of expansion inside `depth` instantiations. -/
inductive Activation where
  /-- An expression is expanded. -/
  | expr (depth : UInt64) (e : Expr)
  /-- A macro is instantiated for a call with the arguments `args`, which are expanded to `as`. -/
  | invocation (depth : UInt64) (d : MacroDecl) (i : Info) (n : String) (args as : List Expr)

namespace Activation

/-- The number of instantiations around the call. -/
def depth : Activation → UInt64
  | .expr depth _ => depth
  | .invocation depth .. => depth

/-- The number of nodes of the expression; for an invocation without the node of the call. -/
def size : Activation → Nat
  | .expr _ e => e.size
  | .invocation _ _ _ _ args _ => Expr.listSize args

end Activation

namespace Expansion

/-- The expansion with a machine word for its limit. -/
def limited (path : String) (macros : Table MacroDecl) (limit : UInt64) (validateArity : Bool) :
    Expansion :=
  ⟨path, macros, ⟨limit.toNat, validateArity⟩⟩

/-- What one call of expansion does, where `run` stands for the calls that it makes. -/
def perform (x : Expansion) (scope : Scope) (run : Activation → Logged Expr) :
    Activation → Logged Expr
  | .expr depth (.call i n args) => do
      let as ← args.mapM fun a => run (.expr depth a)
      match x.macros.get? n with
      | some d => run (.invocation depth d i n args as)
      | none => return .call i n as
  | .expr depth (.binary i op l r) => do
      let l' ← run (.expr depth l)
      let r' ← run (.expr depth r)
      return .binary i op l' r'
  | .expr depth (.unary i op y) => do
      let y' ← run (.expr depth y)
      return .unary i op y'
  | .expr depth (.index i s p) => do
      let s' ← run (.expr depth s)
      let p' ← run (.expr depth p)
      return .index i s' p'
  | .expr depth (.generate i v c) => do
      let v' ← run (.expr depth v)
      let c' ← run (.expr depth c)
      return .generate i v' c'
  | .expr depth (.array i es) => do
      let es' ← es.mapM fun e => run (.expr depth e)
      return .array i es'
  | .expr depth (.access i s n) => do
      let s' ← run (.expr depth s)
      return .access i s' n
  | .expr depth (.record i fs) => do
      let fs' ← fs.mapM fun a => do return (a.1, ← run (.expr depth a.2))
      return .record i fs'
  | .expr _ (.const i v) => return .const i v
  | .expr _ (.var i n) => return .var i n
  | .invocation depth d i n _ as =>
      if x.options.depthLimit ≤ depth.toNat then
        Logged.fail (.recursionLimit n x.options.depthLimit) i.span x.path
      else
        x.replaceCall (fun e => run (.expr (depth + 1) e)) scope depth.toNat d i n as

/-- What a call of expansion gives. -/
def outcome (x : Expansion) (scope : Scope) : Activation → Logged Expr
  | .expr depth e => x.exprAt scope depth.toNat e
  | .invocation depth d i n _ as =>
      if x.options.depthLimit ≤ depth.toNat then
        Logged.fail (.recursionLimit n x.options.depthLimit) i.span x.path
      else
        x.replaceCall (x.exprAt scope (depth.toNat + 1)) scope depth.toNat d i n as

/-- Expansion goes on at the same depth: with a part, or with the macro that a call is for. -/
inductive Descends (x : Expansion) (scope : Scope) : Activation → Activation → Prop
  | part {depth c e} (hc : c ∈ e.children) : Descends x scope (.expr depth e) (.expr depth c)
  | invoke {depth d i n args as} (hd : x.macros.get? n = some d)
      (has : (args.mapM fun a => x.outcome scope (.expr depth a)).result = .ok as) :
      Descends x scope (.expr depth (.call i n args)) (.invocation depth d i n args as)

/-- An invocation that does not fail at once goes on one level deeper: with the body, and with the
operand if the body expands to a unary expression. -/
inductive Instantiates (x : Expansion) (scope : Scope) : Activation → Activation → Prop
  | body {depth d i n args as} (hdepth : depth.toNat < x.options.depthLimit)
      (hcount : x.AcceptsCount d as.length) :
      Instantiates x scope (.invocation depth d i n args as) (.expr (depth + 1) d.body)
  | operand {depth d i n args as j op y} (hdepth : depth.toNat < x.options.depthLimit)
      (hcount : x.AcceptsCount d as.length)
      (hbody : (x.outcome scope (.expr (depth + 1) d.body)).result = .ok (.unary j op y)) :
      Instantiates x scope (.invocation depth d i n args as)
        (.expr (depth + 1) ((Bindings.ofArgs d.params as).subst y))

/-- The first call makes the second one. -/
def Calls (x : Expansion) (scope : Scope) (a b : Activation) : Prop :=
  x.Descends scope a b ∨ x.Instantiates scope a b

/-- The levels that the limit leaves, then the size. -/
def rank (x : Expansion) (a : Activation) : Nat × Nat :=
  (x.options.depthLimit - a.depth.toNat, a.size)

variable {x : Expansion} {scope : Scope} {a b : Activation} {run : Activation → Logged Expr}
  {depth : UInt64}

/-! ### What a call can make of its calls -/

theorem instantiate_eq_of_operand {E E' : Expr → Logged Expr} {n : String} {bindings : Bindings}
    {i : Info} {as : List Expr} {body : Expr}
    (h : ∀ j op y, body = .unary j op y → E (bindings.subst y) = E' (bindings.subst y)) :
    instantiate E scope n bindings i as body = instantiate E' scope n bindings i as body := by
  cases body with
  | unary j op y =>
      refine Logged.bind_congr_ok fun y' hy' => ?_
      rw [Bindings.result_apply] at hy'
      rw [← Except.ok.inj hy', h j op y rfl]
  | _ => rfl

theorem replaceCall_eq_of_calls {E E' : Expr → Logged Expr} {k : Nat} {d : MacroDecl} {i : Info}
    {n : String} {as : List Expr}
    (hbody : x.AcceptsCount d as.length → E d.body = E' d.body)
    (hoperand : x.AcceptsCount d as.length → ∀ j op y, (E' d.body).result = .ok (.unary j op y) →
      E ((Bindings.ofArgs d.params as).subst y) = E' ((Bindings.ofArgs d.params as).subst y)) :
    x.replaceCall E scope k d i n as = x.replaceCall E' scope k d i n as := by
  rw [replaceCall, replaceCall]
  split
  · rfl
  · rename_i hguard
    have hcount : x.AcceptsCount d as.length := by simpa [AcceptsCount] using hguard
    rw [hbody hcount]
    refine Logged.bind_congr_ok fun _ _ => Logged.bind_congr_ok fun body hresult => ?_
    exact instantiate_eq_of_operand fun j op y hy => hoperand hcount j op y (hy ▸ hresult)

/-- What a call gives depends on no other calls than those that it makes. -/
theorem perform_congr (h : ∀ b, x.Calls scope a b → run b = x.outcome scope b) :
    x.perform scope run a = x.perform scope (x.outcome scope) a := by
  cases a with
  | invocation depth d i n args as =>
      rw [perform, perform]
      split
      · rfl
      · rename_i hlimit
        have hdepth : depth.toNat < x.options.depthLimit := by omega
        apply replaceCall_eq_of_calls
        · exact fun hcount => h _ (.inr (.body hdepth hcount))
        · exact fun hcount j op y hy => h _ (.inr (.operand hdepth hcount hy))
  | expr depth e =>
      have hparts : ∀ c ∈ e.children, run (.expr depth c) = x.outcome scope (.expr depth c) :=
        fun c hc => h _ (.inl (.part hc))
      cases e with
      | binary | index | generate =>
          simp only [Expr.children, List.forall_mem_cons] at hparts
          rw [perform, perform, hparts.1, hparts.2.1]
      | unary | access =>
          simp only [Expr.children, List.forall_mem_cons] at hparts
          rw [perform, perform, hparts.1]
      | const | var => rfl
      | array i es =>
          simp only [Expr.children] at hparts
          rw [perform, perform, Logged.mapM_congr_mem hparts]
      | record i fs =>
          rw [perform, perform, Logged.mapM_congr_mem fun f hf => ?_]
          rw [hparts f.2 (List.mem_map_of_mem hf)]
      | call i n args =>
          simp only [Expr.children] at hparts
          rw [perform, perform, Logged.mapM_congr_mem hparts]
          refine Logged.bind_congr_ok fun as has => ?_
          cases hd : x.macros.get? n with
          | none => rfl
          | some d => exact h _ (.inl (.invoke hd has))

/-! ### Depths -/

theorem toNat_add_one (hlimit : x.options.depthLimit < UInt64.size)
    (hdepth : depth.toNat < x.options.depthLimit) : (depth + 1).toNat = depth.toNat + 1 := by
  rw [UInt64.toNat_add, UInt64.toNat_one]
  exact Nat.mod_eq_of_lt (Nat.lt_of_le_of_lt hdepth hlimit)

theorem Descends.depth_eq (h : x.Descends scope a b) : b.depth = a.depth := by
  cases h <;> rfl

theorem Descends.size_lt (h : x.Descends scope a b) : b.size < a.size := by
  cases h with
  | part hc => exact Expr.size_lt_of_mem_children hc
  | invoke => exact Nat.lt_succ_self _

theorem Instantiates.depth_lt (h : x.Instantiates scope a b) :
    a.depth.toNat < x.options.depthLimit ∧ b.depth = a.depth + 1 := by
  cases h with
  | body hdepth => exact ⟨hdepth, rfl⟩
  | operand hdepth => exact ⟨hdepth, rfl⟩

theorem Instantiates.toNat_depth (hlimit : x.options.depthLimit < UInt64.size)
    (h : x.Instantiates scope a b) : b.depth.toNat = a.depth.toNat + 1 := by
  rw [h.depth_lt.2, toNat_add_one hlimit h.depth_lt.1]

theorem rank_lt (hlimit : x.options.depthLimit < UInt64.size) (h : x.Calls scope a b) :
    Prod.Lex (· < ·) (· < ·) (x.rank b) (x.rank a) := by
  rcases h with h | h
  · rw [rank, rank, h.depth_eq]
    exact .right _ h.size_lt
  · -- The body and the operand can be larger than the call, so the levels have to count.
    have hdepth := h.toNat_depth hlimit
    have hroom := h.depth_lt.1
    exact .left _ _ (by omega)

theorem wellFounded_calls (scope : Scope) (hlimit : x.options.depthLimit < UInt64.size) :
    WellFounded fun inner outer => x.Calls scope outer inner :=
  ⟨fun _ => acc_of_rank (P := fun _ => True) x.rank (fun _ _ _ _ => trivial)
    (fun _ _ h _ => rank_lt hlimit h) trivial⟩

/-! ### The solution -/

theorem callWithin_eq_outcome {d : MacroDecl} {n : String} (hd : x.macros.get? n = some d)
    (depth : UInt64) (i : Info) (args as : List Expr) :
    x.callWithin scope (x.options.depthLimit - depth.toNat) i n as =
      x.outcome scope (.invocation depth d i n args as) := by
  cases hroom : x.options.depthLimit - depth.toNat with
  | zero =>
      have hdepth : x.options.depthLimit ≤ depth.toNat := by omega
      simp only [callWithin, hd, outcome, if_pos hdepth]
  | succ k =>
      have hdepth : ¬ x.options.depthLimit ≤ depth.toNat := by omega
      have hdeeper : x.exprAt scope (depth.toNat + 1) = x.exprWithin scope k := by
        funext e
        rw [exprAt, show x.options.depthLimit - (depth.toNat + 1) = k by omega]
      simp only [callWithin, hd, outcome, if_neg hdepth, hdeeper]
      rw [show x.options.depthLimit - (k + 1) = depth.toNat by omega]

theorem outcome_eq_perform (hlimit : x.options.depthLimit < UInt64.size) (a : Activation) :
    x.outcome scope a = x.perform scope (x.outcome scope) a := by
  cases a with
  | invocation depth d i n args as =>
      rw [outcome, perform]
      split
      · rfl
      · rename_i hdepth
        simp only [outcome, toNat_add_one hlimit (Nat.lt_of_not_le hdepth)]
  | expr depth e =>
      have hexpr e : x.outcome scope (.expr depth e) =
          e.mapCalls (x.callWithin scope (x.options.depthLimit - depth.toNat)) := by
        rw [outcome, exprAt, exprWithin_eq]
      cases e with
      | array i es => simp only [perform, hexpr, Expr.mapCalls, Expr.mapCallsList_eq_mapM]
      | record i fs => simp only [perform, hexpr, Expr.mapCalls, Expr.mapCallsFields_eq_mapM]
      | call i n args =>
          simp only [perform, hexpr, Expr.mapCalls, Expr.mapCallsList_eq_mapM]
          congr 1
          funext as
          cases hd : x.macros.get? n with
          | none => exact callWithin_of_get?_eq_none hd scope _ i as
          | some d => exact callWithin_eq_outcome hd depth i args as
      | _ => simp only [perform, hexpr, Expr.mapCalls]

/-- The recursion has no other solution. -/
theorem eq_outcome (hlimit : x.options.depthLimit < UInt64.size)
    (hrun : ∀ a, run a = x.perform scope run a) : run = x.outcome scope := by
  funext a
  induction a using (wellFounded_calls scope hlimit).induction with
  | h a ih =>
      -- All that the call depends on is settled by the calls that it makes.
      rw [hrun, perform_congr ih, ← outcome_eq_perform hlimit]

theorem toNat_depth_le_limit (hlimit : x.options.depthLimit < UInt64.size) {k : Nat}
    (h : Nests (x.Descends scope) (x.Instantiates scope) k a b)
    (ha : a.depth.toNat ≤ x.options.depthLimit) :
    b.depth.toNat = a.depth.toNat + k ∧ b.depth.toNat ≤ x.options.depthLimit := by
  constructor
  · exact h.measure_eq (fun a => a.depth.toNat)
      (fun _ _ h => congrArg UInt64.toNat h.depth_eq) fun _ _ h => h.toNat_depth hlimit
  · refine h.preserves (P := fun a => a.depth.toNat ≤ x.options.depthLimit) ?_ ?_ ha
    · exact fun _ _ h ha => h.depth_eq ▸ ha
    · intro a b h _
      rw [h.toNat_depth hlimit]
      exact h.depth_lt.1

/-- Expansion comes to an end for all macros and all limits that fit a machine word: the recursion,
in which a call depends on no others than those that it makes, has one solution. Each call that a
call makes leaves fewer levels, or as many levels and a smaller expression. As many instantiations
are nested as the depth says, at most up to the limit, and the depth does not wrap around. -/
theorem calls_of_expansion_decrease (path : String) (macros : Table MacroDecl) (limit : UInt64)
    (validateArity : Bool) (scope : Scope) :
    let x := limited path macros limit validateArity
    (∀ e, x.expr scope e = x.outcome scope (.expr 0 e)) ∧
    (∀ run, (∀ a, run a = x.perform scope run a) ↔ run = x.outcome scope) ∧
    (∀ a run, (∀ b, x.Calls scope a b → run b = x.outcome scope b) →
      x.perform scope run a = x.outcome scope a) ∧
    (WellFounded fun inner outer => x.Calls scope outer inner) ∧
    (∀ a b, x.Calls scope a b → Prod.Lex (· < ·) (· < ·)
      (limit.toNat - b.depth.toNat, b.size) (limit.toNat - a.depth.toNat, a.size)) ∧
    (∀ e c instantiations, Nests (x.Descends scope) (x.Instantiates scope) instantiations
      (.expr 0 e) c → c.depth.toNat = instantiations ∧ instantiations ≤ limit.toNat) ∧
    ∀ a b, x.Instantiates scope a b →
      b.depth = a.depth + 1 ∧ a.depth.toNat + 1 < UInt64.size := by
  intro x
  have hlimit : x.options.depthLimit < UInt64.size := limit.toNat_lt
  refine ⟨fun e => rfl, fun run => ⟨eq_outcome hlimit, ?_⟩, fun a run h => ?_,
    wellFounded_calls scope hlimit, fun a b => rank_lt hlimit, fun e c k h => ?_, fun a b h => ?_⟩
  · rintro rfl
    exact outcome_eq_perform hlimit
  · rw [perform_congr h, ← outcome_eq_perform hlimit]
  · obtain ⟨hdepth, hroom⟩ := toNat_depth_le_limit hlimit h (Nat.zero_le _)
    obtain rfl : c.depth.toNat = k := by simpa [Activation.depth] using hdepth
    exact ⟨rfl, hroom⟩
  · exact ⟨h.depth_lt.2, Nat.lt_of_le_of_lt h.depth_lt.1 hlimit⟩

end Expansion
end WhileStatics
