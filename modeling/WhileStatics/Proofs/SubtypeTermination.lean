import WhileStatics.Proofs.NestedCalls
import WhileStatics.Proofs.SubtypeDecision
import Mathlib.Data.Finset.Prod

/-!
# Comparisons of types come to an end

`Comparison` is the subtype test without a budget. It works on a stack of assumed
pairs: a pair with a name in it is pushed before the types that it stands for are
compared, and popped afterwards. A call either goes on with parts of the types or
unfolds a pair that is not assumed yet. There are only finitely many pairs of
subterms, so the recursion is well founded, whatever the declarations are.
-/

namespace WhileStatics.Ty

/-- A call of the test: the assumed pairs, the latest one first, and the two types. -/
structure Query where
  assumed : List (Ty × Ty)
  sup : Ty
  sub : Ty

/-- What is compared: two types, or the fields of two records from some position on. -/
inductive Operands where
  | types (sup sub : Ty)
  | fields (sup sub : List (String × Ty))

/-- A name has to be unfolded before anything can be said. -/
structure NeedsUnfolding (a b : Ty) : Prop where
  ne_void : b ≠ .void
  name : a.shape? = none ∨ b.shape? = none

/-- The comparison makes the calls, answers or fails, and leaves the stack behind. -/
inductive Comparison (types : TypeTable) :
    (assumed : List (Ty × Ty)) → Operands → (calls : List Query) → Except Fault Bool →
      (after : List (Ty × Ty)) → Prop
  | void {assumed a} :
      Comparison types assumed (.types a .void) [⟨assumed, a, .void⟩] (.ok true) assumed
  | primitive {assumed p} (hp : p ∈ [Ty.bool, .char, .int, .string]) :
      Comparison types assumed (.types p p) [⟨assumed, p, p⟩] (.ok true) assumed
  | clash {assumed a b} (hb : b ≠ .void) (ha : a.shape? ≠ none) (hb' : b.shape? ≠ none)
      (hne : a.shape? ≠ b.shape?) :
      Comparison types assumed (.types a b) [⟨assumed, a, b⟩] (.ok false) assumed
  | array {assumed s t calls out after}
      (h : Comparison types assumed (.types s t) calls out after) :
      Comparison types assumed (.types (.array s) (.array t))
        (⟨assumed, .array s, .array t⟩ :: calls) out after
  | longer {assumed fs gs} (hlength : gs.length < fs.length) :
      Comparison types assumed (.types (.record fs) (.record gs))
        [⟨assumed, .record fs, .record gs⟩] (.ok false) assumed
  | record {assumed fs gs calls out after} (hlength : fs.length ≤ gs.length)
      (h : Comparison types assumed (.fields fs gs) calls out after) :
      Comparison types assumed (.types (.record fs) (.record gs))
        (⟨assumed, .record fs, .record gs⟩ :: calls) out after
  | known {assumed a b} (hname : NeedsUnfolding a b) (hmem : (a, b) ∈ assumed) :
      Comparison types assumed (.types a b) [⟨assumed, a, b⟩] (.ok true) assumed
  | supFails {assumed a b f} (hname : NeedsUnfolding a b) (hnew : (a, b) ∉ assumed)
      (ha : a.resolve types = .error f) :
      Comparison types assumed (.types a b) [⟨assumed, a, b⟩] (.error f) assumed
  | subFails {assumed a b s f} (hname : NeedsUnfolding a b) (hnew : (a, b) ∉ assumed)
      (ha : a.resolve types = .ok s) (hb : b.resolve types = .error f) :
      Comparison types assumed (.types a b) [⟨assumed, a, b⟩] (.error f) assumed
  | unfold {assumed a b s t calls out after} (hname : NeedsUnfolding a b)
      (hnew : (a, b) ∉ assumed) (ha : a.resolve types = .ok s) (hb : b.resolve types = .ok t)
      (h : Comparison types ((a, b) :: assumed) (.types s t) calls out after) :
      Comparison types assumed (.types a b) (⟨assumed, a, b⟩ :: calls) out after.tail
  | fieldsEnd {assumed fs gs} (hend : fs = [] ∨ gs = []) :
      Comparison types assumed (.fields fs gs) [] (.ok true) assumed
  | fieldNames {assumed m n s t fs gs} (hne : m ≠ n) :
      Comparison types assumed (.fields ((m, s) :: fs) ((n, t) :: gs)) [] (.ok false) assumed
  | fieldStops {assumed n s t fs gs calls out after}
      (h : Comparison types assumed (.types s t) calls out after) (hout : out ≠ .ok true) :
      Comparison types assumed (.fields ((n, s) :: fs) ((n, t) :: gs)) calls out after
  | fieldAgrees {assumed n s t fs gs calls calls' out after later}
      (h : Comparison types assumed (.types s t) calls (.ok true) after)
      (rest : Comparison types after (.fields fs gs) calls' out later) :
      Comparison types assumed (.fields ((n, s) :: fs) ((n, t) :: gs)) (calls ++ calls') out later

namespace Query

/-- The call goes on with two parts that stand at the same place in its types. -/
inductive Descends : Query → Query → Prop
  | element {assumed s t} : Descends ⟨assumed, .array s, .array t⟩ ⟨assumed, s, t⟩
  | field {assumed fs gs p} (hp : p ∈ fs.zip gs) :
      Descends ⟨assumed, .record fs, .record gs⟩ ⟨assumed, p.1.2, p.2.2⟩

/-- The call goes on with what its types stand for, and assumes the pair meanwhile. -/
inductive Unfolds (types : TypeTable) : Query → Query → Prop
  | mk {assumed a b s t} (hname : NeedsUnfolding a b) (hnew : (a, b) ∉ assumed)
      (ha : a.resolve types = .ok s) (hb : b.resolve types = .ok t) :
      Unfolds types ⟨assumed, a, b⟩ ⟨(a, b) :: assumed, s, t⟩

/-- The first call can make the second one. -/
def Calls (types : TypeTable) (q q' : Query) : Prop := Descends q q' ∨ Unfolds types q q'

/-- The second call is nested in the first one, with a number of unfoldings in between. -/
abbrev Nests (types : TypeTable) : (unfoldings : Nat) → Query → Query → Prop :=
  WhileStatics.Nests Descends (Unfolds types)

end Query

variable {types : TypeTable} {a b s t : Ty} {fs gs : List (String × Ty)}
  {assumed after : List (Ty × Ty)} {operands : Operands} {calls : List Query}
  {out : Except Fault Bool} {q q' : Query} {k : Nat}

/-! ### The stack -/

/-- Every comparison leaves the stack as it was, whether it answers or fails. -/
theorem Comparison.after_eq (h : Comparison types assumed operands calls out after) :
    after = assumed := by
  induction h with
  | array _ ih => exact ih
  | record _ _ ih => exact ih
  | unfold _ _ _ _ _ ih => rw [ih, List.tail_cons]
  | fieldStops _ _ ih => exact ih
  | fieldAgrees _ _ ih ihrest => exact ihrest.trans ih
  | _ => rfl

/-! ### Nested calls -/

/-- Where a call made by a comparison is nested: in the two types, or in two fields at the same
position. -/
def Operands.Nests (types : TypeTable) (assumed : List (Ty × Ty)) : Operands → Query → Prop
  | .types a b, q => ∃ k, Query.Nests types k ⟨assumed, a, b⟩ q
  | .fields fs gs, q =>
      ∃ p ∈ fs.zip gs, ∃ k, Query.Nests types k ⟨assumed, p.1.2, p.2.2⟩ q

/-- All calls that a comparison makes are nested in it. -/
theorem Comparison.nests (h : Comparison types assumed operands calls out after) :
    ∀ q ∈ calls, operands.Nests types assumed q := by
  induction h with
  | void | primitive | clash | longer | known | supFails | subFails =>
      exact List.forall_mem_singleton.2 ⟨0, .refl _⟩
  | array _ ih =>
      refine List.forall_mem_cons.2 ⟨⟨0, .refl _⟩, fun q hq => ?_⟩
      obtain ⟨k, hk⟩ := ih q hq
      exact ⟨k, .plain .element hk⟩
  | record _ _ ih =>
      refine List.forall_mem_cons.2 ⟨⟨0, .refl _⟩, fun q hq => ?_⟩
      obtain ⟨p, hp, k, hk⟩ := ih q hq
      exact ⟨k, .plain (.field hp) hk⟩
  | unfold hname hnew ha hb _ ih =>
      refine List.forall_mem_cons.2 ⟨⟨0, .refl _⟩, fun q hq => ?_⟩
      obtain ⟨k, hk⟩ := ih q hq
      exact ⟨k + 1, .counted ⟨hname, hnew, ha, hb⟩ hk⟩
  | fieldsEnd | fieldNames => simp
  | fieldStops _ _ ih =>
      intro q hq
      obtain ⟨k, hk⟩ := ih q hq
      exact ⟨_, List.mem_cons_self, k, hk⟩
  | fieldAgrees h _ ih ihrest =>
      intro q hq
      rcases List.mem_append.1 hq with hq | hq
      · obtain ⟨k, hk⟩ := ih q hq
        exact ⟨_, List.mem_cons_self, k, hk⟩
      · rw [h.after_eq] at ihrest
        obtain ⟨p, hp, k, hk⟩ := ihrest q hq
        exact ⟨p, List.mem_cons_of_mem _ hp, k, hk⟩

namespace Query

/-- Both types are among the terms. -/
def IsWithin (terms : List Ty) (q : Query) : Prop := q.sup ∈ terms ∧ q.sub ∈ terms

/-- Both types are among the terms, and the assumed pairs are different pairs of them. -/
structure Fits (terms : List Ty) (q : Query) : Prop where
  within : q.IsWithin terms
  nodup : q.assumed.Nodup
  subset : q.assumed ⊆ terms ×ˢ terms

variable {terms : List Ty}

theorem isWithin_comparands (types : TypeTable) (q : Query) :
    q.IsWithin (comparands types q.sup q.sub) :=
  ⟨mem_comparands.2 ⟨q.sup, .inl rfl, self_mem_subterms q.sup⟩,
    mem_comparands.2 ⟨q.sub, .inr (.inl rfl), self_mem_subterms q.sub⟩⟩

theorem Calls.isWithin (hterms : IsClosed types terms) (h : Calls types q q')
    (hq : q.IsWithin terms) : q'.IsWithin terms := by
  rcases h with h | h
  · cases h with
    | element => exact ⟨hterms.element hq.1, hterms.element hq.2⟩
    | field hp =>
        obtain ⟨hf, hg⟩ := List.of_mem_zip hp
        exact ⟨hterms.field hq.1 hf, hterms.field hq.2 hg⟩
  · cases h with
    | mk _ _ ha hb => exact ⟨hterms.resolved hq.1 ha, hterms.resolved hq.2 hb⟩

theorem Calls.fits (hterms : IsClosed types terms) (h : Calls types q q') (hq : q.Fits terms) :
    q'.Fits terms := by
  refine ⟨h.isWithin hterms hq.within, ?_, ?_⟩
  · rcases h with h | h
    · cases h <;> exact hq.nodup
    · cases h with
      | mk _ hnew _ _ => exact List.nodup_cons.2 ⟨hnew, hq.nodup⟩
  · rcases h with h | h
    · cases h <;> exact hq.subset
    · cases h
      exact List.cons_subset.2 ⟨List.mem_product.2 hq.within, hq.subset⟩

/-- Each unfolding puts one pair on the stack. -/
theorem Unfolds.length_assumed (h : Unfolds types q q') :
    q'.assumed.length = q.assumed.length + 1 := by
  cases h
  rfl

/-- There are no more assumed pairs than pairs of terms. -/
theorem Fits.length_assumed_le (hq : q.Fits terms) :
    q.assumed.length ≤ (terms.toFinset ×ˢ terms.toFinset).card := by
  rw [← List.toFinset_card_of_nodup hq.nodup]
  apply Finset.card_le_card
  intro p hp
  have hmem := List.mem_product.1 (hq.subset (List.mem_toFinset.1 hp))
  exact Finset.mem_product.2 ⟨List.mem_toFinset.2 hmem.1, List.mem_toFinset.2 hmem.2⟩

/-! ### Each call is closer to the end -/

theorem size_lt_of_mem {f : String × Ty} (hf : f ∈ fs) : f.2.size < (Ty.record fs).size := by
  rw [Ty.size]
  induction fs with
  | nil => simp at hf
  | cons g fs ih =>
      rw [fieldsSize]
      rcases List.mem_cons.1 hf with rfl | hf
      · omega
      · have hrest := ih hf
        omega

/-- Parts are smaller, and no assumption comes with them. -/
theorem Descends.smaller (h : Descends q q') :
    q'.assumed = q.assumed ∧ q'.sup.size < q.sup.size ∧ q'.sub.size < q.sub.size := by
  cases h with
  | element => exact ⟨rfl, by simp [size], by simp [size]⟩
  | field hp =>
      obtain ⟨hf, hg⟩ := List.of_mem_zip hp
      exact ⟨rfl, size_lt_of_mem hf, size_lt_of_mem hg⟩

/-- Between two unfoldings the types get smaller with each call. -/
theorem smaller_of_nests (h : Nests types 0 q q') :
    q' = q ∨ q'.assumed = q.assumed ∧ q'.sup.size < q.sup.size ∧ q'.sub.size < q.sub.size := by
  generalize hk : 0 = k at h
  induction h with
  | refl => exact .inl rfl
  | plain h _ ih =>
      obtain ⟨hassumed, hsup, hsub⟩ := h.smaller
      obtain rfl | ⟨hassumed', hsup', hsub'⟩ := ih hk
      · exact .inr ⟨hassumed, hsup, hsub⟩
      · exact .inr ⟨hassumed'.trans hassumed, hsup'.trans hsup, hsub'.trans hsub⟩
  | counted => omega

/-- The pairs of terms that are not assumed, and the size of the upper type. -/
def rank (terms : List Ty) (q : Query) : Nat × Nat :=
  (((terms.toFinset ×ˢ terms.toFinset) \ q.assumed.toFinset).card, q.sup.size)

theorem Calls.rank_lt (h : Calls types q q') (hq : q.IsWithin terms) :
    Prod.Lex (· < ·) (· < ·) (q'.rank terms) (q.rank terms) := by
  rcases h with h | h
  · obtain ⟨hassumed, hsize, -⟩ := h.smaller
    rw [rank, rank, hassumed]
    exact .right _ hsize
  · cases h with
    | @mk assumed a b s t _ hnew _ _ =>
        -- The unfolded pair is assumed now and was not before.
        refine .left _ _ (Finset.card_lt_card ?_)
        rw [List.toFinset_cons, Finset.sdiff_insert]
        exact Finset.erase_ssubset (by simpa [hnew, IsWithin] using hq)

/-- No call makes infinitely many nested calls, whatever is assumed and declared. -/
theorem wellFounded_calls (types : TypeTable) :
    WellFounded fun inner outer => Calls types outer inner := by
  refine ⟨fun start => ?_⟩
  have hterms := isClosed_comparands types start.sup start.sub
  exact acc_of_rank (rank (comparands types start.sup start.sub))
    (fun _ _ hcall hq => hcall.isWithin hterms hq) (fun _ _ hcall hq => hcall.rank_lt hq)
    (isWithin_comparands types start)

end Query

/-! ### The budget is enough -/

variable {named : Ty → Ty → Except Fault Bool} {terms : List Ty} {budget : Nat}

theorem exists_comparison_fields
    (h : ∀ p ∈ fs.zip gs, ∃ calls,
      Comparison types assumed (.types p.1.2 p.2.2) calls (compareWith named p.1.2 p.2.2) assumed) :
    ∃ calls,
      Comparison types assumed (.fields fs gs) calls (compareFieldsWith named fs gs) assumed := by
  induction fs generalizing gs with
  | nil =>
      rw [compareFieldsWith]
      · exact ⟨_, .fieldsEnd (.inl rfl)⟩
      · simp
  | cons f fs ih =>
      cases gs with
      | nil =>
          rw [compareFieldsWith]
          · exact ⟨_, .fieldsEnd (.inr rfl)⟩
          · simp
      | cons g gs =>
          obtain ⟨m, s⟩ := f
          obtain ⟨n, t⟩ := g
          rw [List.zip_cons_cons, List.forall_mem_cons] at h
          obtain ⟨⟨calls, hcalls⟩, hrest⟩ := h
          rw [compareFieldsWith]
          by_cases hmn : m = n
          · subst hmn
            rw [if_pos rfl]
            cases hout : compareWith named s t with
            | error f =>
                rw [hout] at hcalls
                exact ⟨_, .fieldStops hcalls (by simp)⟩
            | ok answer =>
                rw [hout] at hcalls
                cases answer with
                | false => exact ⟨_, .fieldStops hcalls (by simp)⟩
                | true =>
                    obtain ⟨calls', hcalls'⟩ := ih hrest
                    exact ⟨_, .fieldAgrees hcalls hcalls'⟩
          · rw [if_neg hmn]
            exact ⟨_, .fieldNames hmn⟩

theorem exists_comparison_types (hterms : IsClosed types terms)
    (hnamed : ∀ s t, s ∈ terms → t ∈ terms → NeedsUnfolding s t →
      ∃ calls, Comparison types assumed (.types s t) calls (named s t) assumed)
    (ha : a ∈ terms) (hb : b ∈ terms) :
    ∃ calls, Comparison types assumed (.types a b) calls (compareWith named a b) assumed := by
  induction a, b using comparison_induction with
  | void a =>
      rw [compareWith_void]
      exact ⟨_, .void⟩
  | name a b hvoid hname =>
      rw [compareWith_of_name hvoid hname]
      exact hnamed a b ha hb ⟨hvoid, hname⟩
  | primitive p hp =>
      rw [compareWith_primitive hp]
      exact ⟨_, .primitive hp⟩
  | array s t ih =>
      rw [compareWith]
      obtain ⟨calls, hcalls⟩ := ih (hterms.element ha) (hterms.element hb)
      exact ⟨_, .array hcalls⟩
  | record fs gs ih =>
      rw [compareWith]
      split
      case isTrue hlength => exact ⟨_, .longer hlength⟩
      case isFalse hlength =>
        obtain ⟨calls, hcalls⟩ := exists_comparison_fields fun p hp =>
          ih p hp (hterms.field ha (List.of_mem_zip hp).1) (hterms.field hb (List.of_mem_zip hp).2)
        exact ⟨_, .record (Nat.le_of_not_lt hlength) hcalls⟩
  | clash a b hvoid hsa hsb hne =>
      rw [compareWith_clash hvoid hsa hsb hne]
      exact ⟨_, .clash hvoid hsa hsb hne⟩

/-- As long as a pair is not assumed, the budget is not used up. -/
theorem Room.exists_succ (room : Room terms budget assumed) (hwithin : a ∈ terms ∧ b ∈ terms)
    (hnew : (a, b) ∉ assumed) : ∃ more, budget = more + 1 := by
  cases budget with
  | zero => exact absurd (room.mem_of_zero hwithin.1 hwithin.2) hnew
  | succ more => exact ⟨more, rfl⟩

/-- With a budget for all pairs of terms, the test is a comparison. -/
theorem Room.exists_comparison (hterms : IsClosed types terms) (room : Room terms budget assumed)
    (ha : a ∈ terms) (hb : b ∈ terms) :
    ∃ calls,
      Comparison types assumed (.types a b) calls (subtypeWithin types budget assumed a b)
        assumed := by
  induction budget generalizing assumed a b with
  | zero =>
      rw [subtypeWithin]
      refine exists_comparison_types hterms (fun s t hs ht hname => ?_) ha hb
      exact ⟨_, .known hname (room.mem_of_zero hs ht)⟩
  | succ budget ih =>
      rw [subtypeWithin]
      refine exists_comparison_types hterms (fun s t hs ht hname => ?_) ha hb
      split
      case isTrue hmem => exact ⟨_, .known hname hmem⟩
      case isFalse hnew =>
        cases hu : s.resolve types with
        | error f => exact ⟨_, .supFails hname hnew hu⟩
        | ok u =>
            cases hv : t.resolve types with
            | error f => exact ⟨_, .subFails hname hnew hu hv⟩
            | ok v =>
                obtain ⟨calls, hcalls⟩ := ih (room.assume hs ht hnew) (hterms.resolved hs hu)
                  (hterms.resolved ht hv)
                exact ⟨_, .unfold hname hnew hu hv hcalls⟩

/-- The decision about a pair with a name in it, as the test makes it with a budget. -/
def decideNamed (types : TypeTable) :
    (budget : Nat) → (assumed : List (Ty × Ty)) → (sup sub : Ty) → Except Fault Bool
  | 0, _, _, _ => .ok true
  | budget + 1, assumed, sup, sub =>
      if assumed.contains (sup, sub) then .ok true
      else do
        let s ← sup.resolve types
        let t ← sub.resolve types
        subtypeWithin types budget ((sup, sub) :: assumed) s t

theorem decideNamed_of_mem (hmem : (a, b) ∈ assumed) :
    decideNamed types budget assumed a b = .ok true := by
  cases budget with
  | zero => rfl
  | succ budget => rw [decideNamed, if_pos (List.contains_iff_mem.2 hmem)]

theorem decideNamed_of_not_mem (hnew : (a, b) ∉ assumed) :
    decideNamed types (budget + 1) assumed a b = (do
      let s ← a.resolve types
      let t ← b.resolve types
      subtypeWithin types budget ((a, b) :: assumed) s t) := by
  rw [decideNamed, if_neg (mt List.contains_iff_mem.1 hnew)]

theorem subtypeWithin_eq (types : TypeTable) (budget : Nat) (assumed : List (Ty × Ty)) :
    subtypeWithin types budget assumed = compareWith (decideNamed types budget assumed) := by
  cases budget with
  | zero => rfl
  | succ budget =>
      rw [subtypeWithin]
      congr 1
      funext a b
      split
      case isTrue hmem => exact (decideNamed_of_mem hmem).symm
      case isFalse hnew => exact (decideNamed_of_not_mem hnew).symm

namespace Operands

/-- What the test says of the operands, given its decisions about names. -/
def outcome (named : Ty → Ty → Except Fault Bool) : Operands → Except Fault Bool
  | .types a b => compareWith named a b
  | .fields fs gs => compareFieldsWith named fs gs

/-- The operands are among the terms. -/
def IsWithin (terms : List Ty) : Operands → Prop
  | .types a b => a ∈ terms ∧ b ∈ terms
  | .fields fs gs => ∀ p ∈ fs.zip gs, p.1.2 ∈ terms ∧ p.2.2 ∈ terms

end Operands

/-- Every comparison has the outcome of the test. -/
theorem Comparison.out_eq (hterms : IsClosed types terms)
    (h : Comparison types assumed operands calls out after) (room : Room terms budget assumed)
    (hwithin : operands.IsWithin terms) :
    out = operands.outcome (decideNamed types budget assumed) := by
  induction h generalizing budget with
  | void => exact compareWith_void.symm
  | primitive hp => exact (compareWith_primitive hp).symm
  | clash hb ha hb' hne => exact (compareWith_clash hb ha hb' hne).symm
  | array _ ih =>
      rw [Operands.outcome, compareWith]
      exact ih room ⟨hterms.element hwithin.1, hterms.element hwithin.2⟩
  | longer hlength => rw [Operands.outcome, compareWith, if_pos hlength]
  | record hlength _ ih =>
      rw [Operands.outcome, compareWith, if_neg (Nat.not_lt.2 hlength)]
      refine ih room fun p hp => ?_
      exact ⟨hterms.field hwithin.1 (List.of_mem_zip hp).1,
        hterms.field hwithin.2 (List.of_mem_zip hp).2⟩
  | known hname hmem =>
      rw [Operands.outcome, compareWith_of_name hname.ne_void hname.name, decideNamed_of_mem hmem]
  | supFails hname hnew ha =>
      obtain ⟨budget, rfl⟩ := room.exists_succ hwithin hnew
      rw [Operands.outcome, compareWith_of_name hname.ne_void hname.name,
        decideNamed_of_not_mem hnew, ha]
      rfl
  | subFails hname hnew ha hb =>
      obtain ⟨budget, rfl⟩ := room.exists_succ hwithin hnew
      rw [Operands.outcome, compareWith_of_name hname.ne_void hname.name,
        decideNamed_of_not_mem hnew, ha, hb]
      rfl
  | unfold hname hnew ha hb _ ih =>
      obtain ⟨budget, rfl⟩ := room.exists_succ hwithin hnew
      rw [Operands.outcome, compareWith_of_name hname.ne_void hname.name,
        decideNamed_of_not_mem hnew, ha, hb, ok_bindM, ok_bindM, subtypeWithin_eq]
      exact ih (room.assume hwithin.1 hwithin.2 hnew)
        ⟨hterms.resolved hwithin.1 ha, hterms.resolved hwithin.2 hb⟩
  | fieldsEnd hend =>
      rcases hend with rfl | rfl <;> simp [Operands.outcome, compareFieldsWith]
  | fieldNames hne => rw [Operands.outcome, compareFieldsWith, if_neg hne]
  | @fieldStops _ _ _ _ _ _ _ out _ _ hout ih =>
      obtain ⟨hpair, -⟩ := List.forall_mem_cons.1 hwithin
      have hanswer := ih room hpair
      rw [Operands.outcome] at hanswer
      rw [Operands.outcome, compareFieldsWith, if_pos rfl, ← hanswer]
      rcases out with f | _ | _
      · rfl
      · rfl
      · exact absurd rfl hout
  | fieldAgrees h _ ih ihrest =>
      obtain ⟨hpair, hrest⟩ := List.forall_mem_cons.1 hwithin
      have hanswer := ih room hpair
      rw [Operands.outcome] at hanswer
      rw [Operands.outcome, compareFieldsWith, if_pos rfl, ← hanswer, ok_bindM, if_pos rfl]
      rw [h.after_eq] at ihrest
      exact ihrest room hrest

/-- Comparing types comes to an end for all declarations, with the answer of the test. Nested calls
assume different pairs of subterms of the two types and of the declared ones, one for each unfolding
that they are nested in, so there are at most as many of these as there are such pairs; between two
unfoldings the types get smaller. Every call leaves the assumed pairs as it found them, whether it
answers or fails. -/
theorem comparisons_unfold_each_pair_once (types : TypeTable) (sup sub : Ty) :
    (WellFounded fun inner outer => Query.Calls types outer inner) ∧
    (∃ calls, Comparison types [] (.types sup sub) calls (isSubtype types sup sub) []) ∧
    (∀ calls out after, Comparison types [] (.types sup sub) calls out after →
      out = isSubtype types sup sub ∧
      ∀ q ∈ calls, ∃ unfoldings, Query.Nests types unfoldings ⟨[], sup, sub⟩ q ∧
        q.assumed.length = unfoldings ∧
        unfoldings ≤ (comparands types sup sub).toFinset.card ^ 2 ∧
        q.assumed.Nodup ∧
        ∀ p ∈ q.assumed, p.1 ∈ comparands types sup sub ∧ p.2 ∈ comparands types sup sub) ∧
    (∀ q q', Query.Nests types 0 q q' →
      q' = q ∨ q'.assumed = q.assumed ∧ q'.sup.size < q.sup.size ∧ q'.sub.size < q.sub.size) ∧
    ∀ assumed operands calls out after,
      Comparison types assumed operands calls out after → after = assumed := by
  have hterms := isClosed_comparands types sup sub
  have hwithin := Query.isWithin_comparands types ⟨[], sup, sub⟩
  have hstart : Query.Fits (comparands types sup sub) ⟨[], sup, sub⟩ :=
    ⟨hwithin, List.nodup_nil, List.nil_subset _⟩
  refine ⟨Query.wellFounded_calls types,
    (Room.start types sup sub).exists_comparison hterms hwithin.1 hwithin.2,
    fun calls out after h => ⟨?_, fun q hq => ?_⟩, fun _ _ => Query.smaller_of_nests,
    fun _ _ _ _ _ => Comparison.after_eq⟩
  · rw [isSubtype, subtypeWithin_eq]
    exact h.out_eq hterms (Room.start types sup sub) hwithin
  · obtain ⟨k, hk⟩ := h.nests q hq
    have hfits : q.Fits (comparands types sup sub) :=
      hk.preserves (fun _ _ h => Query.Calls.fits hterms (.inl h))
        (fun _ _ h => Query.Calls.fits hterms (.inr h)) hstart
    have hlength : q.assumed.length = k := by
      simpa using hk.measure_eq (fun q => q.assumed.length)
        (fun _ _ h => congrArg List.length h.smaller.1) fun _ _ h => h.length_assumed
    refine ⟨k, hk, hlength, ?_, hfits.nodup, fun p hp => List.mem_product.1 (hfits.subset hp)⟩
    rw [← hlength, sq, ← Finset.card_product]
    exact hfits.length_assumed_le

end WhileStatics.Ty
