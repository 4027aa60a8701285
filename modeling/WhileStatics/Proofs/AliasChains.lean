import WhileStatics.Proofs.Tables
import WhileStatics.Ty.Resolution

/-!
# Chains of aliases

The declared type of a name may be a name again. `ChainTo` follows such a chain
to its end without a bound and without a list of visited names. A chain ends at a
type with a shape, which is what resolution yields, or at a name that is not
declared, which is what it complains about; a chain without an end is a cycle.
-/

namespace WhileStatics

namespace Ty

/-- Following `length` names from a type leads to one that is not the name of a declared type. -/
inductive ChainTo (types : TypeTable) : (length : Nat) → Ty → Ty → Prop
  | stop {t} (h : ∀ n, t = .named n → types.get? n = none) : ChainTo types 0 t t
  | next {k n d u} (h : types.get? n = some d) (tail : ChainTo types k d.ty u) :
      ChainTo types (k + 1) (.named n) u

/-- What resolution makes of the end of a chain. -/
def outcome : Ty → Except Fault Ty
  | .named n => .error (.unknownType n)
  | t => .ok t

theorem outcome_of_shape {t : Ty} (h : t.shape? ≠ none) : t.outcome = .ok t := by
  cases t with
  | named n => exact absurd rfl h
  | _ => rfl

theorem outcome_eq_ok_iff {t u : Ty} : t.outcome = .ok u ↔ t = u ∧ u.shape? ≠ none := by
  cases t with
  | named n =>
      constructor
      · nofun
      · rintro ⟨rfl, h⟩
        exact absurd rfl h
  | _ => grind [outcome, shape?]

namespace ChainTo

variable {types : TypeTable} {t u : Ty} {k : Nat}

theorem of_shape (h : t.shape? ≠ none) : ChainTo types 0 t t :=
  .stop fun _ ht => absurd (shape?_eq_none_iff.2 ⟨_, ht⟩) h

/-- A type has at most one chain. -/
theorem deterministic (chain : ChainTo types k t u) :
    ∀ {k' u'}, ChainTo types k' t u' → k = k' ∧ u = u' := by
  induction chain with
  | stop h =>
      intro k' u' chain'
      cases chain' with
      | stop _ => exact ⟨rfl, rfl⟩
      | next h' _ => simp [h _ rfl] at h'
  | @next k n d u h tail ih =>
      intro k' u' chain'
      cases chain' with
      | stop h' => simp [h' _ rfl] at h
      | @next k' _ d' _ h' tail' =>
          obtain rfl : d = d' := Option.some.inj (h.symm.trans h')
          obtain ⟨hk, hu⟩ := ih tail'
          exact ⟨by rw [hk], hu⟩

theorem declared {n : String} (chain : ChainTo types (k + 1) (.named n) u) :
    ∃ d, types.get? n = some d := by
  cases chain with
  | next h _ => exact ⟨_, h⟩

end ChainTo

/-- Unless it finds a cycle, resolution follows a chain to its end. -/
theorem chainTo_of_follow {types : TypeTable} {steps : Nat} {visited : List String} {t : Ty} :
    (∃ k u, ChainTo types k t u ∧ follow types steps visited t = u.outcome) ∨
      ∃ names n, follow types steps visited t = .error (.cyclicType names n) := by
  fun_induction follow types steps visited t with
  | case1 visited n => exact .inr ⟨visited, n, rfl⟩
  | case2 _ visited n _ => exact .inr ⟨visited, n, rfl⟩
  | case3 _ _ n _ hnone =>
      refine .inl ⟨0, .named n, .stop ?_, rfl⟩
      rintro _ ⟨⟩
      exact hnone
  | case4 _ _ n _ d hd ih =>
      rcases ih with ⟨k, u, chain, h⟩ | hcycle
      · exact .inl ⟨k + 1, u, .next hd chain, h⟩
      · exact .inr hcycle
  | case5 steps visited t h0 h1 =>
      have hfollow : follow types steps visited t = .ok t := by rw [follow] <;> assumption
      have hshape := shape_of_follow hfollow
      exact .inl ⟨0, t, .of_shape hshape, (outcome_of_shape hshape).symm⟩

/-- The names visited lie further from the end of a chain than its current type. -/
structure Trail (types : TypeTable) (k : Nat) (u : Ty) (visited : List String) : Prop where
  nodup : visited.Nodup
  behind : ∀ n ∈ visited, ∃ j, k < j ∧ ChainTo types j (.named n) u

namespace Trail

variable {types : TypeTable} {k : Nat} {u : Ty} {visited : List String} {n : String}

theorem length_le (trail : Trail types k u visited) : visited.length ≤ types.size := by
  apply Table.length_le_size trail.nodup
  intro m hm
  obtain ⟨j, hj, chain⟩ := trail.behind m hm
  obtain ⟨j, rfl⟩ : ∃ i, j = i + 1 := ⟨j - 1, by omega⟩
  exact chain.declared

/-- The current name has not been visited. -/
theorem not_mem (trail : Trail types k u visited) (chain : ChainTo types k (.named n) u) :
    n ∉ visited := by
  intro hn
  obtain ⟨j, hj, chain'⟩ := trail.behind n hn
  have hlength := (chain.deterministic chain').1
  omega

theorem next (trail : Trail types (k + 1) u visited) (chain : ChainTo types (k + 1) (.named n) u) :
    Trail types k u (visited ++ [n]) where
  nodup := by
    refine List.nodup_append.2 ⟨trail.nodup, by simp, ?_⟩
    intro m hm m' hm' he
    exact trail.not_mem chain (List.mem_singleton.1 hm' ▸ he ▸ hm)
  behind := by
    intro m hm
    rcases List.mem_append.1 hm with hm | hm
    · obtain ⟨j, hj, chain'⟩ := trail.behind m hm
      exact ⟨j, by omega, chain'⟩
    · rw [List.mem_singleton.1 hm]
      exact ⟨k + 1, by omega, chain⟩

end Trail

/-- No name comes back on the way to the end of a chain, so the steps suffice. -/
theorem follow_of_chainTo {types : TypeTable} {k : Nat} {t u : Ty} (chain : ChainTo types k t u)
    {steps : Nat} {visited : List String} (trail : Trail types k u visited)
    (hsteps : steps + visited.length = types.size + 1) :
    follow types steps visited t = u.outcome := by
  induction chain generalizing steps visited with
  | @stop t h =>
      have hroom := trail.length_le
      obtain ⟨s, rfl⟩ : ∃ s, steps = s + 1 := ⟨steps - 1, by omega⟩
      cases t with
      | named n => simp only [follow, if_neg (trail.not_mem (.stop h)), h n rfl, outcome]
      | _ => rfl
  | @next k n d u hd tail ih =>
      have hroom := trail.length_le
      have hnew := trail.not_mem (.next hd tail)
      obtain ⟨s, rfl⟩ : ∃ s, steps = s + 1 := ⟨steps - 1, by omega⟩
      simp only [follow, if_neg hnew, hd]
      apply ih (trail.next (.next hd tail))
      rw [List.length_append, List.length_singleton]
      omega

variable {types : TypeTable} {t u : Ty} {n : String}

theorem resolve_of_chainTo {k : Nat} (chain : ChainTo types k t u) :
    t.resolve types = u.outcome :=
  follow_of_chainTo chain ⟨List.nodup_nil, by simp⟩ (by simp)

/-- Resolution makes something of the end of a chain, or finds a cycle. -/
theorem resolve_cases (types : TypeTable) (t : Ty) :
    (∃ k u, ChainTo types k t u ∧ t.resolve types = u.outcome) ∨
      ∃ names n, t.resolve types = .error (.cyclicType names n) :=
  chainTo_of_follow

/-- Resolving fails at a name that is not declared or on a chain that comes back. -/
theorem kind_of_resolve_eq_error {f : Fault} (h : t.resolve types = .error f) :
    f.kind ∈ [.unknownType, .cyclicType] := by
  rcases resolve_cases types t with ⟨k, u, _, hu⟩ | ⟨names, n, hcycle⟩
  · rw [hu] at h
    cases u <;> cases h
    simp [Fault.kind]
  · cases hcycle.symm.trans h
    simp [Fault.kind]

/-- A type resolves to the end of its chain of aliases, if the chain ends at a type with a
shape. -/
theorem resolve_eq_ok_iff :
    t.resolve types = .ok u ↔ u.shape? ≠ none ∧ ∃ k, ChainTo types k t u := by
  constructor
  · intro h
    rcases resolve_cases types t with ⟨k, v, chain, hv⟩ | ⟨names, n, hcycle⟩
    · obtain ⟨rfl, hshape⟩ := outcome_eq_ok_iff.1 (hv.symm.trans h)
      exact ⟨hshape, k, chain⟩
    · cases hcycle.symm.trans h
  · rintro ⟨hshape, k, chain⟩
    rw [resolve_of_chainTo chain, outcome_of_shape hshape]

theorem shape_of_resolve (h : t.resolve types = .ok u) : u.shape? ≠ none :=
  shape_of_follow h

theorem resolve_void : Ty.void.resolve types = .ok .void :=
  resolve_of_shape nofun

theorem resolve_array (e : Ty) : (Ty.array e).resolve types = .ok (.array e) :=
  resolve_of_shape nofun

theorem resolve_record (fs : List (String × Ty)) :
    (Ty.record fs).resolve types = .ok (.record fs) :=
  resolve_of_shape nofun

/-- What a type resolves to resolves to itself. -/
theorem resolve_of_resolve (h : t.resolve types = .ok u) : u.resolve types = .ok u :=
  resolve_of_shape (shape_of_resolve h)

/-- A declared name has the chain of its declared type with itself in front. -/
theorem exists_chainTo_named_iff {d : TypeDecl} (hd : types.get? n = some d) :
    (∃ k, ChainTo types k (.named n) u) ↔ ∃ k, ChainTo types k d.ty u := by
  constructor
  · rintro ⟨k, chain⟩
    cases chain with
    | stop h => simp [h n rfl] at hd
    | @next k _ d' _ hd' tail =>
        obtain rfl : d = d' := Option.some.inj (hd.symm.trans hd')
        exact ⟨k, tail⟩
  · rintro ⟨k, chain⟩
    exact ⟨k + 1, .next hd chain⟩

/-- A declared name resolves to what its declared type resolves to. -/
theorem resolve_named {d : TypeDecl} (hd : types.get? n = some d) :
    (Ty.named n).resolve types = .ok u ↔ d.ty.resolve types = .ok u := by
  rw [resolve_eq_ok_iff, resolve_eq_ok_iff, exists_chainTo_named_iff hd]

/-- Where a declared name does not resolve, neither does its declared type, and for the same
kind of reason. -/
theorem exists_fault_of_resolve_named {d : TypeDecl} (hd : types.get? n = some d) {f : Fault}
    (h : (Ty.named n).resolve types = .error f) :
    ∃ g, d.ty.resolve types = .error g ∧ g.kind = f.kind := by
  rcases resolve_cases types d.ty with ⟨k, u, chain, hu⟩ | ⟨names, m, hcycle⟩
  · have hnamed := resolve_of_chainTo (.next hd chain)
    exact ⟨f, by rw [hu, ← hnamed, h], rfl⟩
  · -- A chain from the name would be one from its declared type, which has none.
    rcases resolve_cases types (.named n) with ⟨k, u, chain, _⟩ | ⟨names', m', hcycle'⟩
    · obtain ⟨k', chain'⟩ := (exists_chainTo_named_iff hd).1 ⟨k, chain⟩
      have houtcome := (resolve_of_chainTo chain').symm.trans hcycle
      cases u <;> cases houtcome
    · obtain rfl := Except.error.inj (hcycle'.symm.trans h)
      exact ⟨_, hcycle, rfl⟩

end Ty
end WhileStatics
