import WhileStatics.Proofs.AliasChains
import Mathlib.Data.List.Nodup

/-!
# What resolution finds out about a chain of aliases

`Run` is the loop of resolution without a bound: it goes on until a type with a
shape, an undeclared name or a visited name comes up. Each round that does not
end the loop visits another declared name, so there is at most one round more
than there are declared types, and resolution has the outcome of the loop. The
outcome in turn says where the chain leads: `Follows` lists the names on the way.
-/

namespace WhileStatics

namespace Ty

/-- Following the names one after another leads from a type to another one. -/
inductive Follows (types : TypeTable) : (names : List String) → Ty → Ty → Prop
  | nil {t} : Follows types [] t t
  | cons {n d names u} (hd : types.get? n = some d) (tail : Follows types names d.ty u) :
      Follows types (n :: names) (.named n) u

/-- The loop of resolution ends with the outcome after a number of rounds. -/
inductive Run (types : TypeTable) :
    (visited : List String) → Ty → (rounds : Nat) → Except Fault Ty → Prop
  | shape {visited t} (h : t.shape? ≠ none) : Run types visited t 0 (.ok t)
  | cycle {visited n} (hn : n ∈ visited) :
      Run types visited (.named n) 1 (.error (.cyclicType visited n))
  | unknown {visited n} (hn : n ∉ visited) (hd : types.get? n = none) :
      Run types visited (.named n) 1 (.error (.unknownType n))
  | next {visited n d k r} (hn : n ∉ visited) (hd : types.get? n = some d)
      (tail : Run types (visited ++ [n]) d.ty k r) : Run types visited (.named n) (k + 1) r

/-- The names lead from the first type to the second one, and none of them has come back. -/
structure Trace (types : TypeTable) (t : Ty) (names : List String) (u : Ty) : Prop where
  follows : Follows types names t u
  nodup : names.Nodup

/-- What can be said of the chain of a type, by the outcome of its resolution. -/
inductive Verdict (types : TypeTable) (t : Ty) : Except Fault Ty → Prop
  | resolved {names u} (follows : Follows types names t u) (shape : u.shape? ≠ none) :
      Verdict types t (.ok u)
  | unknown {names n} (trace : Trace types t names (.named n)) (hn : n ∉ names)
      (undeclared : types.get? n = none) : Verdict types t (.error (.unknownType n))
  | cyclic {names n} (trace : Trace types t names (.named n)) (hn : n ∈ names) :
      Verdict types t (.error (.cyclicType names n))

variable {types : TypeTable} {names visited : List String} {t u v : Ty} {n : String}
  {k : Nat} {r : Except Fault Ty}

/-! ### Names on the way -/

namespace Follows

theorem snoc {d : TypeDecl} (h : Follows types names t (.named n)) (hd : types.get? n = some d) :
    Follows types (names ++ [n]) t d.ty := by
  generalize hu : Ty.named n = u at h
  induction h with
  | nil =>
      subst hu
      exact .cons hd .nil
  | cons hd' _ ih => exact .cons hd' (ih hu)

theorem declared (h : Follows types names t u) : ∀ m ∈ names, ∃ d, types.get? m = some d := by
  induction h with
  | nil => simp
  | cons hd _ ih => exact List.forall_mem_cons.2 ⟨⟨_, hd⟩, ih⟩

/-- A chain goes on from where its names lead. -/
theorem chainTo (h : Follows types names t u) (chain : ChainTo types k u v) :
    ChainTo types (names.length + k) t v := by
  induction h with
  | nil => simpa using chain
  | cons hd _ ih =>
      rw [List.length_cons, Nat.add_right_comm]
      exact .next hd (ih chain)

/-- From a name on the way, the rest of the way leads to the same type. -/
theorem from_name {after : List String} (h : Follows types (names ++ n :: after) t u) :
    Follows types (n :: after) (.named n) u := by
  induction names generalizing t with
  | nil =>
      cases h with
      | cons hd tail => exact .cons hd tail
  | cons m names ih =>
      cases h with
      | cons _ tail => exact ih tail

/-- A name that is met again lies on a cycle. -/
theorem exists_cycle (h : Follows types names t (.named n)) (hn : n ∈ names) :
    ∃ loop, loop ≠ [] ∧ Follows types loop (.named n) (.named n) := by
  obtain ⟨before, after, rfl⟩ := List.append_of_mem hn
  exact ⟨n :: after, by simp, h.from_name⟩

/-- The loop goes along names that do not come back. -/
theorem run (h : Follows types names t u) (hnodup : (visited ++ names).Nodup)
    (last : Run types (visited ++ names) u k r) : Run types visited t (names.length + k) r := by
  induction h generalizing visited with
  | nil => simpa using last
  | @cons n d names u hd _ ih =>
      have hn : n ∉ visited := by
        rw [List.nodup_append] at hnodup
        exact fun hmem => hnodup.2.2 n hmem n (by simp) rfl
      rw [List.append_cons] at hnodup last
      rw [List.length_cons, Nat.add_right_comm]
      exact .next hn hd (ih hnodup last)

end Follows

namespace Trace

theorem start (types : TypeTable) (t : Ty) : Trace types t [] t := ⟨.nil, List.nodup_nil⟩

theorem next {d : TypeDecl} (trace : Trace types t names (.named n)) (hn : n ∉ names)
    (hd : types.get? n = some d) : Trace types t (names ++ [n]) d.ty where
  follows := trace.follows.snoc hd
  nodup := by simpa using List.Nodup.concat hn trace.nodup

theorem length_le (trace : Trace types t names u) : names.length ≤ types.size :=
  Table.length_le_size trace.nodup trace.follows.declared

end Trace

/-! ### The loop -/

namespace Run

/-- The loop has one outcome and takes one number of rounds. -/
theorem deterministic (run : Run types visited t k r) :
    ∀ {k' r'}, Run types visited t k' r' → k' = k ∧ r' = r := by
  induction run with
  | shape h =>
      intro k' r' run'
      cases run' with
      | shape _ => exact ⟨rfl, rfl⟩
      | _ => exact absurd rfl h
  | cycle hn =>
      intro k' r' run'
      cases run' with
      | shape h => exact absurd rfl h
      | cycle _ => exact ⟨rfl, rfl⟩
      | unknown hn' _ | next hn' _ _ => exact absurd hn hn'
  | unknown hn hd =>
      intro k' r' run'
      cases run' with
      | shape h => exact absurd rfl h
      | cycle hn' => exact absurd hn' hn
      | unknown _ _ => exact ⟨rfl, rfl⟩
      | next _ hd' _ => simp [hd] at hd'
  | next hn hd _ ih =>
      intro k' r' run'
      cases run' with
      | shape h => exact absurd rfl h
      | cycle hn' => exact absurd hn' hn
      | unknown _ hd' => simp [hd] at hd'
      | next _ hd' tail' =>
          obtain rfl := Option.some.inj (hd.symm.trans hd')
          obtain ⟨rfl, rfl⟩ := ih tail'
          exact ⟨rfl, rfl⟩

/-- Following names with enough steps has the outcome of the loop. -/
theorem follow_eq (run : Run types visited t k r) {steps : Nat} (hsteps : k ≤ steps) :
    follow types steps visited t = r := by
  induction run generalizing steps with
  | shape h => exact follow_of_shape h
  | cycle hn =>
      obtain ⟨s, rfl⟩ : ∃ s, steps = s + 1 := ⟨steps - 1, by omega⟩
      rw [follow, if_pos hn]
  | unknown hn hd =>
      obtain ⟨s, rfl⟩ : ∃ s, steps = s + 1 := ⟨steps - 1, by omega⟩
      rw [follow, if_neg hn, hd]
  | next hn hd _ ih =>
      obtain ⟨s, rfl⟩ : ∃ s, steps = s + 1 := ⟨steps - 1, by omega⟩
      rw [follow, if_neg hn, hd]
      exact ih (by omega)

/-- The loop keeps the names on the way, so its outcome tells where the chain leads. -/
theorem verdict (run : Run types visited u k r) (trace : Trace types t visited u) :
    Verdict types t r := by
  induction run with
  | shape hshape => exact .resolved trace.follows hshape
  | cycle hn => exact .cyclic trace hn
  | unknown hn hd => exact .unknown trace hn hd
  | next hn hd _ ih => exact ih (trace.next hn hd)

end Run

/-- The loop ends. The rounds that are left and the names visited so far are together at most one
more than the declared types. -/
theorem Trace.exists_run (trace : Trace types t visited u) :
    ∃ k r, Run types visited u k r ∧ k + visited.length ≤ types.size + 1 := by
  -- The induction is on the number of declared types that are left to visit.
  induction hfree : types.size - visited.length using Nat.strongRecOn generalizing visited u with
  | ind free ih =>
      have hroom := trace.length_le
      cases u with
      | named n =>
          by_cases hn : n ∈ visited
          · exact ⟨1, _, .cycle hn, by omega⟩
          cases hd : types.get? n with
          | none => exact ⟨1, _, .unknown hn hd, by omega⟩
          | some d =>
              have hlength : (visited ++ [n]).length = visited.length + 1 := by simp
              have hroom' := (trace.next hn hd).length_le
              obtain ⟨k, r, run, hk⟩ := ih _ (by omega) (trace.next hn hd) rfl
              exact ⟨k + 1, r, .next hn hd run, by omega⟩
      | _ => exact ⟨0, _, .shape nofun, by omega⟩

/-- Resolution has the outcome of the loop, which ends in time. -/
theorem exists_run_iff (types : TypeTable) (t : Ty) :
    ∃ rounds ≤ types.size + 1,
      ∀ k r, Run types [] t k r ↔ k = rounds ∧ r = t.resolve types := by
  obtain ⟨rounds, r, run, hrounds⟩ := (Trace.start types t).exists_run
  obtain rfl : t.resolve types = r := run.follow_eq hrounds
  refine ⟨rounds, hrounds, fun k r => ⟨run.deterministic, ?_⟩⟩
  rintro ⟨rfl, rfl⟩
  exact run

/-- Resolution has the outcome of a round that ends the loop. -/
theorem Trace.resolve_eq (trace : Trace types t names u) (last : Run types names u 1 r) :
    t.resolve types = r := by
  have hroom := trace.length_le
  have run : Run types [] t (names.length + 1) r := trace.follows.run trace.nodup last
  exact run.follow_eq (by omega)

/-- What resolution yields is what can be said of the chain. -/
theorem verdict_iff : Verdict types t r ↔ t.resolve types = r := by
  constructor
  · intro h
    cases h with
    | resolved follows shape =>
        exact resolve_eq_ok_iff.2 ⟨shape, _, follows.chainTo (.of_shape shape)⟩
    | unknown trace hn undeclared => exact trace.resolve_eq (.unknown hn undeclared)
    | cyclic trace hn => exact trace.resolve_eq (.cycle hn)
  · rintro rfl
    obtain ⟨rounds, _, hrun⟩ := exists_run_iff types t
    exact ((hrun rounds _).2 ⟨rfl, rfl⟩).verdict (.start types t)

/-- Resolution yields the type with a shape that the chain of a type leads to, or blames the
undeclared name that it leads to, or the first name that comes up a second time, which lies on a
cycle then. Its loop takes at most one round more than there are declared types, and what it yields
resolves to itself. -/
theorem resolve_classifies_alias_chains (types : TypeTable) (t : Ty) :
    (∀ u, t.resolve types = .ok u ↔ u.shape? ≠ none ∧ ∃ names, Follows types names t u) ∧
    (∀ n, t.resolve types = .error (.unknownType n) ↔
      types.get? n = none ∧ ∃ names, names.Nodup ∧ n ∉ names ∧ Follows types names t (.named n)) ∧
    (∀ names n, t.resolve types = .error (.cyclicType names n) ↔
      names.Nodup ∧ n ∈ names ∧ Follows types names t (.named n)) ∧
    (∀ f, t.resolve types = .error f →
      (∃ n, f = .unknownType n) ∨
      ∃ names n, f = .cyclicType names n ∧
        f.help? = some ("alias chain: " ++ " -> ".intercalate (names ++ [n])) ∧
        ∃ loop, loop ≠ [] ∧ Follows types loop (.named n) (.named n)) ∧
    (∃ rounds ≤ types.size + 1,
      ∀ k r, Run types [] t k r ↔ k = rounds ∧ r = t.resolve types) ∧
    (t.resolve types).bind (resolve types) = t.resolve types := by
  refine ⟨fun u => ?_, fun n => ?_, fun names n => ?_, fun f hf => ?_,
    exists_run_iff types t, ?_⟩
  · rw [← verdict_iff]
    constructor
    · rintro (⟨follows, shape⟩ | _ | _)
      exact ⟨shape, _, follows⟩
    · rintro ⟨shape, _, follows⟩
      exact .resolved follows shape
  · rw [← verdict_iff]
    constructor
    · rintro (_ | ⟨trace, hn, undeclared⟩ | _)
      exact ⟨undeclared, _, trace.nodup, hn, trace.follows⟩
    · rintro ⟨undeclared, _, nodup, hn, follows⟩
      exact .unknown ⟨follows, nodup⟩ hn undeclared
  · rw [← verdict_iff]
    constructor
    · rintro (_ | _ | ⟨trace, hn⟩)
      exact ⟨trace.nodup, hn, trace.follows⟩
    · rintro ⟨nodup, hn, follows⟩
      exact .cyclic ⟨follows, nodup⟩ hn
  · cases verdict_iff.2 hf with
    | unknown => exact .inl ⟨_, rfl⟩
    | cyclic trace hn => exact .inr ⟨_, _, rfl, rfl, trace.follows.exists_cycle hn⟩
  · cases hr : t.resolve types with
    | error f => rfl
    | ok u => exact resolve_of_resolve hr

/-- Names of which the first one leads to a cycle that it is not on itself. -/
def detour : TypeTable :=
  ((Table.empty.insert "start" { name := "start", ty := .named "left" }).insert
    "left" { name := "left", ty := .named "right" }).insert
    "right" { name := "right", ty := .named "left" }

/-- Resolving the first name of `detour` blames the name at which the cycle is entered. -/
theorem detour_blames_left :
    (Ty.named "start").resolve detour = .error (.cyclicType ["start", "left", "right"] "left") ∧
      ∃ loop, loop ≠ [] ∧ Follows detour loop (.named "left") (.named "left") := by
  have h : (Ty.named "start").resolve detour =
      .error (.cyclicType ["start", "left", "right"] "left") := by rfl
  obtain ⟨_, _, _, hfault, _⟩ := resolve_classifies_alias_chains detour (.named "start")
  obtain ⟨n, hn⟩ | ⟨names, n, hn, _, hloop⟩ := hfault _ h
  · cases hn
  · cases hn
    exact ⟨h, hloop⟩

end Ty
end WhileStatics
