import WhileStatics.Proofs.WellFormed
import WhileStatics.Value.Typing

/-!
# Types of literals

The type of a literal is assembled from the types of its parts, none of which is
a name, so it is in every class of types that is closed under building arrays and
records. In particular it is well formed whatever the declared types are.
-/

namespace WhileStatics

variable {types : TypeTable} {Q : Ty → Prop}

/-- A least upper bound is `void` or one of the types it bounds. -/
theorem Ty.eq_or_mem_of_boundFrom {best r : Ty} {ts : List Ty}
    (h : Ty.boundFrom types best ts = .ok r) : r = best ∨ r ∈ ts := by
  induction ts generalizing best with
  | nil =>
      rw [Ty.boundFrom, Except.ok.injEq] at h
      exact .inl h.symm
  | cons t ts ih =>
      simp only [Ty.boundFrom, bindM_eq_ok_iff] at h
      obtain ⟨above, _, h⟩ := h
      cases above with
      | true =>
          rcases ih h with hr | hr
          · exact .inr (by simp [hr])
          · exact .inr (by simp [hr])
      | false =>
          simp only [Bool.false_eq_true, if_false, bindM_eq_ok_iff] at h
          obtain ⟨below, _, h⟩ := h
          cases below with
          | true =>
              rcases ih h with hr | hr
              · exact .inl hr
              · exact .inr (by simp [hr])
          | false => cases h

theorem Ty.Constructive.leastUpperBound (hQ : Ty.Constructive Q) {ts : List Ty} {r : Ty}
    (hts : ∀ t ∈ ts, Q t) (h : Ty.leastUpperBound types ts = .ok r) : Q r := by
  rcases Ty.eq_or_mem_of_boundFrom h with rfl | hr
  · exact hQ.primitive _ (by simp)
  · exact hts r hr

namespace Value

theorem itemTypes_eq_ok_iff {vs : List Value} {ts : List Ty} :
    itemTypes types vs = .ok ts ↔ List.Forall₂ (fun v t => v.typeOf types = .ok t) vs ts := by
  induction vs generalizing ts with
  | nil => simp [itemTypes, eq_comm]
  | cons v vs ih =>
      simp only [itemTypes, bindM_eq_ok_iff, pureM_eq_ok_iff, List.forall₂_cons_left_iff, ih]
      constructor
      · rintro ⟨t, ht, ts', hts, rfl⟩
        exact ⟨t, ts', ht, hts, rfl⟩
      · rintro ⟨t, ts', ht, hts, rfl⟩
        exact ⟨t, ht, ts', hts, rfl⟩

theorem fieldTypes_eq_ok_iff {seen : List String} {fs : List (String × Value)}
    {ts : List (String × Ty)} :
    fieldTypes types seen fs = .ok ts ↔
      (∀ f ∈ fs, f.1 ∉ seen) ∧ (fs.map Prod.fst).Nodup ∧
        List.Forall₂ (fun f t => f.1 = t.1 ∧ f.2.typeOf types = .ok t.2) fs ts := by
  induction fs generalizing seen ts with
  | nil => simp [fieldTypes, eq_comm]
  | cons f fs ih =>
      obtain ⟨n, v⟩ := f
      by_cases hn : n ∈ seen
      · simp [fieldTypes, hn]
      · simp only [fieldTypes, if_neg hn, bindM_eq_ok_iff, pureM_eq_ok_iff, ih,
          forall_not_mem_cons_iff, List.forall_mem_cons, List.map_cons, List.nodup_cons,
          List.forall₂_cons_left_iff]
        constructor
        · rintro ⟨t, ht, ts', ⟨⟨hfresh, hseen⟩, hnodup, hts⟩, rfl⟩
          exact ⟨⟨hn, hseen⟩, ⟨hfresh, hnodup⟩, (n, t), ts', ⟨rfl, ht⟩, hts, rfl⟩
        · rintro ⟨⟨_, hseen⟩, ⟨hfresh, hnodup⟩, ⟨_, t⟩, ts', ⟨rfl, ht⟩, hts, rfl⟩
          exact ⟨t, ht, ts', ⟨⟨hfresh, hseen⟩, hnodup, hts⟩, rfl⟩

theorem map_fst_of_fieldTypes {fs : List (String × Value)} {ts : List (String × Ty)}
    (h : List.Forall₂ (fun f t => f.1 = t.1 ∧ f.2.typeOf types = .ok t.2) fs ts) :
    ts.map Prod.fst = fs.map Prod.fst := by
  induction h with
  | nil => rfl
  | cons hf _ ih => rw [List.map_cons, List.map_cons, hf.1, ih]

/-- The type of a literal is built of primitive types. -/
theorem constructive_typeOf (hQ : Ty.Constructive Q) {v : Value} {t : Ty}
    (h : v.typeOf types = .ok t) : Q t := by
  induction v generalizing t with
  | bool _ | char _ | int _ | string _ =>
      rw [typeOf, Except.ok.injEq] at h
      subst h
      exact hQ.primitive _ (by simp)
  | array vs ih =>
      simp only [typeOf, bindM_eq_ok_iff, pureM_eq_ok_iff, itemTypes_eq_ok_iff] at h
      obtain ⟨ts, hts, element, hbound, rfl⟩ := h
      have hitems := forall_mem_of_forall₂ hts fun v hv t => ih v hv
      exact hQ.array (hQ.leastUpperBound hitems hbound)
  | record fs ih =>
      simp only [typeOf, bindM_eq_ok_iff, pureM_eq_ok_iff, fieldTypes_eq_ok_iff] at h
      obtain ⟨ts, ⟨_, hnodup, hts⟩, rfl⟩ := h
      refine hQ.record ?_ (forall_mem_of_forall₂ hts fun f hf t ht => ih f hf ht.2)
      rw [map_fst_of_fieldTypes hts]
      exact hnodup

end Value
end WhileStatics
