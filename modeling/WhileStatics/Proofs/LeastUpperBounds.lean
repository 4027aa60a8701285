import WhileStatics.Proofs.Literals
import WhileStatics.Proofs.SubtypeOrder

/-!
# Least upper bounds

A least upper bound is found by keeping the largest type seen so far and
comparing the next one with it. Types that are not comparable have no bound among
them, so how far the search gets depends on the order of the list: it goes
through when every prefix has a maximum. What it then yields is the least type
above all listed ones, and another order that goes through yields an equivalent
type.
-/

namespace WhileStatics.Ty

variable {types : TypeTable} {a b best r t u : Ty} {ts : List Ty}

/-! ### Maxima -/

/-- One of the listed types is above all of them. -/
def HasMaximum (types : TypeTable) (ts : List Ty) : Prop :=
  ∃ m ∈ ts, ∀ t ∈ ts, Below types m t

theorem below_void : Below types a .void :=
  .of_matches (.void resolve_void)

/-- A type below one of the others can be left out. -/
theorem hasMaximum_cons_cons_iff (h : Below types a b) :
    HasMaximum types (b :: a :: ts) ↔ HasMaximum types (a :: ts) := by
  constructor
  · rintro ⟨m, hm, hall⟩
    rcases List.mem_cons.1 hm with rfl | hm
    · exact ⟨a, by simp, fun t ht => h.trans (hall t (List.mem_cons_of_mem _ ht))⟩
    · exact ⟨m, hm, fun t ht => hall t (List.mem_cons_of_mem _ ht)⟩
  · rintro ⟨m, hm, hall⟩
    have hb : Below types m b := (hall a (by simp)).trans h
    exact ⟨m, List.mem_cons_of_mem _ hm, List.forall_mem_cons.2 ⟨hb, hall⟩⟩

theorem hasMaximum_swap_iff :
    HasMaximum types (a :: b :: ts) ↔ HasMaximum types (b :: a :: ts) := by
  simp only [HasMaximum, (List.Perm.swap b a ts).mem_iff]

theorem below_or_below_of_hasMaximum (h : HasMaximum types [a, b]) :
    Below types a b ∨ Below types b a := by
  obtain ⟨m, hm, hall⟩ := h
  rcases List.mem_pair.1 hm with rfl | rfl
  · exact .inl (hall b (by simp))
  · exact .inr (hall a (by simp))

/-- `void` has no part in the maximum of a list that holds another type. -/
theorem hasMaximum_void_cons_iff (h : ts ≠ []) :
    HasMaximum types (.void :: ts) ↔ HasMaximum types ts := by
  obtain ⟨t, ts, rfl⟩ := List.exists_cons_of_ne_nil h
  exact hasMaximum_cons_cons_iff below_void

/-! ### One step of the search -/

theorem isSubtype_cases (ha : NamesResolve types a) (hb : NamesResolve types b) :
    (Below types a b ∧ isSubtype types a b = .ok true) ∨
      (¬ Below types a b ∧ isSubtype types a b = .ok false) := by
  obtain ⟨answer, hanswer⟩ := isSubtype_total ha hb
  rw [← isSubtype_eq_true_iff ha hb, hanswer]
  cases answer <;> simp

/-- A search takes the next type, keeps what it has, or ends at two types that are not
comparable. -/
theorem boundFrom_cons_cases (hbest : NamesResolve types best) (ht : NamesResolve types t)
    (ts : List Ty) :
    (Below types t best ∧ boundFrom types best (t :: ts) = boundFrom types t ts) ∨
    (Below types best t ∧ boundFrom types best (t :: ts) = boundFrom types best ts) ∨
    (¬ Below types t best ∧ ¬ Below types best t ∧
      boundFrom types best (t :: ts) = .error (.noCommonSupertype best t)) := by
  rw [boundFrom]
  obtain ⟨habove, hanswer⟩ | ⟨habove, hanswer⟩ := isSubtype_cases ht hbest
  · exact .inl ⟨habove, by rw [hanswer, ok_bindM, if_pos rfl]⟩
  obtain ⟨hbelow, hanswer'⟩ | ⟨hbelow, hanswer'⟩ := isSubtype_cases hbest ht
  · exact .inr (.inl ⟨hbelow, by simp [hanswer, hanswer', ok_bindM]⟩)
  · exact .inr (.inr ⟨habove, hbelow, by simp [hanswer, hanswer', ok_bindM]⟩)

/-! ### The whole search -/

theorem failsOnly_boundFrom (hbest : NamesResolve types best)
    (hts : ∀ t ∈ ts, NamesResolve types t) :
    FailsOnly (fun fault => fault.kind = .typeMismatch) (boundFrom types best ts) := by
  induction ts generalizing best with
  | nil => exact failsOnly_ok _
  | cons t ts ih =>
      rw [List.forall_mem_cons] at hts
      obtain ⟨_, hstep⟩ | ⟨_, hstep⟩ | ⟨_, _, hstep⟩ := boundFrom_cons_cases hbest hts.1 ts
      · rw [hstep]
        exact ih hts.1 hts.2
      · rw [hstep]
        exact ih hbest hts.2
      · rw [hstep, failsOnly_error_iff]
        rfl

/-- What a search yields is above the type it started from and above all listed ones. -/
theorem below_of_boundFrom (hbest : NamesResolve types best)
    (hts : ∀ t ∈ ts, NamesResolve types t) (h : boundFrom types best ts = .ok r) :
    ∀ t ∈ best :: ts, Below types r t := by
  induction ts generalizing best with
  | nil =>
      rw [boundFrom, Except.ok.injEq] at h
      subst h
      simpa using Below.refl hbest
  | cons t ts ih =>
      rw [List.forall_mem_cons] at hts
      simp only [List.forall_mem_cons] at ih ⊢
      obtain ⟨habove, hstep⟩ | ⟨hbelow, hstep⟩ | ⟨_, _, hstep⟩ :=
        boundFrom_cons_cases hbest hts.1 ts
      · obtain ⟨ht, hrest⟩ := ih hts.1 hts.2 (hstep ▸ h)
        exact ⟨ht.trans habove, ht, hrest⟩
      · obtain ⟨hr, hrest⟩ := ih hbest hts.2 (hstep ▸ h)
        exact ⟨hr, hr.trans hbelow, hrest⟩
      · cases hstep.symm.trans h

/-- A search goes through exactly when every prefix of the list has a maximum together with the
type that the search starts from. -/
theorem exists_boundFrom_iff (hbest : NamesResolve types best)
    (hts : ∀ t ∈ ts, NamesResolve types t) :
    (∃ r, boundFrom types best ts = .ok r) ↔
      ∀ pre, pre <+: ts → HasMaximum types (best :: pre) := by
  induction ts generalizing best with
  | nil =>
      have hmax : HasMaximum types [best] := ⟨best, by simp, by simpa using Below.refl hbest⟩
      simpa [boundFrom] using hmax
  | cons t ts ih =>
      rw [List.forall_mem_cons] at hts
      -- The empty prefix has a maximum, and all others begin with `t`.
      have hprefixes : (∀ pre, pre <+: t :: ts → HasMaximum types (best :: pre)) ↔
          ∀ pre, pre <+: ts → HasMaximum types (best :: t :: pre) := by
        constructor
        · intro h pre hpre
          exact h (t :: pre) (by simpa using hpre)
        · intro h pre hpre
          rcases List.prefix_cons_iff.1 hpre with rfl | ⟨rest, rfl, hrest⟩
          · exact ⟨best, by simp, by simpa using Below.refl hbest⟩
          · exact h rest hrest
      rw [hprefixes]
      obtain ⟨habove, hstep⟩ | ⟨hbelow, hstep⟩ | ⟨habove, hbelow, hstep⟩ :=
        boundFrom_cons_cases hbest hts.1 ts
      · simp only [hstep, ih hts.1 hts.2, hasMaximum_cons_cons_iff habove]
      · simp only [hstep, ih hbest hts.2, hasMaximum_swap_iff (a := best),
          hasMaximum_cons_cons_iff hbelow]
      · constructor
        · rintro ⟨r, hr⟩
          cases hstep.symm.trans hr
        · intro h
          rcases below_or_below_of_hasMaximum (h [] List.nil_prefix) with h | h
          · exact absurd h hbelow
          · exact absurd h habove

/-! ### Least upper bounds -/

theorem failsOnly_leastUpperBound (hts : ∀ t ∈ ts, NamesResolve types t) :
    FailsOnly (fun fault => fault.kind = .typeMismatch) (leastUpperBound types ts) :=
  failsOnly_boundFrom ((constructive_namesResolve types).primitive _ (by simp)) hts

/-- A type is above the least upper bound exactly when it is above all listed types. -/
theorem below_leastUpperBound_iff (hts : ∀ t ∈ ts, NamesResolve types t)
    (h : leastUpperBound types ts = .ok r) : Below types u r ↔ ∀ t ∈ ts, Below types u t := by
  have hvoid := (constructive_namesResolve types).primitive .void (by simp)
  constructor
  · intro hur t ht
    exact hur.trans (below_of_boundFrom hvoid hts h t (List.mem_cons_of_mem _ ht))
  · intro hu
    rcases eq_or_mem_of_boundFrom h with rfl | hr
    · exact below_void
    · exact hu r hr

theorem exists_leastUpperBound_iff (hts : ∀ t ∈ ts, NamesResolve types t) :
    (∃ r, leastUpperBound types ts = .ok r) ↔
      ∀ pre, pre <+: ts → pre ≠ [] → HasMaximum types pre := by
  have hvoid := (constructive_namesResolve types).primitive .void (by simp)
  rw [leastUpperBound, exists_boundFrom_iff hvoid hts]
  constructor
  · intro h pre hpre hne
    exact (hasMaximum_void_cons_iff hne).1 (h pre hpre)
  · intro h pre hpre
    by_cases hne : pre = []
    · subst hne
      exact ⟨.void, by simp, by simpa using below_void⟩
    · exact (hasMaximum_void_cons_iff hne).2 (h pre hpre hne)

/-- A list that holds the same types in another order has an equivalent bound, if it has one. -/
theorem equivalent_leastUpperBound_of_perm {ts' : List Ty} {r' : Ty}
    (hts : ∀ t ∈ ts, NamesResolve types t) (hperm : ts.Perm ts')
    (h : leastUpperBound types ts = .ok r) (h' : leastUpperBound types ts' = .ok r') :
    equivalent types r r' = .ok true := by
  have hnames := constructive_namesResolve types
  have hts' : ∀ t ∈ ts', NamesResolve types t := fun t ht => hts t (hperm.mem_iff.2 ht)
  have hr := hnames.leastUpperBound hts h
  have hr' := hnames.leastUpperBound hts' h'
  have hsame (u : Ty) : Below types u r ↔ Below types u r' := by
    simp only [below_leastUpperBound_iff hts h, below_leastUpperBound_iff hts' h', hperm.mem_iff]
  rw [equivalent_eq_true_iff hr hr']
  exact ⟨(hsame r).1 (.refl hr), (hsame r').2 (.refl hr')⟩

/-- Least upper bounds exist exactly where every prefix of the list has a maximum, and where there
is none the fault is one of mismatching types. A bound is above all listed types and below every
other type that is, and bounds that are found in two orders are equivalent. -/
theorem leastUpperBound_exists_iff_prefixes_have_maxima (hts : ∀ t ∈ ts, NamesResolve types t) :
    ((∃ r, leastUpperBound types ts = .ok r) ↔
      ∀ pre, pre <+: ts → pre ≠ [] →
        ∃ m ∈ pre, ∀ t ∈ pre, isSubtype types m t = .ok true) ∧
    (∀ fault, leastUpperBound types ts = .error fault → fault.kind = .typeMismatch) ∧
    (∀ r, leastUpperBound types ts = .ok r →
      (∀ t ∈ ts, isSubtype types r t = .ok true) ∧
      ∀ u, NamesResolve types u → (∀ t ∈ ts, isSubtype types u t = .ok true) →
        isSubtype types u r = .ok true) ∧
    ∀ ts' r r', ts.Perm ts' → leastUpperBound types ts = .ok r →
      leastUpperBound types ts' = .ok r' → equivalent types r r' = .ok true := by
  have habove : ∀ {u}, NamesResolve types u →
      ((∀ t ∈ ts, isSubtype types u t = .ok true) ↔ ∀ t ∈ ts, Below types u t) := by
    intro u hu
    exact forall₂_congr fun t ht => isSubtype_eq_true_iff hu (hts t ht)
  refine ⟨?_, failsOnly_leastUpperBound hts, ?_, ?_⟩
  · rw [exists_leastUpperBound_iff hts]
    refine forall₂_congr fun pre hpre => forall_congr' fun _ => ?_
    refine exists_congr fun m => and_congr_right fun hm => forall₂_congr fun t ht => ?_
    exact (isSubtype_eq_true_iff (hts m (hpre.subset hm)) (hts t (hpre.subset ht))).symm
  · intro r hr
    have hnames := (constructive_namesResolve types).leastUpperBound hts hr
    have hleast := fun u => below_leastUpperBound_iff (u := u) hts hr
    refine ⟨(habove hnames).2 ((hleast r).1 (.refl hnames)), fun u hu hall => ?_⟩
    exact (isSubtype_eq_true_iff hu hnames).2 ((hleast u).2 ((habove hu).1 hall))
  · intro ts' r r' hperm hr hr'
    exact equivalent_leastUpperBound_of_perm hts hperm hr hr'

/-- Streams of which each item carries a text. -/
def tagged : Ty := .record [("head", .int), ("tail", .named "Stream"), ("tag", .string)]

/-- Streams of which each item carries a number. -/
def numbered : Ty := .record [("head", .int), ("tail", .named "Even"), ("number", .int)]

/-- The two ways of declaring streams are bounds of the streams with more fields. Which of them is
found depends on the order, and with the incomparable types first none is found. -/
theorem streams_bounded_after_their_bound :
    leastUpperBound streamTypes [tagged, .named "Even", .named "Stream", numbered] =
      .ok (.named "Stream") ∧
    leastUpperBound streamTypes [numbered, .named "Stream", .named "Even", tagged] =
      .ok (.named "Even") ∧
    equivalent streamTypes (.named "Stream") (.named "Even") = .ok true ∧
    ¬ ∀ pre, pre <+: [tagged, numbered, .named "Even", .named "Stream"] → pre ≠ [] →
      ∃ m ∈ pre, ∀ t ∈ pre, isSubtype streamTypes m t = .ok true := by
  have hdecls : ∀ e ∈ streamTypes.entries, validate streamTypes e.2.ty = .ok () := by
    simp only [streamTypes, List.forall_mem_cons]
    exact ⟨rfl, rfl, rfl, by simp⟩
  have hnames : ∀ t ∈ [tagged, numbered, .named "Even", .named "Stream"],
      NamesResolve streamTypes t := by
    intro t ht
    apply namesResolve_of_validate hdecls
    simp only [List.mem_cons, List.not_mem_nil, or_false] at ht
    rcases ht with rfl | rfl | rfl | rfl <;> rfl
  have hfirst : leastUpperBound streamTypes
      [tagged, .named "Even", .named "Stream", numbered] = .ok (.named "Stream") := rfl
  have hsecond : leastUpperBound streamTypes
      [numbered, .named "Stream", .named "Even", tagged] = .ok (.named "Even") := rfl
  refine ⟨hfirst, hsecond, ?_, fun hmax => ?_⟩
  · refine (leastUpperBound_exists_iff_prefixes_have_maxima fun t ht => hnames t ?_).2.2.2
      _ _ _ (List.reverse_perm _).symm hfirst hsecond
    simp only [List.mem_cons] at ht ⊢
    tauto
  · obtain ⟨r, hr⟩ := (leastUpperBound_exists_iff_prefixes_have_maxima hnames).1.2 hmax
    cases hr

end WhileStatics.Ty
