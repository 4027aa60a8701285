import WhileStatics.Proofs.SubtypeOrder
import Mathlib.Data.List.Induction

/-!
# Texts of types

The text of a type determines the type, as long as its names are identifiers and
no type name is the word for a primitive type. So a report that one type was
expected and another one found never shows the same text twice.

## Implementation notes

Texts are read from their end. There the last character tells an array and a
record from each other and from a word, and the brackets of an array come before
its element.
-/

namespace WhileStatics

/-! ### Spelling -/

/-- The characters that stand between names in the text of a type. -/
def isDelimiter (c : Char) : Bool := c ∈ [' ', ',', '[', ']', '\x7b', '\x7d']

/-- The letters and digits that identifiers are made of; no delimiter is one of them. -/
structure Alphabet where
  letter : Char → Bool
  digit : Char → Bool
  separate : ∀ c, letter c = true ∨ digit c = true → isDelimiter c = false

namespace Alphabet

/-- The letters from a to z in both cases and the digits from 0 to 9. -/
def latin : Alphabet where
  letter := Char.isAlpha
  digit := Char.isDigit
  separate c h := by
    rw [← Bool.not_eq_true]
    intro hc
    simp only [isDelimiter, List.mem_cons, List.not_mem_nil, or_false, decide_eq_true_eq] at hc
    rcases hc with rfl | rfl | rfl | rfl | rfl | rfl <;> revert h <;> decide

/-- A letter or an underscore, followed by letters, digits and underscores. -/
def IsIdentifier (α : Alphabet) (n : String) : Prop :=
  n.toList.head?.any (fun c => α.letter c || c == '_') ∧
    n.toList.tail.all fun d => α.letter d || α.digit d || d == '_'

instance (α : Alphabet) (n : String) : Decidable (α.IsIdentifier n) :=
  inferInstanceAs (Decidable (_ ∧ _))

end Alphabet

/-- A text without delimiters that is not empty. -/
structure IsWord (n : String) : Prop where
  ne_nil : n.toList ≠ []
  plain : ∀ c ∈ n.toList, isDelimiter c = false

theorem Alphabet.IsIdentifier.isWord {α : Alphabet} {n : String} (h : α.IsIdentifier n) :
    IsWord n := by
  cases hn : n.toList with
  | nil => simp [IsIdentifier, hn] at h
  | cons c cs =>
      obtain ⟨hc, hcs⟩ : (α.letter c = true ∨ c = '_') ∧
          ∀ d ∈ cs, (α.letter d = true ∨ α.digit d = true) ∨ d = '_' := by
        simpa [IsIdentifier, hn] using h
      refine ⟨by simp [hn], ?_⟩
      rw [hn, List.forall_mem_cons]
      constructor
      · rcases hc with hc | rfl
        · exact α.separate c (.inl hc)
        · rfl
      · intro d hd
        rcases hcs d hd with (hd | hd) | rfl
        · exact α.separate d (.inl hd)
        · exact α.separate d (.inr hd)
        · rfl

namespace Ty

variable {α : Alphabet} {s t : Ty} {r q : List Char}

/-- The names in the type are identifiers, and no type name is the word for a primitive type. -/
inductive IsSpelled (α : Alphabet) : Ty → Prop
  | primitive {p} (hp : p ∈ [Ty.void, .bool, .char, .int, .string]) : IsSpelled α p
  | array {e} (h : IsSpelled α e) : IsSpelled α (.array e)
  | record {fs : List (String × Ty)} (hnames : ∀ f ∈ fs, α.IsIdentifier f.1)
      (h : ∀ f ∈ fs, IsSpelled α f.2) : IsSpelled α (.record fs)
  | named {n} (hn : α.IsIdentifier n) (hfree : n ∉ ["void", "bool", "char", "int", "string"]) :
      IsSpelled α (.named n)

/-- A type that is neither an array nor a record. -/
def IsAtom (t : Ty) : Prop := t.shape? ≠ some .array ∧ t.shape? ≠ some .record

theorem array_or_record_or_isAtom (t : Ty) :
    (∃ e, t = .array e) ∨ (∃ fs, t = .record fs) ∨ t.IsAtom := by
  cases t <;> simp [IsAtom, shape?]

theorem IsSpelled.isWord (h : IsSpelled α t) (hatom : t.IsAtom) : IsWord t.text := by
  cases h with
  | primitive hp =>
      simp only [List.mem_cons, List.not_mem_nil, or_false] at hp
      rcases hp with rfl | rfl | rfl | rfl | rfl <;>
        exact ⟨by decide, by simp [text, isDelimiter]⟩
  | array h => exact absurd rfl hatom.1
  | record hnames h => exact absurd rfl hatom.2
  | named hn hfree =>
      rw [text]
      exact hn.isWord

/-- The words for primitive types differ. -/
theorem eq_of_text_eq_of_primitive : ∀ p ∈ [Ty.void, .bool, .char, .int, .string],
    ∀ p' ∈ [Ty.void, .bool, .char, .int, .string], p.text = p'.text → p = p' := by
  decide

theorem text_of_primitive : ∀ p ∈ [Ty.void, .bool, .char, .int, .string],
    p.text ∈ ["void", "bool", "char", "int", "string"] := by
  decide

theorem IsSpelled.eq_of_isAtom (hs : IsSpelled α s) (ht : IsSpelled α t) (hsatom : s.IsAtom)
    (htatom : t.IsAtom) (h : s.text = t.text) : s = t := by
  cases hs with
  | array | record => simp [IsAtom, shape?] at hsatom
  | primitive hp =>
      cases ht with
      | array | record => simp [IsAtom, shape?] at htatom
      | primitive hp' => exact eq_of_text_eq_of_primitive _ hp _ hp' h
      | named hn hfree =>
          rw [text] at h
          exact absurd (h ▸ text_of_primitive _ hp) hfree
  | named hn hfree =>
      cases ht with
      | array | record => simp [IsAtom, shape?] at htatom
      | primitive hp' =>
          rw [text] at h
          exact absurd (h ▸ text_of_primitive _ hp') hfree
      | named hn' hfree' =>
          rw [text, text] at h
          rw [h]

/-! ### Texts read from their end -/

/-- The characters of a text, the last one first. -/
def backward (n : String) : List Char := n.toList.reverse

theorem backward_append (m n : String) : backward (m ++ n) = backward n ++ backward m := by
  rw [backward, String.toList_append, List.reverse_append]
  rfl

/-- Nothing follows, or a delimiter does. -/
def EndsWord (r : List Char) : Prop := ∀ c ∈ r.head?, isDelimiter c = true

theorem endsWord_cons {c : Char} (hc : isDelimiter c = true) (r : List Char) :
    EndsWord (c :: r) := by
  simpa [EndsWord] using hc

/-- A word and what follows it can be told apart. -/
theorem eq_of_words {m n : String} (hm : IsWord m) (hn : IsWord n) (hr : EndsWord r)
    (hq : EndsWord q) (h : backward m ++ r = backward n ++ q) : m = n ∧ r = q := by
  have hword {n : String} {r : List Char} (hn : IsWord n) (hr : EndsWord r) :
      (backward n ++ r).takeWhile (fun c => !isDelimiter c) = backward n := by
    rw [List.takeWhile_append_of_pos, List.append_right_eq_self]
    · cases r with
      | nil => rfl
      | cons c r => simp [hr c rfl]
    · intro c hc
      rw [hn.plain c (List.mem_reverse.1 hc)]
      rfl
  have hsame : backward m = backward n := by rw [← hword hm hr, ← hword hn hq, h]
  refine ⟨String.toList_inj.1 (List.reverse_inj.1 hsame), ?_⟩
  rw [hsame] at h
  exact List.append_cancel_left h

/-- A word does not begin with a delimiter. -/
theorem backward_append_ne {n : String} (hn : IsWord n) {c : Char} (hc : isDelimiter c = true) :
    backward n ++ r ≠ c :: q := by
  obtain ⟨d, ds, hd⟩ := List.exists_cons_of_ne_nil (List.reverse_ne_nil_iff.2 hn.ne_nil)
  have hplain : isDelimiter d = false := hn.plain d (List.mem_reverse.1 (by simp [hd]))
  intro h
  rw [backward, hd, List.cons_append, List.cons.injEq] at h
  rw [h.1, hc] at hplain
  cases hplain

theorem backward_array (e : Ty) : backward (array e).text = ']' :: '[' :: backward e.text := by
  rw [text, backward_append]
  rfl

/-- The fields of a record between its braces. -/
def fieldsText (fs : List (String × Ty)) : String := ", ".intercalate (fieldTexts fs)

theorem backward_record (fs : List (String × Ty)) :
    backward (record fs).text = '\x7d' :: (backward (fieldsText fs) ++ ['\x7b']) := by
  rw [text, backward_append, backward_append]
  rfl

/-- What is read before the last field of a record: the fields further on the left and the comma
after them, if there are any, and the opening brace. -/
def leading : List (String × Ty) → List Char → List Char
  | [], r => '\x7b' :: r
  | f :: fs, r => ' ' :: ',' :: (backward (fieldsText (f :: fs)) ++ '\x7b' :: r)

theorem endsWord_leading (fs : List (String × Ty)) (r : List Char) : EndsWord (leading fs r) := by
  cases fs <;> exact endsWord_cons rfl _

/-- What is read before the last field shows whether there are more fields. -/
theorem backward_of_leading_eq {fs gs : List (String × Ty)} (h : leading fs r = leading gs q) :
    backward (fieldsText fs) ++ '\x7b' :: r = backward (fieldsText gs) ++ '\x7b' :: q := by
  cases fs with
  | nil =>
      cases gs with
      | nil => exact congrArg _ h
      | cons g gs => simp [leading] at h
  | cons f fs =>
      cases gs with
      | nil => simp [leading] at h
      | cons g gs => simpa [leading] using h

theorem fieldTexts_concat (fs : List (String × Ty)) (f : String × Ty) :
    fieldTexts (fs ++ [f]) = fieldTexts fs ++ [f.2.text ++ " " ++ f.1] := by
  induction fs with
  | nil => rfl
  | cons g fs ih => rw [List.cons_append, fieldTexts, fieldTexts, ih, List.cons_append]

theorem backward_fieldsText_concat (fs : List (String × Ty)) (f : String × Ty) (r : List Char) :
    backward (fieldsText (fs ++ [f])) ++ '\x7b' :: r =
      backward f.1 ++ ' ' :: (backward f.2.text ++ leading fs r) := by
  rw [fieldsText, fieldTexts_concat]
  cases fs with
  | nil => simp [fieldTexts, leading, backward]
  | cons g fs =>
      rw [String.intercalate_append_of_ne_nil (by simp [fieldTexts]) (by simp)]
      simp [leading, backward, fieldsText]

/-! ### Texts determine types -/

/-- The text of the type can be told apart from what follows it. -/
def IsReadable (α : Alphabet) (s : Ty) : Prop :=
  ∀ ⦃t r q⦄, IsSpelled α t → EndsWord r → EndsWord q →
    backward s.text ++ r = backward t.text ++ q → s = t ∧ r = q

theorem isReadable_of_isAtom (hs : IsSpelled α s) (hatom : s.IsAtom) : IsReadable α s := by
  intro t r q ht hr hq h
  obtain ⟨e, rfl⟩ | ⟨fs, rfl⟩ | htatom := array_or_record_or_isAtom t
  · rw [backward_array] at h
    exact absurd h (backward_append_ne (hs.isWord hatom) rfl)
  · rw [backward_record] at h
    exact absurd h (backward_append_ne (hs.isWord hatom) rfl)
  · obtain ⟨htext, hrest⟩ := eq_of_words (hs.isWord hatom) (ht.isWord htatom) hr hq h
    exact ⟨hs.eq_of_isAtom ht hatom htatom htext, hrest⟩

theorem isReadable_array {e : Ty} (he : IsReadable α e) : IsReadable α (.array e) := by
  intro t r q ht hr hq h
  rw [backward_array] at h
  obtain ⟨f, rfl⟩ | ⟨fs, rfl⟩ | htatom := array_or_record_or_isAtom t
  · cases ht with
    | primitive hp => simp at hp
    | array hf =>
        rw [backward_array] at h
        obtain ⟨rfl, hrest⟩ := he hf hr hq (by simpa using h)
        exact ⟨rfl, hrest⟩
  · rw [backward_record] at h
    simp at h
  · exact absurd h.symm (backward_append_ne (ht.isWord htatom) rfl)

theorem isSpelled_record_iff {fs : List (String × Ty)} :
    IsSpelled α (.record fs) ↔ ∀ f ∈ fs, α.IsIdentifier f.1 ∧ IsSpelled α f.2 := by
  constructor
  · intro h
    cases h with
    | primitive hp => simp at hp
    | record hnames h => exact fun f hf => ⟨hnames f hf, h f hf⟩
  · exact fun h => .record (fun f hf => (h f hf).1) fun f hf => (h f hf).2

/-- The fields of a record are read one by one, the last one first. -/
theorem eq_of_backward_fieldsText {fs gs : List (String × Ty)}
    (hfs : ∀ f ∈ fs, α.IsIdentifier f.1 ∧ IsReadable α f.2)
    (hgs : ∀ g ∈ gs, α.IsIdentifier g.1 ∧ IsSpelled α g.2)
    (h : backward (fieldsText fs) ++ '\x7b' :: r = backward (fieldsText gs) ++ '\x7b' :: q) :
    fs = gs ∧ r = q := by
  induction fs using List.reverseRecOn generalizing gs with
  | nil =>
      obtain rfl | ⟨gs, g, rfl⟩ := List.eq_nil_or_concat gs
      · exact ⟨rfl, by simpa using h⟩
      · rw [List.concat_eq_append, backward_fieldsText_concat] at h
        have hword := (hgs g (by simp)).1.isWord
        exact absurd h.symm (backward_append_ne hword rfl)
  | append_singleton fs f ih =>
      rw [backward_fieldsText_concat] at h
      obtain ⟨hf, hread⟩ := hfs f (by simp)
      obtain rfl | ⟨gs, g, rfl⟩ := List.eq_nil_or_concat gs
      · exact absurd h (backward_append_ne hf.isWord rfl)
      rw [List.concat_eq_append] at hgs ⊢
      rw [List.concat_eq_append, backward_fieldsText_concat] at h
      obtain ⟨hg, hspelled⟩ := hgs g (by simp)
      obtain ⟨hname, hafter⟩ := eq_of_words hf.isWord hg.isWord (endsWord_cons rfl _)
        (endsWord_cons rfl _) h
      obtain ⟨hty, hleading⟩ := hread hspelled (endsWord_leading fs r) (endsWord_leading gs q)
        (by simpa using hafter)
      obtain rfl : f = g := Prod.ext hname hty
      obtain ⟨rfl, hrest⟩ := ih (fun e he => hfs e (List.mem_append_left _ he))
        (fun e he => hgs e (List.mem_append_left _ he)) (backward_of_leading_eq hleading)
      exact ⟨rfl, hrest⟩

theorem isReadable_record {fs : List (String × Ty)}
    (hfs : ∀ f ∈ fs, α.IsIdentifier f.1 ∧ IsReadable α f.2) : IsReadable α (.record fs) := by
  intro t r q ht hr hq h
  rw [backward_record] at h
  obtain ⟨e, rfl⟩ | ⟨gs, rfl⟩ | htatom := array_or_record_or_isAtom t
  · rw [backward_array] at h
    simp at h
  · rw [backward_record] at h
    obtain ⟨rfl, hrest⟩ := eq_of_backward_fieldsText hfs (isSpelled_record_iff.1 ht)
      (by simpa using h)
    exact ⟨rfl, hrest⟩
  · exact absurd h.symm (backward_append_ne (ht.isWord htatom) rfl)

theorem IsSpelled.isReadable (h : IsSpelled α s) : IsReadable α s := by
  induction h with
  | primitive hp =>
      refine isReadable_of_isAtom (.primitive hp) ?_
      simp only [List.mem_cons, List.not_mem_nil, or_false] at hp
      rcases hp with rfl | rfl | rfl | rfl | rfl <;> simp [IsAtom, shape?]
  | array _ ih => exact isReadable_array ih
  | record hnames _ ih => exact isReadable_record fun f hf => ⟨hnames f hf, ih f hf⟩
  | named hn hfree => exact isReadable_of_isAtom (.named hn hfree) (by simp [IsAtom, shape?])

/-- Types with the same text are the same. -/
theorem IsSpelled.eq_of_text_eq (hs : IsSpelled α s) (ht : IsSpelled α t) (h : s.text = t.text) :
    s = t := by
  have hback : backward s.text ++ [] = backward t.text ++ [] := by rw [h]
  exact (hs.isReadable ht (by simp [EndsWord]) (by simp [EndsWord]) hback).1

/-! ### Reports -/

/-- Where the names resolve, the only fault is that the types are not related. -/
theorem requireSubtype_eq_error_iff {types : TypeTable} (hs : NamesResolve types s)
    (ht : NamesResolve types t) {f : Fault} :
    requireSubtype types s t = .error f ↔ f = .notSubtype s t ∧ ¬ Below types s t := by
  obtain ⟨answer, hanswer⟩ := isSubtype_total hs ht
  rw [← isSubtype_eq_true_iff hs ht, requireSubtype, hanswer, ok_bindM]
  cases answer <;> simp [eq_comm]

/-- Types that are spelled with identifiers are the same when their texts are. So a report that one
was expected and the other one found does not show the same text twice. -/
theorem texts_of_types_are_unambiguous (α : Alphabet) (types : TypeTable) {s t : Ty}
    (hs : IsSpelled α s) (ht : IsSpelled α t) :
    (s.text = t.text → s = t) ∧
    (NamesResolve types s → NamesResolve types t → ∀ f, requireSubtype types s t = .error f →
      f.message = "expected type `" ++ s.text ++ "`, found `" ++ t.text ++ "`" ∧
        s.text ≠ t.text) := by
  refine ⟨hs.eq_of_text_eq ht, fun hsnames htnames f hf => ?_⟩
  obtain ⟨rfl, hunrelated⟩ := (requireSubtype_eq_error_iff hsnames htnames).1 hf
  refine ⟨rfl, fun htext => ?_⟩
  obtain rfl := hs.eq_of_text_eq ht htext
  exact hunrelated (.refl hsnames)

/-- A stream that is written out up to the type of its tail. -/
def unrolled (head : Ty) (tail : String) : Ty := .record [("head", head), ("tail", .named tail)]

theorem isSpelled_unrolled {head : Ty} (hhead : IsSpelled .latin head) {tail : String}
    (htail : Alphabet.latin.IsIdentifier tail)
    (hfree : tail ∉ ["void", "bool", "char", "int", "string"]) :
    IsSpelled .latin (unrolled head tail) := by
  have hnames : Alphabet.latin.IsIdentifier "head" ∧ Alphabet.latin.IsIdentifier "tail" := by
    decide
  refine isSpelled_record_iff.2 (List.forall_mem_cons.2 ⟨⟨hnames.1, hhead⟩, ?_⟩)
  exact List.forall_mem_singleton.2 ⟨hnames.2, .named htail hfree⟩

/-- A stream of truth values is reported apart from the stream of integers that was expected. -/
theorem unrolled_streams_are_reported_apart :
    requireSubtype streamTypes (unrolled .int "Stream") (unrolled .bool "Odd") =
      .error (.notSubtype (unrolled .int "Stream") (unrolled .bool "Odd")) ∧
    (unrolled .int "Stream").text = "\x7bint head, Stream tail\x7d" ∧
    (unrolled .int "Stream").text ≠ (unrolled .bool "Odd").text := by
  have hdecls : ∀ e ∈ streamTypes.entries, validate streamTypes e.2.ty = .ok () := by
    simp only [streamTypes, List.forall_mem_cons]
    exact ⟨rfl, rfl, rfl, by simp⟩
  have hspelled : IsSpelled .latin (unrolled .int "Stream") :=
    isSpelled_unrolled (.primitive (by simp)) (by decide) (by decide)
  have hspelled' : IsSpelled .latin (unrolled .bool "Odd") :=
    isSpelled_unrolled (.primitive (by simp)) (by decide) (by decide)
  have hfails : requireSubtype streamTypes (unrolled .int "Stream") (unrolled .bool "Odd") =
      .error (.notSubtype (unrolled .int "Stream") (unrolled .bool "Odd")) := rfl
  have htexts := (texts_of_types_are_unambiguous .latin streamTypes hspelled hspelled').2
    (namesResolve_of_validate hdecls rfl) (namesResolve_of_validate hdecls rfl) _ hfails
  exact ⟨hfails, rfl, htexts.2⟩

end Ty
end WhileStatics
