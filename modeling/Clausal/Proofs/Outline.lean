import Clausal.Formula.Contents
import Clausal.Proofs.FormulaText

/-!
# Outlines of canonical text

The canonical text of an atom is a run of words, brackets, equals signs and commas
with a blank each. Its brackets match, and its commas stand inside them. Which
words there may be is left open.
-/

namespace Clausal

open Lexeme

variable {word : List Char → Prop}

/-- What may stand behind a word. -/
def EndsWord (rest : List Char) : Prop := ∀ c ∈ rest.head?, c ∈ ['(', ',', ')', ']']

theorem Follows.endsWord {rest : List Char} (h : Follows rest) : EndsWord rest :=
  fun c hc => List.mem_cons_of_mem _ (h c hc)

/-- `Outline word depth cs`: in the text `cs` there are `depth` brackets more closed than opened. -/
inductive Outline (word : List Char → Prop) : Nat → List Char → Prop
  | done : Outline word 0 []
  | word {w rest depth} : word w → EndsWord rest → Outline word depth rest →
      Outline word depth (w ++ rest)
  | opening {c rest depth} : c ∈ ['(', '['] → Outline word (depth + 1) rest →
      Outline word depth (c :: rest)
  | closing {c rest depth} : c ∈ [')', ']'] → Outline word depth rest →
      Outline word (depth + 1) (c :: rest)
  | comma {rest depth} : Outline word (depth + 1) rest →
      Outline word (depth + 1) (',' :: ' ' :: rest)
  | equals {rest depth} : Outline word depth rest → Outline word depth ('=' :: rest)

theorem Outline.all {P : Char → Prop} (hw : ∀ w, word w → ∀ c ∈ w, P c)
    (hm : ∀ c ∈ ['(', '[', ')', ']', ',', ' ', '='], P c) {depth : Nat} {cs : List Char}
    (h : Outline word depth cs) : ∀ c ∈ cs, P c := by
  induction h with
  | done => simp
  | word hword _ _ ih => exact List.forall_mem_append.mpr ⟨hw _ hword, ih⟩
  | opening hc _ ih => exact List.forall_mem_cons.mpr ⟨hm _ (by grind), ih⟩
  | closing hc _ ih => exact List.forall_mem_cons.mpr ⟨hm _ (by grind), ih⟩
  | comma _ ih =>
    exact List.forall_mem_cons.mpr
      ⟨hm _ (by simp), List.forall_mem_cons.mpr ⟨hm _ (by simp), ih⟩⟩
  | equals _ ih => exact List.forall_mem_cons.mpr ⟨hm _ (by simp), ih⟩

/-! ## Lists of terms -/

/-- The canonical text of the term is an outline wherever a term may stand. -/
def Outlined (word : List Char → Prop) (t : Term) : Prop := ∀ depth rest, Follows rest →
  Outline word depth rest → Outline word depth (t.chars ++ rest)

section
variable {ts : List Term} (h : ∀ t ∈ ts, Outlined word t)
include h

theorem outline_listed {depth : Nat} {rest : List Char} (hr : Follows rest)
    (ho : Outline word (depth + 1) rest) :
    Outline word (depth + 1) (Text.listed (charsOf ts) ++ rest) := by
  rw [charsOf_eq_map]
  induction ts with
  | nil => exact ho
  | cons t ts ih =>
    cases ts with
    | nil => simpa [Text.listed] using h t (by simp) (depth + 1) rest hr ho
    | cons u us =>
      have hlater := ih fun v hv => h v (by simp [hv])
      rw [List.map_cons, List.map_cons, listed_cons_cons, List.append_assoc]
      exact h t (by simp) (depth + 1) _ (follows_cons (by simp) _) (.comma hlater)

theorem outline_bracketed {c d : Char} (hc : c ∈ ['(', '[']) (hd : d ∈ [')', ']']) {depth : Nat}
    {rest : List Char} (ho : Outline word depth rest) :
    Outline word depth (c :: Text.listed (charsOf ts) ++ d :: rest) :=
  .opening hc (outline_listed h (follows_cons (List.mem_cons_of_mem _ hd) rest) (.closing hd ho))

theorem outline_values {depth : Nat} {rest : List Char} (hr : Follows rest)
    (ho : Outline word depth rest) :
    Outline word depth (valueChars (isLoneTuple ts) (charsOf ts) ++ rest) := by
  have hgroup :=
    outline_bracketed h (by simp : '(' ∈ ['(', '[']) (by simp : ')' ∈ [')', ']']) ho
  cases ts with
  | nil => exact ho
  | cons v vs =>
    cases vs with
    | nil =>
      by_cases ht : v.isTuple = true
      · have hchars : valueChars (isLoneTuple [v]) (charsOf [v]) ++ rest =
            '=' :: ('(' :: Text.listed (charsOf [v]) ++ ')' :: rest) := by
          simp [isLoneTuple, ht, charsOf, valueChars, Text.listed]
        rw [hchars]
        exact .equals hgroup
      · have hchars : valueChars (isLoneTuple [v]) (charsOf [v]) ++ rest =
            '=' :: (v.chars ++ rest) := by
          simp [isLoneTuple, ht, charsOf, valueChars]
        rw [hchars]
        exact .equals (h v (by simp) depth rest hr ho)
    | cons u us =>
      have hchars : valueChars (isLoneTuple (v :: u :: us)) (charsOf (v :: u :: us)) ++ rest =
          '=' :: ('(' :: Text.listed (charsOf (v :: u :: us)) ++ ')' :: rest) := by
        simp [charsOf, valueChars]
      rw [hchars]
      exact .equals hgroup

end

/-! ## Terms and atoms -/

theorem mem_constantsOf {c : Constant} {ts : List Term} :
    c ∈ constantsOf ts ↔ ∃ t ∈ ts, c ∈ t.constants := by
  induction ts with
  | nil => simp [constantsOf]
  | cons t ts ih => simp [constantsOf, Distinct.mem_union, ih]

section
variable (hname : ∀ w, isLowerName w = true ∨ isUpperName w = true → word w)
include hname

theorem Term.WellFormed.outlined {t : Term} (h : t.WellFormed)
    (hc : ∀ c ∈ t.constants, c.WellFormed → word c.chars) :
    Outlined word t := by
  induction h with
  | @var name hn => exact fun depth rest hr ho => .word (hname _ (.inr hn)) hr.endsWord ho
  | @const c hk =>
    exact fun depth rest hr ho => .word (hc c (by simp [constants]) hk) hr.endsWord ho
  | @call name args values hn _ _ iha ihv =>
    intro depth rest hr ho
    have hargs : ∀ t ∈ args, Outlined word t := fun t ht =>
      iha t ht fun c hct => hc c
        (Distinct.mem_union.mpr (.inl (mem_constantsOf.mpr ⟨t, ht, hct⟩)))
    have hvalues : ∀ t ∈ values, Outlined word t := fun t ht =>
      ihv t ht fun c hct => hc c
        (Distinct.mem_union.mpr (.inr (mem_constantsOf.mpr ⟨t, ht, hct⟩)))
    have hchars : (Term.compound name args values).chars ++ rest = name.toList ++
        ('(' :: Text.listed (charsOf args) ++
          ')' :: (valueChars (isLoneTuple values) (charsOf values) ++ rest)) := by
      simp [Term.chars]
    rw [hchars]
    exact .word (hname _ (.inl hn)) (by simp [EndsWord])
      (outline_bracketed hargs (by simp) (by simp) (outline_values hvalues hr ho))
  | @tuple args _ _ ih =>
    intro depth rest hr ho
    have hargs : ∀ t ∈ args, Outlined word t := fun t ht =>
      ih t ht fun c hct => hc c
        (Distinct.mem_union.mpr (.inl (mem_constantsOf.mpr ⟨t, ht, hct⟩)))
    have hchars : (Term.compound "" args []).chars ++ rest =
        '(' :: Text.listed (charsOf args) ++ ')' :: rest := by
      simp [Term.chars, charsOf, valueChars]
    rw [hchars]
    exact outline_bracketed hargs (by simp) (by simp) ho
  | @list items _ ih =>
    intro depth rest hr ho
    have hitems : ∀ t ∈ items, Outlined word t := fun t ht =>
      ih t ht fun c hct => hc c (mem_constantsOf.mpr ⟨t, ht, hct⟩)
    have hchars : (Term.list items).chars ++ rest =
        '[' :: Text.listed (charsOf items) ++ ']' :: rest := by
      simp [Term.chars]
    rw [hchars]
    exact outline_bracketed hitems (by simp) (by simp) ho

omit hname in
theorem Atom.WellFormed.exists_front {a : Atom} (h : a.WellFormed) :
    ∃ c v, a.chars = c :: v ∧ c.isLower = true := by
  obtain ⟨c, v, he, hc⟩ := Reader.exists_cons_of_isName h.name
  unfold chars
  split
  · exact ⟨c, v, he, hc⟩
  · rw [he]
    exact ⟨c, _, rfl, hc⟩

/-- **Outline of an atom.** Brackets match in the text of a well-formed atom. -/
theorem Atom.WellFormed.outline {a : Atom} (h : a.WellFormed)
    (hc : ∀ c ∈ a.constants, c.WellFormed → word c.chars) :
    Outline word 0 a.chars := by
  have hargs : ∀ t ∈ a.args, Outlined word t := fun t ht =>
    (h.args t ht).outlined hname fun c hct => hc c (mem_constantsOf.mpr ⟨t, ht, hct⟩)
  by_cases hne : a.args = []
  · have hchars : a.chars = a.name.toList ++ [] := by unfold Atom.chars; rw [hne, List.append_nil]
    rw [hchars]
    exact .word (hname _ (.inl h.name)) (by simp [EndsWord]) .done
  · have hchars := Atom.chars_of_ne hne []
    rw [List.append_nil] at hchars
    rw [hchars]
    exact .word (hname _ (.inl h.name)) (by simp [EndsWord])
      (outline_bracketed hargs (by simp) (by simp) .done)

end

end Clausal
