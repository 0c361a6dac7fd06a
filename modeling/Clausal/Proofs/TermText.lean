import Clausal.Proofs.Binary64
import Clausal.Proofs.Grammar
import Clausal.Proofs.WellFormed
import Clausal.Term.Text

/-!
# The canonical text of terms derives from the grammar

By induction on well-formed terms. What follows a term in canonical text, a comma
or a closing bracket, lengthens none of its tokens.
-/

namespace Clausal

open Lexeme

/-- What may stand behind a term in canonical text. -/
def Follows (rest : List Char) : Prop := ∀ c ∈ rest.head?, c ∈ [',', ')', ']']

theorem follows_nil : Follows [] := by simp [Follows]

theorem follows_cons {c : Char} (hc : c ∈ [',', ')', ']']) (rest : List Char) :
    Follows (c :: rest) := by
  simpa [Follows] using hc

theorem Follows.stops {inside : Char → Bool} {rest : List Char} (h : Follows rest)
    (hi : [',', ')', ']'].any inside = false) : Stops inside rest :=
  fun c hc => by simpa using List.any_eq_false.mp hi c (h c hc)

/-! ## Constants and variables -/

theorem Follows.longest_numeral {sign whole fraction rest : List Char} (h : Follows rest)
    (hs : IsSign sign) (hw : IsDigits whole) (hf : IsFraction fraction) :
    Longest (sign ++ whole ++ fraction) rest := by
  apply Clausal.longest_numeral hs hw hf (h.stops rfl)
  intro _ d tail hrest
  have := h '.' (by simp [hrest])
  simp at this

theorem quotedMeaning?_of_alphanum {literal inner : List Char} {c : Char} (hc : c.isAlphanum = true)
    (hp : isPlain (c :: inner) = false) :
    quotedMeaning? literal (c :: inner) = some (.str (String.ofList literal)) := by
  rw [isAlphanum_iff] at hc
  simp only [quotedMeaning?, hp, Bool.or_eq_true, Bool.false_eq_true, ite_false]
  by_cases hu : c.isUpper = true ∨ c.isDigit = true
  · rw [if_pos hu]
  · rw [if_neg hu, if_pos]
    rcases hc with (hc | hc) | hc
    · exact absurd (.inl hc) hu
    · exact hc
    · exact absurd (.inr hc) hu

theorem Constant.WellFormed.token {c : Constant} (h : c.WellFormed) {rest : List Char}
    (hr : Follows rest) :
    Longest c.chars rest ∧ meaning? c.chars = some (.const c) := by
  have hname : Stops isNameChar rest := hr.stops rfl
  cases h with
  | @bool b =>
    cases b with
    | true => exact ⟨longest_lower (by decide) hname, meaning?_lower (by decide)⟩
    | false => exact ⟨longest_lower (by decide) hname, meaning?_lower (by decide)⟩
  | @int n =>
    refine ⟨?_, meaning?_ofInt n⟩
    have := hr.longest_numeral (Numeral.isSign_sign (decide (n.toInt < 0)))
      (Numeral.isDigits_ofNat n.toInt.natAbs) .none
    rw [List.append_nil, ← Numeral.ofInt_eq] at this
    exact this
  | float hx =>
    refine ⟨?_, Binary64.meaning?_chars hx⟩
    obtain ⟨whole, ds, he, hw, hd, -⟩ := Binary64.chars_eq hx
    simp only [Constant.chars, he]
    exact hr.longest_numeral (Numeral.isSign_sign _) hw (.point hd)
  | @plain s hs =>
    simp only [isPlain, Bool.and_eq_true, Option.isNone_iff_eq_none] at hs
    refine ⟨longest_lower hs.1 hname, ?_⟩
    simp only [Constant.chars, meaning?_lower hs.1, hs.2, String.ofList_toList]
  | @quoted s hs =>
    have hback : s = String.ofList s.toList := String.ofList_toList.symm
    simp only [Constant.chars]
    generalize s.toList = w at hs hback
    cases hs with
    | mk hq hi hc hp =>
      refine ⟨longest_literal rest hq hi, ?_⟩
      rw [meaning?_literal hq hi, quotedMeaning?_of_alphanum hc hp, hback]
      rfl

/-! ## Sequences and groups -/

/-- The canonical text of the term derives wherever a term may stand. -/
def Printed (t : Term) : Prop := ∀ rest, Follows rest → Derives (.term t) (t.chars ++ rest) rest

theorem charsOf_eq_map (ts : List Term) : charsOf ts = ts.map Term.chars := by
  induction ts with
  | nil => rfl
  | cons t ts ih => rw [charsOf, ih, List.map_cons]

theorem listed_cons_cons (w v : List Char) (ws : List (List Char)) :
    Text.listed (w :: v :: ws) = w ++ ',' :: ' ' :: Text.listed (v :: ws) := by
  unfold Text.listed
  rw [List.intercalate_cons_cons]
  simp

section
variable {ts : List Term} (h : ∀ t ∈ ts, Printed t)
include h

theorem derives_listed (hne : ts ≠ []) {rest : List Char} (hr : Follows rest) :
    Derives (.sequence ts) (Text.listed (charsOf ts) ++ rest) rest := by
  rw [charsOf_eq_map]
  induction ts with
  | nil => exact absurd rfl hne
  | cons t ts ih =>
    cases ts with
    | nil =>
      have ht := h t (by simp) rest hr
      exact .one (by simpa [Text.listed] using ht)
    | cons u us =>
      have hlater := ih (fun v hv => h v (by simp [hv])) (by simp)
      have ht := h t (by simp) (',' :: ' ' :: (Text.listed ((u :: us).map Term.chars) ++ rest))
        (follows_cons (by simp) _)
      rw [List.map_cons, List.map_cons, listed_cons_cons, List.append_assoc]
      exact .more ht .none (hlater.of_junk (.blank rfl .none))

theorem derives_group_text (hne : ts ≠ []) (rest : List Char) :
    Derives (.group ts) ('(' :: Text.listed (charsOf ts) ++ ')' :: rest) rest :=
  .group .none (derives_listed h hne (follows_cons (by simp) rest)) .none

theorem derives_arguments_text (rest : List Char) :
    Derives (.arguments ts) ('(' :: Text.listed (charsOf ts) ++ ')' :: rest) rest := by
  by_cases hne : ts = []
  · subst hne
    exact .noArguments .none .none
  · exact .arguments (derives_group_text h hne rest)

theorem derives_list_text (rest : List Char) :
    Derives (.list ts) ((Term.list ts).chars ++ rest) rest := by
  have hchars : (Term.list ts).chars ++ rest =
      '[' :: (Text.listed (charsOf ts) ++ ']' :: rest) := by
    simp [Term.chars]
  rw [hchars]
  by_cases hne : ts = []
  · subst hne
    exact .emptyList .none .none
  · exact .items .none (derives_listed h hne (follows_cons (by simp) rest)) .none

end

/-! ## Calls -/

/-- Only tuples begin with a parenthesis. -/
theorem Term.WellFormed.not_open {t : Term} (h : t.WellFormed) (ht : t.isTuple = false)
    (rest s : List Char) :
    ¬ Junk (t.chars ++ rest) ('(' :: s) := by
  have hfirst : ∃ c w, t.chars ++ rest = c :: w ∧ isSolid c = true ∧ c ≠ '(' := by
    have hlead {c : Char} {l : Lead} (hl : lead? c = some l) : isSolid c = true ∧ c ≠ '(' :=
      ⟨isSolid_of_lead hl, fun hc => by rw [hc] at hl; cases hl⟩
    cases h with
    | var hn =>
      obtain ⟨c, v, he, hc⟩ := Reader.exists_cons_of_isName hn
      exact ⟨c, v ++ rest, by simp [Term.chars, he], hlead (lead?_of_isUpper hc)⟩
    | @const k hk =>
      obtain ⟨c, v, l, he, hl⟩ := (hk.token follows_nil).1.isToken.exists_lead
      exact ⟨c, v ++ rest, by simp [Term.chars, he], hlead hl⟩
    | @call name args values hn _ _ =>
      obtain ⟨c, v, he, hc⟩ := Reader.exists_cons_of_isName hn
      have hsplit : (Term.compound name args values).chars ++ rest =
          name.toList ++ ('(' :: Text.listed (charsOf args) ++
            ')' :: valueChars (isLoneTuple values) (charsOf values) ++ rest) := by simp [Term.chars]
      rw [he] at hsplit
      exact ⟨c, _, hsplit, hlead (lead?_of_isLower hc)⟩
    | tuple _ _ => cases ht
    | list _ => exact ⟨'[', _, rfl, rfl, by decide⟩
  obtain ⟨c, w, he, hc, hne⟩ := hfirst
  rw [he]
  intro hj
  have := skipJunk_of_junk rfl hj
  rw [skipJunk_solid hc, List.cons.injEq] at this
  exact hne this.1

section
variable {args values : List Term} (ha : ∀ t ∈ args, Printed t) (hv : ∀ t ∈ values, Printed t)
  (hw : ∀ t ∈ values, t.WellFormed)

include hv hw in
/-- A lone tuple stands in parentheses of its own, so that it does not pass for several values. -/
theorem derives_values_text (hne : values ≠ []) {rest : List Char} (hr : Follows rest) :
    Derives (.values values) (valueChars (isLoneTuple values) (charsOf values) ++ rest) rest := by
  cases values with
  | nil => exact absurd rfl hne
  | cons v vs =>
    have hgroup := derives_group_text hv hne rest
    cases vs with
    | nil =>
      by_cases ht : v.isTuple = true
      · -- the outer parentheses are those of the group
        have hchars : valueChars (isLoneTuple [v]) (charsOf [v]) =
            '=' :: '(' :: Text.listed (charsOf [v]) ++ [')'] := by
          simp [isLoneTuple, ht, charsOf, valueChars, Text.listed]
        rw [hchars]
        exact .severalValues .none (by simpa using hgroup)
      · have hchars : valueChars (isLoneTuple [v]) (charsOf [v]) = '=' :: v.chars := by
          simp [isLoneTuple, ht, charsOf, valueChars]
        rw [hchars]
        exact .oneValue .none ((hw v (by simp)).not_open (by simpa using ht) rest)
          (hv v (by simp) rest hr)
    | cons u us =>
      have hchars : valueChars (isLoneTuple (v :: u :: us)) (charsOf (v :: u :: us)) =
          '=' :: '(' :: Text.listed (charsOf (v :: u :: us)) ++ [')'] := rfl
      rw [hchars]
      exact .severalValues .none (by simpa using hgroup)

include ha hv hw in
theorem derives_call_text {name : String} (hn : isLowerName name.toList = true) {rest : List Char}
    (hr : Follows rest) :
    Derives (.compound ⟨name, args, values⟩)
      ((Term.compound name args values).chars ++ rest) rest := by
  have hargs := derives_arguments_text ha (valueChars (isLoneTuple values) (charsOf values) ++ rest)
  have hchars : (Term.compound name args values).chars ++ rest = name.toList ++
      ('(' :: Text.listed (charsOf args) ++
        ')' :: (valueChars (isLoneTuple values) (charsOf values) ++ rest)) := by
    simp [Term.chars]
  rw [hchars, ← String.ofList_toList (s := name), String.toList_ofList]
  by_cases hne : values = []
  · subst hne
    exact .call .none hn hargs
  · exact .valued .none hn hargs (derives_values_text hv hw hne hr)

include ha in
theorem derives_tuple_text (hne : args ≠ []) (rest : List Char) :
    Derives (.compound (.tuple args)) ((Compound.tuple args).toTerm.chars ++ rest) rest := by
  have hchars : (Compound.tuple args).toTerm.chars ++ rest =
      '(' :: Text.listed (charsOf args) ++ ')' :: rest := by
    simp [Compound.tuple, Compound.toTerm, Term.chars, charsOf, valueChars]
  rw [hchars]
  exact .tuple (derives_group_text ha hne rest)

end

/-! ## Terms -/

/-- **Canonical text.** The text of a well-formed term derives from the grammar as that term. -/
theorem Term.WellFormed.printed {t : Term} (h : t.WellFormed) : Printed t := by
  induction h with
  | @var name hn =>
    intro rest hr
    have := Derives.token .none (longest_upper hn (hr.stops rfl)) (meaning?_upper hn)
    rw [String.ofList_toList] at this
    exact this
  | const hc =>
    intro rest hr
    obtain ⟨hl, hm⟩ := hc.token hr
    exact .token .none hl hm
  | call hn _ hw ha hv => exact fun _ hr => .compound (derives_call_text ha hv hw hn hr)
  | tuple hne _ ha => exact fun rest _ => .compound (derives_tuple_text ha hne rest)
  | list _ hi => exact fun rest _ => .list (derives_list_text hi rest)

theorem Compound.WellFormed.derives {f : Compound} (h : f.WellFormed) {rest : List Char}
    (hr : Follows rest) :
    Derives (.compound f) (f.toTerm.chars ++ rest) rest := by
  obtain ⟨name, args, values⟩ := f
  cases h with
  | call hn ha hv =>
    exact derives_call_text (fun t ht => (ha t ht).printed) (fun t ht => (hv t ht).printed) hv hn hr
  | tuple hne ha => exact derives_tuple_text (fun t ht => (ha t ht).printed) hne rest

end Clausal
