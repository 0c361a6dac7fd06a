import Clausal.Fragment
import Clausal.Proofs.EntryPoints
import Clausal.Proofs.TermShape
import Clausal.Proofs.TermText

/-!
# Classified lexemes

Only tokens have a meaning, and what a token means is written as a token of the
same meaning again. Floats that are rounded to an infinity are the exception: an
infinity is written by its name, which is no numeral. The terms that are lexemes
by themselves are parsed as what their lexemes mean.
-/

namespace Clausal

open Lexeme Reader

/-! ## Tokens -/

namespace Lexeme

theorem quotedInner?_eq_some {w inner : List Char} (h : quotedInner? w = some inner) :
    ∃ quote, isQuote quote = true ∧ (∀ c ∈ inner, isInside quote c = true) ∧
    w = quote :: inner ++ [quote] := by
  cases w with
  | nil => cases h
  | cons quote cs =>
    simp only [quotedInner?] at h
    by_cases hq : (isQuote quote && cs.dropWhile (isInside quote) == [quote]) = true
    · rw [if_pos hq, Option.some.injEq] at h
      simp only [Bool.and_eq_true, beq_iff_eq] at hq
      have hsplit : cs.takeWhile (isInside quote) ++ cs.dropWhile (isInside quote) = cs :=
        List.takeWhile_append_dropWhile
      rw [h, hq.2] at hsplit
      refine ⟨quote, hq.1, fun c hc => ?_, by rw [List.cons_append, hsplit]⟩
      rw [← h] at hc
      exact List.all_eq_true.mp List.all_takeWhile c hc
    · rw [if_neg hq] at h
      cases h

theorem unsignedMeaning?_eq_some {negative : Bool} {cs : List Char} {c : Constant}
    (h : unsignedMeaning? negative cs = some c) :
    ∃ whole fraction, IsDigits whole ∧ IsFraction fraction ∧ cs = whole ++ fraction := by
  have hsplit : cs.takeWhile Char.isDigit ++ cs.dropWhile Char.isDigit = cs :=
    List.takeWhile_append_dropWhile
  have hdigits (hne : cs.takeWhile Char.isDigit ≠ []) : IsDigits (cs.takeWhile Char.isDigit) :=
    ⟨hne, List.all_eq_true.mp List.all_takeWhile⟩
  unfold unsignedMeaning? at h
  cases hd : cs.dropWhile Char.isDigit with
  | nil =>
    simp only [hd] at h
    by_cases hne : cs.takeWhile Char.isDigit = []
    · rw [if_pos hne] at h
      cases h
    · exact ⟨_, [], hdigits hne, .none, by rw [← hd, hsplit]⟩
  | cons d fraction =>
    by_cases hpoint : d = '.'
    · subst hpoint
      simp only [hd] at h
      by_cases hf : cs.takeWhile Char.isDigit ≠ [] ∧ fraction ≠ [] ∧
        fraction.all Char.isDigit = true
      · exact ⟨_, '.' :: fraction, hdigits hf.1, .point ⟨hf.2.1, List.all_eq_true.mp hf.2.2⟩,
          by rw [← hd, hsplit]⟩
      · rw [if_neg hf] at h
        cases h
    · simp [hd, hpoint] at h

theorem isToken_of_numberMeaning? {cs : List Char} {c : Constant} (h : numberMeaning? cs = some c) :
    IsToken cs := by
  unfold numberMeaning? at h
  split at h
  · obtain ⟨whole, fraction, hw, hf, he⟩ := unsignedMeaning?_eq_some h
    subst he
    exact .numeral (.inr rfl) hw hf
  · obtain ⟨whole, fraction, hw, hf, he⟩ := unsignedMeaning?_eq_some h
    subst he
    exact .numeral (.inl rfl) hw hf

/-- **Only tokens** have a meaning. -/
theorem isToken_of_meaning? {w : List Char} {t : Term} (h : meaning? w = some t) : IsToken w := by
  unfold meaning? at h
  cases hq : quotedInner? w with
  | some inner =>
    obtain ⟨quote, hquote, hi, he⟩ := quotedInner?_eq_some hq
    rw [he]
    exact .literal hquote hi
  | none =>
    simp only [hq] at h
    by_cases hl : isLowerName w = true
    · exact .lower hl
    · rw [if_neg hl] at h
      by_cases hu : isUpperName w = true
      · exact .upper hu
      · rw [if_neg hu, Option.map_eq_some_iff] at h
        obtain ⟨c, hc, -⟩ := h
        exact isToken_of_numberMeaning? hc

end Lexeme

/-! ## Texts of lexemes -/

theorem classify_eq_ok {text : String} {t : Term} :
    Fragment.classify (.lexeme text) = .ok t ↔ meaning? text.toList = some t := by
  unfold Fragment.classify
  cases hm : meaning? text.toList with
  | none => simp [hm]
  | some u => simp [hm]

theorem meaning?_chars_of_wellFormed {t : Term} (h : t.WellFormed)
    (ht : (∃ name, t = .var name) ∨ ∃ c, t = .const c) :
    meaning? t.chars = some t := by
  cases h with
  | var hn => rw [Term.chars, meaning?_upper hn, String.ofList_toList]
  | const hc => exact (hc.token follows_nil).2
  | _ =>
    rcases ht with ⟨name, he⟩ | ⟨c, he⟩
    all_goals cases he

theorem Binary64.chars_of_isInfinite {x : Binary64} (h : x.isInfinite = true) :
    x.chars = (if x.negative then ['-', 'i', 'n', 'f'] else ['i', 'n', 'f']) := by
  have hm : x.magnitude.val = infinity := eq_of_beq h
  have hnan : x.isNaN = false := by simp [isNaN, hm]
  have hfinite : x.isFinite = false := by simp [isFinite, hm]
  simp [chars, written, hnan, hfinite]

/-- The name of an infinity is a plain name, and no lexeme with a sign in front of it. -/
theorem classify_infinity {x : Binary64} (h : x.isInfinite = true) :
    Fragment.classify (.lexeme (Term.const (.float x)).text) =
      if x.negative then .error (.unclassified "-inf") else .ok (.const (.str "inf")) := by
  have hchars : (Term.const (.float x)).chars =
      if x.negative then ['-', 'i', 'n', 'f'] else ['i', 'n', 'f'] :=
    Binary64.chars_of_isInfinite h
  unfold Term.text
  rw [hchars]
  cases x.negative
  all_goals rfl

/-- **Classification.** The text of what a lexeme means is classified as the same again, unless it
is an infinity. -/
theorem classify_text {text : String} {t : Term} (h : Fragment.classify (.lexeme text) = .ok t) :
    (Fragment.classify (.lexeme t.text) = .ok t ↔ NoInfinity t.constants) ∧
    ∀ x, t = .const (.float x) → x.isInfinite = true → Fragment.classify (.lexeme t.text) =
      if x.negative then .error (.unclassified "-inf") else .ok (.const (.str "inf")) := by
  have hm : meaning? text.toList = some t := classify_eq_ok.mp h
  refine ⟨⟨fun hagain c hc => ?_, fun hf => ?_⟩, fun x he hx => he ▸ classify_infinity hx⟩
  · by_cases hi : c.isInfinite = true
    · rcases meaning?_cases hm with ⟨name, he⟩ | ⟨k, he⟩
      · subst he
        cases hc
      · subst he
        rw [List.mem_singleton.mp hc] at hi
        cases k with
        | float x =>
          rw [classify_infinity hi] at hagain
          cases hx : x.negative
          all_goals
            rw [hx] at hagain
            cases hagain
        | _ => cases hi
    · simpa using hi
  · have hw : t.WellFormed := token_wellFormed (isToken_of_meaning? hm) hm hf
    rw [classify_eq_ok, Term.text, String.toList_ofList]
    exact meaning?_chars_of_wellFormed hw (meaning?_cases hm)

theorem classify_text_of_sample :
    Fragment.classify (.lexeme "-007.50") = .ok (.const (.float ⟨true, 0x401e000000000000⟩)) ∧
    Fragment.classify (.lexeme "-7.5") = .ok (.const (.float ⟨true, 0x401e000000000000⟩)) := by
  have hnumeral : Fragment.classify (.lexeme "-007.50") =
      .ok (.const (.float ⟨true, 0x401e000000000000⟩)) :=
    classify_eq_ok.mpr (by decide +kernel)
  have htext : (Term.const (.float ⟨true, 0x401e000000000000⟩)).text = "-7.5" := by
    decide +kernel
  have hagain := (classify_text hnumeral).1.mpr (by decide)
  rw [htext] at hagain
  exact ⟨hnumeral, hagain⟩

/-- A numeral with 310 digits in front of its point is an infinity. -/
theorem classify_text_of_infinity : ¬ ∀ (text : String) (t : Term),
    Fragment.classify (.lexeme text) = .ok t → Fragment.classify (.lexeme t.text) = .ok t := by
  intro h
  have hnumeral :
      Fragment.classify (.lexeme (String.ofList ('1' :: List.replicate 309 '0' ++ ['.', '0']))) =
        .ok (.const (.float ⟨false, 0x7ff0000000000000⟩)) := by
    rw [classify_eq_ok, String.toList_ofList]
    decide +kernel
  have hagain := h _ _ hnumeral
  rw [classify_infinity (by decide)] at hagain
  cases hagain

/-! ## Lexemes as terms -/

theorem IsToken.parse {w : List Char} {t : Term} (hw : IsToken w) (hm : meaning? w = some t) :
    Term.parse (String.ofList w) = .ok t := by
  have hlongest : Longest w [] := ⟨hw, fun _ hp => by simpa using hp.length_le⟩
  rw [Term.parse_eq_ok_iff_derives, String.toList_ofList]
  refine ⟨[], .token ?_ hlongest hm, .none⟩
  rw [List.append_nil]
  exact .none

/-- A term that is no compound and no list is the meaning of the first token. -/
theorem lexeme_of_term {cs rest : List Char} {t : Term}
    (h : Unbounded.term .commit cs = .done t rest)
    (ht : (∃ name, t = .var name) ∨ ∃ c, t = .const c) :
    ∃ w, skipJunk cs = w ++ rest ∧ Longest w rest ∧ meaning? w = some t := by
  rcases Unbounded.term_eq_done.mp h with ⟨f, -, he⟩ | ⟨-, ⟨items, -, he⟩ | ⟨-, hx⟩⟩
  · rcases ht with ⟨name, ht⟩ | ⟨c, ht⟩
    all_goals rw [ht] at he; cases he
  · rcases ht with ⟨name, ht⟩ | ⟨c, ht⟩
    all_goals rw [ht] at he; cases he
  · exact lexemes_eq_done.mp hx

/-- **Lexemes as terms.** What a text means as a lexeme, it is parsed as. A variable or constant
that is parsed is what a lexeme means that stands in the text with nothing but junk around it. -/
theorem classify_agrees_with_parse (text : String) (t : Term) :
    (Fragment.classify (.lexeme text) = .ok t → Term.parse text = .ok t) ∧
    (Term.parse text = .ok t → (∃ name, t = .var name) ∨ (∃ c, t = .const c) →
      ∃ front w back, text = front ++ w ++ back ∧ skipJunk front.toList = [] ∧
      skipJunk back.toList = [] ∧
        Fragment.classify (.lexeme w) = .ok t) := by
  refine ⟨fun h => ?_, fun h ht => ?_⟩
  · have hm : meaning? text.toList = some t := classify_eq_ok.mp h
    have hparse := (isToken_of_meaning? hm).parse hm
    rwa [String.ofList_toList] at hparse
  · obtain ⟨rest, hread, hr⟩ := Term.parse_iff.mp h
    obtain ⟨w, hj, hw, hm⟩ := lexeme_of_term hread ht
    obtain ⟨c, v, l, hv, hl⟩ := hw.isToken.exists_lead
    -- the token begins with a solid character, and what stands in front of that is junk
    rw [hv, List.cons_append] at hj
    obtain ⟨front, he, hf⟩ := (junk_of_skipJunk hj).exists_front (isSolid_of_lead hl)
    refine ⟨String.ofList front, String.ofList w, String.ofList rest, ?_, ?_, ?_, ?_⟩
    · apply String.toList_injective
      simp [he, hv]
    · rw [String.toList_ofList]
      exact junk_nil_iff.mp hf
    · rw [String.toList_ofList]
      exact hr
    · rw [classify_eq_ok, String.toList_ofList]
      exact hm

theorem classify_agrees_with_parse_of_sample :
    Fragment.classify (.lexeme "'a % b'") = .ok (.const (.str "'a % b'")) ∧
    Term.parse "'a % b'" = .ok (.const (.str "'a % b'")) ∧
    Term.parse "% one\r\nX1/* two */" = .ok (.var "X1") ∧
    ∃ front w back, "% one\r\nX1/* two */" = front ++ w ++ back ∧ skipJunk front.toList = [] ∧
      skipJunk back.toList = [] ∧ Fragment.classify (.lexeme w) = .ok (.var "X1") := by
  have hlexeme : Fragment.classify (.lexeme "'a % b'") = .ok (.const (.str "'a % b'")) :=
    classify_eq_ok.mpr (by decide +kernel)
  have hterm : Term.parse "% one\r\nX1/* two */" = .ok (.var "X1") := by rfl
  obtain ⟨hparse, -⟩ := classify_agrees_with_parse "'a % b'" (.const (.str "'a % b'"))
  obtain ⟨-, hsplit⟩ := classify_agrees_with_parse "% one\r\nX1/* two */" (.var "X1")
  exact ⟨hlexeme, hparse hlexeme, hterm, hsplit hterm (.inl ⟨"X1", rfl⟩)⟩

end Clausal
