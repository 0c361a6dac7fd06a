import Clausal.Proofs.Token

/-!
# Longest tokens

Names, numerals and quoted literals as classes of texts. The readers of lexemes,
tried one after the other, take the longest token at the front of a text.
-/

namespace Clausal

open Lexeme Reader

/-! ## Classes of tokens -/

def IsSign (sign : List Char) : Prop := sign = [] ∨ sign = ['-']

def IsDigits (ds : List Char) : Prop := ds ≠ [] ∧ ∀ c ∈ ds, c.isDigit = true

/-- The end of a numeral behind its whole digits. -/
inductive IsFraction : List Char → Prop
  | none : IsFraction []
  | point {ds} : IsDigits ds → IsFraction ('.' :: ds)

inductive IsToken : List Char → Prop
  | lower {w} : isLowerName w = true → IsToken w
  | upper {w} : isUpperName w = true → IsToken w
  | numeral {sign whole fraction} : IsSign sign → IsDigits whole → IsFraction fraction →
      IsToken (sign ++ whole ++ fraction)
  | literal {quote inner} : isQuote quote = true → (∀ c ∈ inner, isInside quote c = true) →
      IsToken (quote :: inner ++ [quote])

/-- `w` is a token, and no longer one stands at the front of `w ++ rest`. -/
structure Longest (w rest : List Char) : Prop where
  isToken : IsToken w
  length_le : ∀ {v}, IsToken v → v <+: w ++ rest → v.length ≤ w.length

/-! ## The first character -/

inductive Lead
  | lower
  | upper
  | numeral
  | quote
deriving DecidableEq

/-- The kind of token that a character begins. -/
def lead? (c : Char) : Option Lead :=
  if c.isLower then some .lower
  else if c.isUpper then some .upper
  else if c == '-' || c.isDigit then some .numeral
  else if isQuote c then some .quote
  else none

theorem lead?_of_isLower {c : Char} (h : c.isLower = true) : lead? c = some .lower := by
  unfold lead?
  rw [if_pos h]

theorem lead?_of_isUpper {c : Char} (h : c.isUpper = true) : lead? c = some .upper := by
  have hl : ¬ c.isLower = true := by grind [isLower_iff, isUpper_iff]
  unfold lead?
  rw [if_neg hl, if_pos h]

theorem lead?_of_isDigit {c : Char} (h : c.isDigit = true) : lead? c = some .numeral := by
  have hl : ¬ c.isLower = true := by grind [isLower_iff, Char.isDigit_iff_toNat]
  have hu : ¬ c.isUpper = true := by grind [isUpper_iff, Char.isDigit_iff_toNat]
  unfold lead?
  rw [if_neg hl, if_neg hu, if_pos (by simp [h])]

theorem isQuote_iff {c : Char} : isQuote c = true ↔ c = '\'' ∨ c = '"' := by
  simp [isQuote]

theorem lead?_of_isQuote {c : Char} (h : isQuote c = true) : lead? c = some .quote := by
  rcases isQuote_iff.mp h with h | h
  · subst h; rfl
  · subst h; rfl

theorem isSolid_of_lead {c : Char} {l : Lead} (h : lead? c = some l) : isSolid c = true := by
  by_cases hs : isSolid c = true
  · exact hs
  · have : c = ' ' ∨ c = '\t' ∨ c = '\r' ∨ c = '\n' ∨ c = '%' ∨ c = '/' := by
      simp only [isSolid, isGap, Bool.and_eq_true, Bool.not_eq_true', Bool.or_eq_false_iff,
        beq_eq_false_iff_ne, bne_iff_ne] at hs
      grind
    rcases this with h' | h' | h' | h' | h' | h' <;> subst h' <;> cases h

def leads? (cs : List Char) : Option Lead := (skipJunk cs).head?.bind lead?

theorem leads?_eq {cs w rest : List Char} {c : Char} (h : skipJunk cs = c :: w ++ rest) :
    leads? cs = lead? c := by
  unfold leads?
  rw [h]; rfl

theorem lead?_of_numeral {sign whole : List Char} (hs : IsSign sign) (hw : IsDigits whole)
    (fraction : List Char) :
    ∃ c w, sign ++ whole ++ fraction = c :: w ∧ lead? c = some .numeral := by
  obtain ⟨hne, hd⟩ := hw
  cases whole with
  | nil => exact absurd rfl hne
  | cons d ds =>
    rcases hs with h | h
    · subst h
      exact ⟨d, ds ++ fraction, rfl, lead?_of_isDigit (hd d (by simp))⟩
    · subst h
      exact ⟨'-', d :: ds ++ fraction, rfl, rfl⟩

theorem IsToken.of_lead {c : Char} {w : List Char} (h : IsToken (c :: w)) :
    (lead? c = some .lower ∧ isLowerName (c :: w) = true) ∨
    (lead? c = some .upper ∧ isUpperName (c :: w) = true) ∨
    (lead? c = some .numeral ∧ ∃ sign whole fraction, IsSign sign ∧ IsDigits whole ∧
      IsFraction fraction ∧
      c :: w = sign ++ whole ++ fraction) ∨
    (lead? c = some .quote ∧ ∃ inner, isQuote c = true ∧
      (∀ d ∈ inner, isInside c d = true) ∧
      w = inner ++ [c]) := by
  generalize hv : c :: w = v at h
  cases h with
  | lower h =>
    rw [← hv] at h ⊢
    exact .inl ⟨lead?_of_isLower (isName_cons.mp h).1, h⟩
  | upper h =>
    rw [← hv] at h ⊢
    exact .inr (.inl ⟨lead?_of_isUpper (isName_cons.mp h).1, h⟩)
  | @numeral sign whole fraction hs hw hf =>
    obtain ⟨d, ds, he, hl⟩ := lead?_of_numeral hs hw fraction
    rw [he, List.cons.injEq] at hv
    refine .inr (.inr (.inl ⟨hv.1 ▸ hl, sign, whole, fraction, hs, hw, hf, rfl⟩))
  | @literal quote inner hq hi =>
    simp only [List.cons_append, List.cons.injEq] at hv
    obtain ⟨hc, hw⟩ := hv
    subst hc
    exact .inr (.inr (.inr ⟨lead?_of_isQuote hq, inner, hq, hi, hw⟩))

theorem IsToken.ne_nil {w : List Char} (h : IsToken w) : w ≠ [] := by
  intro hw
  subst hw
  generalize hv : ([] : List Char) = v at h
  cases h with
  | lower h => rw [← hv] at h; cases h
  | upper h => rw [← hv] at h; cases h
  | numeral _ hw _ => simp only [List.nil_eq, List.append_eq_nil_iff] at hv; exact hw.1 hv.1.2
  | literal _ _ => cases hv

theorem IsToken.exists_lead {w : List Char} (h : IsToken w) :
    ∃ c v l, w = c :: v ∧ lead? c = some l := by
  cases w with
  | nil => exact absurd rfl h.ne_nil
  | cons c v =>
    rcases h.of_lead with h | h | h | h
    all_goals exact ⟨c, v, _, rfl, h.1⟩

theorem IsToken.skipJunk_eq {w cs rest : List Char} (h : IsToken w) (hj : Junk cs (w ++ rest)) :
    skipJunk cs = w ++ rest := by
  obtain ⟨c, v, l, hw, hl⟩ := h.exists_lead
  subst hw
  exact skipJunk_of_junk (isSolid_of_lead hl) hj

/-- The longest token at the front of a text is the only one. -/
theorem Longest.unique {w v rest tail : List Char} (h : Longest w rest) (h' : Longest v tail)
    (he : w ++ rest = v ++ tail) : w = v ∧ rest = tail := by
  have h₁ := h.length_le h'.isToken ⟨tail, he.symm⟩
  have h₂ := h'.length_le h.isToken ⟨rest, he⟩
  exact List.append_inj he (Nat.le_antisymm h₂ h₁)

/-! ## Readers of numerals and literals -/

namespace Reader

theorem minus_eq_done {cs s rest : List Char} :
    minus cs = .done s rest ↔
      cs = s ++ rest ∧ (s = ['-'] ∨ s = [] ∧ rest.head? ≠ some '-') := by
  unfold minus
  split
  · rename_i cs
    simp only [Reply.done.injEq]
    constructor
    · intro h
      obtain ⟨hs, hr⟩ := h
      subst hs hr
      exact ⟨rfl, .inl rfl⟩
    · intro h
      obtain ⟨hc, hs | ⟨hs, hr⟩⟩ := h
      · subst hs; simpa using hc
      · subst hs
        simp only [List.nil_append] at hc
        simp [← hc] at hr
  · rename_i hne
    simp only [Reply.done.injEq]
    constructor
    · intro h
      obtain ⟨hs, hr⟩ := h
      subst hs hr
      refine ⟨rfl, .inr ⟨rfl, fun h => ?_⟩⟩
      cases cs with
      | nil => cases h
      | cons c cs =>
        simp only [List.head?_cons, Option.some.injEq] at h
        exact hne cs (by rw [h])
    · intro h
      obtain ⟨hc, hs | ⟨hs, -⟩⟩ := h
      · subst hs; exact absurd hc (hne rest)
      · subst hs; exact ⟨rfl, hc⟩

theorem run1_digits {cs w rest : List Char} :
    run1 Char.isDigit cs = .done w rest ↔
      cs = w ++ rest ∧ IsDigits w ∧ Stops Char.isDigit rest := by
  rw [run1_eq_done]
  unfold IsDigits
  rw [and_assoc]

theorem minus_of_sign {sign whole : List Char} (hs : IsSign sign) (hw : IsDigits whole)
    (tail : List Char) :
    minus (sign ++ whole ++ tail) = .done sign (whole ++ tail) := by
  rw [minus_eq_done]
  refine ⟨by simp, ?_⟩
  rcases hs with h | h
  · refine .inr ⟨h, fun hd => ?_⟩
    obtain ⟨hne, hd'⟩ := hw
    cases whole with
    | nil => exact hne rfl
    | cons d ds =>
      simp only [List.cons_append, List.head?_cons, Option.some.injEq] at hd
      have := hd' d (by simp)
      rw [hd] at this; cases this
  · exact .inl h

theorem wholeNumeral_eq_done {cs w rest : List Char} :
    wholeNumeral cs = .done w rest ↔ skipJunk cs = w ++ rest ∧ Stops Char.isDigit rest ∧
      ∃ sign whole, IsSign sign ∧ IsDigits whole ∧ w = sign ++ whole := by
  simp only [wholeNumeral, token, bind_eq_done, minus_eq_done, run1_digits, pure_eq_done]
  constructor
  · intro h
    obtain ⟨sign, r, ⟨hj, hs⟩, whole, s, ⟨hr, hw, hstop⟩, he, hrest⟩ := h
    subst hr hrest he
    refine ⟨by simpa using hj, hstop, sign, whole, ?_, hw, rfl⟩
    rcases hs with h | h
    · exact .inr h
    · exact .inl h.1
  · intro h
    obtain ⟨hj, hstop, sign, whole, hs, hw, he⟩ := h
    subst he
    refine ⟨sign, whole ++ rest, ?_, whole, rest, ⟨rfl, hw, hstop⟩, rfl, rfl⟩
    rw [← minus_eq_done, hj]
    exact minus_of_sign hs hw rest

theorem decimalNumeral_eq_done {cs w rest : List Char} :
    decimalNumeral cs = .done w rest ↔ skipJunk cs = w ++ rest ∧ Stops Char.isDigit rest ∧
      ∃ sign whole ds, IsSign sign ∧ IsDigits whole ∧ IsDigits ds ∧
      w = sign ++ whole ++ '.' :: ds := by
  simp only [decimalNumeral, token, bind_eq_done, minus_eq_done, run1_digits, exactly_eq_done,
    pure_eq_done]
  constructor
  · intro h
    obtain ⟨sign, r, ⟨hj, hs⟩, whole, s, ⟨hr, hw, -⟩, u, t, hpoint, ds, v,
      ⟨ht, hd, hstop⟩, he, hrest⟩ := h
    subst hr hpoint ht hrest he
    refine ⟨by simpa using hj, hstop, sign, whole, ds, ?_, hw, hd, rfl⟩
    rcases hs with h | h
    · exact .inr h
    · exact .inl h.1
  · intro h
    obtain ⟨hj, hstop, sign, whole, ds, hs, hw, hd, he⟩ := h
    subst he
    refine ⟨sign, whole ++ '.' :: (ds ++ rest), ?_, whole, '.' :: (ds ++ rest), ⟨rfl, hw, ?_⟩,
      (), ds ++ rest,
      rfl, ds, rest, ⟨rfl, hd, hstop⟩, rfl, rfl⟩
    · have := minus_of_sign hs hw ('.' :: (ds ++ rest))
      rw [minus_eq_done] at this
      simpa [hj] using this
    · exact stops_cons.mpr rfl

theorem plain_wholeNumeral : Plain wholeNumeral :=
  plain_token (plain_bind plain_minus fun _ => plain_bind (plain_run1 _) fun _ => plain_pure _)

theorem plain_decimalNumeral : Plain decimalNumeral :=
  plain_token (plain_bind plain_minus fun _ => plain_bind (plain_run1 _) fun _ =>
    plain_bind (plain_exactly _) fun _ => plain_bind (plain_run1 _) fun _ => plain_pure _)

theorem quotedInner_eq_done {quote : Char} {cs inner rest : List Char} :
    quotedInner quote cs = .done inner rest ↔
      skipJunk cs = quote :: inner ++ quote :: rest ∧
      ∀ c ∈ inner, isInside quote c = true := by
  simp only [quotedInner, token, bind_eq_done, exactly_eq_done, run_eq_done, pure_eq_done]
  constructor
  · intro h
    obtain ⟨u, s, hj, v, t, ⟨hs, hi, -⟩, u', t', ht, he, hr⟩ := h
    subst hs ht hr he
    exact ⟨hj, hi⟩
  · intro h
    obtain ⟨hj, hi⟩ := h
    refine ⟨(), inner ++ quote :: rest, hj, inner, quote :: rest, ⟨rfl, hi, ?_⟩, (), rest,
      rfl, rfl, rfl⟩
    simp [stops_cons, isInside]

theorem quotedLiteral_eq_done {quote : Char} {cs w rest : List Char} :
    quotedLiteral quote cs = .done w rest ↔ skipJunk cs = w ++ rest ∧
      ∃ inner, (∀ c ∈ inner, isInside quote c = true) ∧ w = quote :: inner ++ [quote] := by
  simp only [quotedLiteral, bind_eq_done, quotedInner_eq_done, pure_eq_done]
  constructor
  · intro h
    obtain ⟨inner, r, ⟨hj, hi⟩, hw, hrest⟩ := h
    subst hw hrest
    exact ⟨by simpa using hj, inner, hi, rfl⟩
  · intro h
    obtain ⟨hj, inner, hi, hw⟩ := h
    subst hw
    exact ⟨inner, rest, ⟨by simpa using hj, hi⟩, rfl, rfl⟩

theorem plain_quotedLiteral (quote : Char) : Plain (quotedLiteral quote) :=
  plain_bind (plain_token (plain_bind (plain_exactly _) fun _ => plain_bind (plain_run _) fun _ =>
    plain_bind (plain_exactly _) fun _ => plain_pure _)) fun _ => plain_pure _

end Reader

/-! ## Readers take the longest token -/

theorem prefix_length_le {inside : Char → Bool} {v w rest : List Char}
    (hv : ∀ c ∈ v, inside c = true) (hr : Stops inside rest) (h : v <+: w ++ rest) :
    v.length ≤ w.length := by
  obtain ⟨t, ht⟩ := h
  rcases List.append_eq_append_iff.mp ht with ⟨a, ha, -⟩ | ⟨a, ha, hrest⟩
  · simp [ha]
  · cases a with
    | nil => simp [ha]
    | cons c a =>
      have := hr c (by simp [hrest])
      rw [hv c (by simp [ha])] at this
      cases this

theorem isName_all {initial : Char → Bool} (hi : ∀ c, initial c = true → isNameChar c = true)
    {w : List Char} (h : isName initial w = true) : ∀ c ∈ w, isNameChar c = true := by
  cases w with
  | nil => cases h
  | cons c w =>
    obtain ⟨hc, hw⟩ := isName_cons.mp h
    intro d hd
    rcases List.mem_cons.mp hd with hd | hd
    · exact hd ▸ hi c hc
    · exact hw d hd

theorem isNameChar_of_isLower (c : Char) (h : c.isLower = true) : isNameChar c = true := by
  simp [isNameChar, isAlphanum_iff, h]

theorem isNameChar_of_isUpper (c : Char) (h : c.isUpper = true) : isNameChar c = true := by
  simp [isNameChar, isAlphanum_iff, h]

/-- No token goes on behind a line feed. -/
theorem IsToken.no_feed {w : List Char} (h : IsToken w) : ∀ c ∈ w, c ≠ '\n' := by
  have hname {c : Char} (hc : isNameChar c = true) : c ≠ '\n' := by intro he; subst he; cases hc
  have hdigits {ds : List Char} (hd : IsDigits ds) : ∀ c ∈ ds, c ≠ '\n' := by
    intro c hc he
    subst he
    cases hd.2 _ hc
  cases h with
  | lower h => exact fun c hc => hname (isName_all isNameChar_of_isLower h c hc)
  | upper h => exact fun c hc => hname (isName_all isNameChar_of_isUpper h c hc)
  | numeral hs hw hf =>
    refine List.forall_mem_append.mpr ⟨List.forall_mem_append.mpr ⟨?_, hdigits hw⟩, ?_⟩
    · rcases hs with hs | hs
      all_goals subst hs; decide
    · cases hf with
      | none => simp
      | point hd => exact List.forall_mem_cons.mpr ⟨by decide, hdigits hd⟩
  | literal hq hi =>
    have hquote {c : Char} (hc : isQuote c = true) : c ≠ '\n' := by intro he; subst he; cases hc
    refine List.forall_mem_append.mpr
      ⟨List.forall_mem_cons.mpr ⟨hquote hq, fun c hc => ?_⟩, ?_⟩
    · have := hi c hc
      simp only [isInside, Bool.and_eq_true, bne_iff_ne] at this
      exact this.2
    · exact List.forall_mem_cons.mpr ⟨hquote hq, by simp⟩

theorem longest_name {initial : Char → Bool} {w rest : List Char} (hw : isName initial w = true)
    (hr : Stops isNameChar rest) (ht : IsToken w)
    (hi : ∀ c, initial c = true → isNameChar c = true)
    (hc : ∀ {c v}, initial c = true → IsToken (c :: v) → isName initial (c :: v) = true) :
    Longest w rest := by
  refine ⟨ht, fun {v} hv hp => ?_⟩
  refine prefix_length_le (isName_all hi ?_) hr hp
  cases w with
  | nil => cases hw
  | cons c w =>
    cases v with
    | nil => exact absurd rfl hv.ne_nil
    | cons d v =>
      obtain ⟨hd, -⟩ := List.cons_prefix_cons.mp hp
      exact hc (hd ▸ (isName_cons.mp hw).1) hv

theorem longest_lower {w rest : List Char} (hw : isLowerName w = true)
    (hr : Stops isNameChar rest) :
    Longest w rest := by
  refine longest_name hw hr (.lower hw) isNameChar_of_isLower fun hc hv => ?_
  have hl := lead?_of_isLower hc
  rcases hv.of_lead with h | h | h | h
  · exact h.2
  all_goals rw [hl] at h; simp at h

theorem longest_upper {w rest : List Char} (hw : isUpperName w = true)
    (hr : Stops isNameChar rest) :
    Longest w rest := by
  refine longest_name hw hr (.upper hw) isNameChar_of_isUpper fun hc hv => ?_
  have hl := lead?_of_isUpper hc
  rcases hv.of_lead with h | h | h | h
  · rw [hl] at h; simp at h
  · exact h.2
  all_goals rw [hl] at h; simp at h

theorem longest_literal {quote : Char} {inner : List Char} (rest : List Char)
    (hq : isQuote quote = true) (hi : ∀ c ∈ inner, isInside quote c = true) :
    Longest (quote :: inner ++ [quote]) rest := by
  refine ⟨.literal hq hi, fun {v} hv hp => ?_⟩
  cases v with
  | nil => exact absurd rfl hv.ne_nil
  | cons d v =>
    obtain ⟨hd, t, ht⟩ := List.cons_prefix_cons.mp hp
    subst hd
    have hl := lead?_of_isQuote hq
    rcases hv.of_lead with h | h | h | ⟨-, inner', -, hi', he⟩
    · rw [hl] at h; simp at h
    · rw [hl] at h; simp at h
    · rw [hl] at h; simp at h
    · subst he
      have hs : ∀ tail, Stops (isInside d) (d :: tail) :=
        fun tail => by simp [stops_cons, isInside]
      obtain ⟨h, -⟩ := eq_of_stops hi' hi (hs t) (hs rest) (by simpa using ht)
      simp [h]

theorem eq_of_signs {s s' a b : List Char} (hs : IsSign s) (hs' : IsSign s') (ha : IsDigits a)
    (hb : IsDigits b) {t u : List Char} (h : s ++ a ++ t = s' ++ b ++ u) :
    s = s' ∧ a ++ t = b ++ u := by
  have h₁ := minus_of_sign hs ha t
  have h₂ := minus_of_sign hs' hb u
  rw [h, h₂] at h₁
  simp only [Reply.done.injEq] at h₁
  exact ⟨h₁.1.symm, h₁.2.symm⟩

theorem IsFraction.stops {fraction rest : List Char} (hf : IsFraction fraction)
    (hr : Stops Char.isDigit rest) :
    Stops Char.isDigit (fraction ++ rest) := by
  cases hf with
  | none => exact hr
  | point _ => exact stops_cons.mpr rfl

/-- A numeral ends before a character that is no digit, and one without a point not before a point
and a digit. -/
theorem longest_numeral {sign whole fraction rest : List Char} (hs : IsSign sign)
    (hw : IsDigits whole) (hf : IsFraction fraction) (hr : Stops Char.isDigit rest)
    (hp : fraction = [] → ∀ d tail, rest = '.' :: d :: tail → d.isDigit = false) :
    Longest (sign ++ whole ++ fraction) rest := by
  refine ⟨.numeral hs hw hf, fun {v} hv hpre => ?_⟩
  obtain ⟨c, w, hcw, hl⟩ := lead?_of_numeral hs hw fraction
  obtain ⟨t, ht⟩ := hpre
  cases v with
  | nil => exact absurd rfl hv.ne_nil
  | cons d v =>
    have hd : d = c := by rw [hcw] at ht; simpa using congrArg List.head? ht
    rw [← hd] at hl
    rcases hv.of_lead with h | h | ⟨-, sign', whole', fraction', hs', hw', hf', he⟩ | h
    · rw [hl] at h; simp at h
    · rw [hl] at h; simp at h
    · rw [he] at ht ⊢
      rw [List.append_assoc, List.append_assoc (sign ++ whole)] at ht
      obtain ⟨hsign, hwt⟩ := eq_of_signs hs' hs hw' hw ht
      rw [hsign]
      cases hf' with
      | none =>
        have := prefix_length_le hw'.2 (hf.stops hr) ⟨t, by simpa using hwt⟩
        simp only [List.append_nil, List.length_append]
        omega
      | @point ds' hd' =>
        obtain ⟨hww, hft⟩ := eq_of_stops hw'.2 hw.2 (stops_cons.mpr rfl) (hf.stops hr) hwt
        subst hww
        cases hf with
        | none =>
          obtain ⟨hne, hdig⟩ := hd'
          cases ds' with
          | nil => exact absurd rfl hne
          | cons e ds' =>
            have := hp rfl e (ds' ++ t) hft.symm
            rw [hdig e (by simp)] at this
            cases this
        | @point ds hds =>
          simp only [List.cons_append, List.cons.injEq, true_and] at hft
          have := prefix_length_le hd'.2 hr ⟨t, hft⟩
          simp only [List.length_append, List.length_cons]
          omega
    · rw [hl] at h; simp at h

/-! ## The meaning of names and numerals -/

theorem isLower_eq_false {c : Char} {l : Lead} (h : lead? c = some l) (hl : l ≠ .lower) :
    c.isLower = false := by
  by_cases hc : c.isLower = true
  · rw [lead?_of_isLower hc, Option.some.injEq] at h
    exact absurd h.symm hl
  · simpa using hc

theorem isUpper_eq_false {c : Char} {l : Lead} (h : lead? c = some l) (hl : l ≠ .upper) :
    c.isUpper = false := by
  by_cases hc : c.isUpper = true
  · rw [lead?_of_isUpper hc, Option.some.injEq] at h
    exact absurd h.symm hl
  · simpa using hc

theorem isQuote_eq_false {c : Char} {l : Lead} (h : lead? c = some l) (hl : l ≠ .quote) :
    isQuote c = false := by
  by_cases hc : isQuote c = true
  · rw [lead?_of_isQuote hc, Option.some.injEq] at h
    exact absurd h.symm hl
  · simpa using hc

theorem meaning?_lower {w : List Char} (hw : isLowerName w = true) :
    meaning? w = some (match truthValue? w with
      | some b => .const (.bool b)
      | none => .const (.str (String.ofList w))) := by
  cases w with
  | nil => cases hw
  | cons c w =>
    have hq := isQuote_eq_false (lead?_of_isLower (isName_cons.mp hw).1) (by decide)
    simp only [meaning?, quotedInner?, hq, hw, Bool.false_and, Bool.false_eq_true,
      ite_false, ite_true]
    cases truthValue? (c :: w) <;> rfl

theorem meaning?_upper {w : List Char} (hw : isUpperName w = true) :
    meaning? w = some (.var (String.ofList w)) := by
  cases w with
  | nil => cases hw
  | cons c w =>
    have hc := lead?_of_isUpper (isName_cons.mp hw).1
    have hq := isQuote_eq_false hc (by decide)
    have hl : isLowerName (c :: w) = false := by
      simp [isLowerName, isName, isLower_eq_false hc (by decide)]
    simp only [meaning?, quotedInner?, hq, hl, hw, Bool.false_and, Bool.false_eq_true,
      ite_false, ite_true]

theorem meaning?_of_lead {c : Char} {w : List Char} (h : lead? c = some .numeral) :
    meaning? (c :: w) = (numberMeaning? (c :: w)).map .const := by
  have hl := isLower_eq_false h (by decide)
  have hu := isUpper_eq_false h (by decide)
  have hq := isQuote_eq_false h (by decide)
  simp [meaning?, quotedInner?, isLowerName, isUpperName, isName, hl, hu, hq]

theorem numberMeaning?_numeral {sign whole : List Char} (hs : IsSign sign) (hw : IsDigits whole)
    (fraction : List Char) :
    numberMeaning? (sign ++ whole ++ fraction) =
      unsignedMeaning? (!sign.isEmpty) (whole ++ fraction) := by
  rcases hs with h | h
  · subst h
    obtain ⟨hne, hd⟩ := hw
    cases whole with
    | nil => exact absurd rfl hne
    | cons d ds =>
      have hm : d ≠ '-' := fun h => by have := hd d (by simp); rw [h] at this; cases this
      unfold numberMeaning?
      split
      · rename_i heq
        simp only [List.nil_append, List.cons_append, List.cons.injEq] at heq
        exact absurd heq.1 hm
      · rfl
  · subst h; rfl

theorem meaning?_whole {sign whole : List Char} (hs : IsSign sign) (hw : IsDigits whole) :
    meaning? (sign ++ whole) =
      (Numeral.int64? (Numeral.signed (!sign.isEmpty) whole)).map fun n => .const (.int n) := by
  obtain ⟨c, w, he, hl⟩ := lead?_of_numeral hs hw []
  have hn := numberMeaning?_numeral hs hw []
  rw [List.append_nil] at he hn
  obtain ⟨ht, hd⟩ := takeWhile_of_stops hw.2 (stops_nil Char.isDigit)
  rw [List.append_nil] at ht hd
  rw [he] at hn ⊢
  rw [meaning?_of_lead hl, hn, List.append_nil]
  simp only [unsignedMeaning?, ht, hd, if_neg hw.1, Option.map_map]
  rfl

theorem meaning?_decimal {sign whole ds : List Char} (hs : IsSign sign) (hw : IsDigits whole)
    (hd : IsDigits ds) :
    meaning? (sign ++ whole ++ '.' :: ds) = some (.const (.float
      (.ofDecimal (!sign.isEmpty) (Numeral.value (whole ++ ds)) ds.length))) := by
  obtain ⟨c, w, he, hl⟩ := lead?_of_numeral hs hw ('.' :: ds)
  have hn := numberMeaning?_numeral hs hw ('.' :: ds)
  obtain ⟨ht, hr⟩ :=
    takeWhile_of_stops hw.2 (stops_cons.mpr rfl : Stops Char.isDigit ('.' :: ds))
  have hall : ds.all Char.isDigit = true := List.all_eq_true.mpr hd.2
  rw [he] at hn ⊢
  rw [meaning?_of_lead hl, hn]
  simp [unsignedMeaning?, ht, hr, hw.1, hd.1, hall]

theorem meaning?_literal {quote : Char} {inner : List Char} (hq : isQuote quote = true)
    (hi : ∀ c ∈ inner, isInside quote c = true) :
    meaning? (quote :: inner ++ [quote]) =
      (quotedMeaning? (quote :: inner ++ [quote]) inner).map .const := by
  have hstop : Stops (isInside quote) [quote] := by simp [stops_cons, isInside]
  obtain ⟨ht, hd⟩ := takeWhile_of_stops hi hstop
  have hinner : quotedInner? (quote :: inner ++ [quote]) = some inner := by
    simp [quotedInner?, hq, ht, hd]
  unfold meaning?
  rw [hinner]

/-! ## Lexemes -/

namespace Reader

/-- The readers of lexemes in the order in which a term tries them. -/
def lexemes (policy : Policy) : Reader Term :=
  lexeme policy lowerName <|>
  lexeme policy upperName <|>
  lexeme policy decimalNumeral <|>
  lexeme policy wholeNumeral <|>
  lexeme policy (quotedLiteral '\'') <|>
  lexeme policy (quotedLiteral '"')

theorem lexeme_eq_done {policy : Policy} {p : Reader (List Char)} {cs rest : List Char} {t : Term} :
    lexeme policy p cs = .done t rest ↔ ∃ w, p cs = .done w rest ∧ meaning? w = some t := by
  unfold lexeme
  cases p cs with
  | done w r =>
    cases hm : meaning? w with
    | some s =>
      simp only [hm, Reply.done.injEq]
      constructor
      · intro h; exact ⟨w, ⟨rfl, h.2⟩, by rw [hm, h.1]⟩
      · intro h
        obtain ⟨v, ⟨hv, hr⟩, ht⟩ := h
        rw [← hv, hm] at ht
        exact ⟨Option.some.inj ht, hr⟩
    | none =>
      simp only [hm]
      constructor
      · intro h; cases policy <;> cases h
      · intro h
        obtain ⟨v, hv, ht⟩ := h
        simp only [Reply.done.injEq] at hv
        rw [← hv.1, hm] at ht; cases ht
  | _ => simp

theorem lexeme_isStuck {policy : Policy} {p : Reader (List Char)} {cs : List Char}
    (h : (p cs).IsStuck) :
    (lexeme policy p cs).IsStuck := by
  obtain ⟨r, h⟩ := h
  exact ⟨r, by simp only [lexeme, h]⟩

theorem isStuck_of_lexeme {policy : Policy} {p : Reader (List Char)} {cs : List Char}
    (h : (lexeme policy p cs).IsStuck) :
    (p cs).IsStuck ∨ ∃ w rest, p cs = .done w rest ∧ meaning? w = none := by
  unfold lexeme at h
  cases hp : p cs with
  | done w r =>
    cases hm : meaning? w with
    | some s => simp [hp, hm, Reply.IsStuck] at h
    | none => exact .inr ⟨w, r, rfl, hm⟩
  | stuck r => exact .inl ⟨r, rfl⟩
  | rejected w => simp [hp, Reply.IsStuck] at h
  | exhausted => simp [hp, Reply.IsStuck] at h

/-! ### Which reader a text leads to -/

variable {cs w rest : List Char}

theorem leads?_of_lowerName (h : lowerName cs = .done w rest) : leads? cs = some .lower := by
  obtain ⟨hj, hw, -⟩ := nameFrom_eq_done.mp h
  obtain ⟨c, v, he, hc⟩ := exists_cons_of_isName hw
  rw [he] at hj
  rw [leads?_eq hj, lead?_of_isLower hc]

theorem leads?_of_upperName (h : upperName cs = .done w rest) : leads? cs = some .upper := by
  obtain ⟨hj, hw, -⟩ := nameFrom_eq_done.mp h
  obtain ⟨c, v, he, hc⟩ := exists_cons_of_isName hw
  rw [he] at hj
  rw [leads?_eq hj, lead?_of_isUpper hc]

theorem leads?_of_decimalNumeral (h : decimalNumeral cs = .done w rest) :
    leads? cs = some .numeral := by
  obtain ⟨hj, -, sign, whole, ds, hs, hw, -, he⟩ := decimalNumeral_eq_done.mp h
  obtain ⟨c, v, hc, hl⟩ := lead?_of_numeral hs hw ('.' :: ds)
  rw [he, hc] at hj
  rw [leads?_eq hj, hl]

theorem leads?_of_wholeNumeral (h : wholeNumeral cs = .done w rest) :
    leads? cs = some .numeral := by
  obtain ⟨hj, -, sign, whole, hs, hw, he⟩ := wholeNumeral_eq_done.mp h
  obtain ⟨c, v, hc, hl⟩ := lead?_of_numeral hs hw []
  rw [List.append_nil] at hc
  rw [he, hc] at hj
  rw [leads?_eq hj, hl]

theorem leads?_of_quotedLiteral {quote : Char} (hq : isQuote quote = true)
    (h : quotedLiteral quote cs = .done w rest) : leads? cs = some .quote := by
  obtain ⟨hj, inner, -, he⟩ := quotedLiteral_eq_done.mp h
  rw [he, List.cons_append] at hj
  rw [leads?_eq hj, lead?_of_isQuote hq]

theorem isStuck_of_leads? {p : Reader (List Char)} {l : Lead} (hp : Plain p)
    (h : ∀ {w rest}, p cs = .done w rest → leads? cs = some l) (hl : leads? cs ≠ some l) :
    (p cs).IsStuck :=
  hp.isStuck_iff.mpr fun _ _ hd => hl (h hd)

/-! ### Each reader takes a longest token -/

theorem longest_of_lowerName (h : lowerName cs = .done w rest) :
    skipJunk cs = w ++ rest ∧ Longest w rest := by
  obtain ⟨hj, hw, hr⟩ := nameFrom_eq_done.mp h
  exact ⟨hj, longest_lower hw hr⟩

theorem longest_of_upperName (h : upperName cs = .done w rest) :
    skipJunk cs = w ++ rest ∧ Longest w rest := by
  obtain ⟨hj, hw, hr⟩ := nameFrom_eq_done.mp h
  exact ⟨hj, longest_upper hw hr⟩

theorem longest_of_decimalNumeral (h : decimalNumeral cs = .done w rest) :
    skipJunk cs = w ++ rest ∧ Longest w rest := by
  obtain ⟨hj, hr, sign, whole, ds, hs, hw, hd, he⟩ := decimalNumeral_eq_done.mp h
  subst he
  exact ⟨hj, longest_numeral hs hw (.point hd) hr fun h => by cases h⟩

theorem longest_of_wholeNumeral (hd : (decimalNumeral cs).IsStuck)
    (h : wholeNumeral cs = .done w rest) :
    skipJunk cs = w ++ rest ∧ Longest w rest := by
  obtain ⟨hj, hr, sign, whole, hs, hw, he⟩ := wholeNumeral_eq_done.mp h
  subst he
  refine ⟨hj, ?_⟩
  rw [← List.append_nil (sign ++ whole)]
  refine longest_numeral hs hw .none hr fun _ d tail hrest => ?_
  by_cases hdig : d.isDigit = true
  · -- a point and a digit would have made a decimal numeral
    refine absurd ?_ (plain_decimalNumeral.isStuck_iff.mp hd
      (sign ++ whole ++ '.' :: (d :: tail).takeWhile Char.isDigit)
      ((d :: tail).dropWhile Char.isDigit))
    refine decimalNumeral_eq_done.mpr
      ⟨?_, stops_dropWhile _ _, sign, whole, _, hs, hw, ⟨?_, ?_⟩, rfl⟩
    · rw [hj, hrest]
      simp
    · simp [hdig]
    · exact fun c hc => List.all_eq_true.mp List.all_takeWhile c hc
  · simpa using hdig

theorem longest_of_quotedLiteral {quote : Char} (hq : isQuote quote = true)
    (h : quotedLiteral quote cs = .done w rest) : skipJunk cs = w ++ rest ∧ Longest w rest := by
  obtain ⟨hj, inner, hi, he⟩ := quotedLiteral_eq_done.mp h
  subst he
  exact ⟨hj, longest_literal rest hq hi⟩

end Reader

/-! ### Each longest token is taken -/

section
variable {cs w rest : List Char}

theorem Longest.not_isToken_concat (h : Longest w rest) {c : Char} (hc : c ∈ rest.head?) :
    ¬ IsToken (w ++ [c]) := by
  intro ht
  obtain ⟨tail, hrest⟩ : ∃ tail, rest = c :: tail := by
    cases rest with
    | nil => cases hc
    | cons d tail => exact ⟨tail, by simp at hc; rw [hc]⟩
  have := h.length_le ht ⟨tail, by simp [hrest]⟩
  simp only [List.length_append, List.length_cons, List.length_nil] at this
  omega

theorem Longest.stops_name {initial : Char → Bool} (h : Longest w rest)
    (hw : isName initial w = true) (ht : ∀ {v}, isName initial v = true → IsToken v) :
    Stops isNameChar rest := by
  intro c hc
  by_cases hn : isNameChar c = true
  · refine absurd (ht ?_) (h.not_isToken_concat hc)
    cases w with
    | nil => cases hw
    | cons d w =>
      obtain ⟨hd, hw⟩ := isName_cons.mp hw
      refine isName_cons.mpr ⟨hd, fun e he => ?_⟩
      rcases List.mem_append.mp he with he | he
      · exact hw e he
      · rw [List.mem_singleton.mp he, hn]
  · simpa using hn

theorem IsDigits.concat {ds : List Char} (h : IsDigits ds) {c : Char} (hc : c.isDigit = true) :
    IsDigits (ds ++ [c]) := by
  refine ⟨by simp, fun d hd => ?_⟩
  rcases List.mem_append.mp hd with hd | hd
  · exact h.2 d hd
  · rw [List.mem_singleton.mp hd, hc]

theorem Longest.stops_digit {sign whole fraction : List Char} (hs : IsSign sign)
    (hw : IsDigits whole) (hf : IsFraction fraction)
    (h : Longest (sign ++ whole ++ fraction) rest) : Stops Char.isDigit rest := by
  intro c hc
  by_cases hn : c.isDigit = true
  · refine absurd ?_ (h.not_isToken_concat hc)
    cases hf with
    | none => simpa using IsToken.numeral hs (hw.concat hn) .none
    | point hd => simpa using IsToken.numeral hs hw (.point (hd.concat hn))
  · simpa using hn

theorem Longest.decimalNumeral_isStuck {sign whole : List Char} (hs : IsSign sign)
    (hw : IsDigits whole) (hj : skipJunk cs = sign ++ whole ++ rest)
    (h : Longest (sign ++ whole) rest) :
    (decimalNumeral cs).IsStuck := by
  refine plain_decimalNumeral.isStuck_iff.mpr fun v tail hd => ?_
  obtain ⟨hv, -, sign', whole', ds, hs', hw', hds, he⟩ := decimalNumeral_eq_done.mp hd
  subst he
  have hlen := h.length_le (.numeral hs' hw' (.point hds)) ⟨tail, by rw [← hv, hj]⟩
  have hlong := (longest_of_decimalNumeral hd).2.length_le h.isToken ⟨rest, by rw [← hv, hj]⟩
  have he := List.append_inj (hj.symm.trans hv) (Nat.le_antisymm hlong hlen)
  -- whole digits alone hold no point
  have hmem : '.' ∈ sign ++ whole := by rw [he.1]; simp
  rcases List.mem_append.mp hmem with hm | hm
  · rcases hs with h | h <;> simp [h] at hm
  · have := hw.2 '.' hm
    cases this

end

namespace Reader

variable {cs w rest : List Char}

theorem lexeme_isStuck_of_leads? {policy : Policy} {p : Reader (List Char)} {l : Lead}
    (hp : Plain p) (h : ∀ {w rest}, p cs = .done w rest → leads? cs = some l)
    (hl : leads? cs ≠ some l) :
    (lexeme policy p cs).IsStuck :=
  lexeme_isStuck (isStuck_of_leads? hp h hl)

theorem decimalNumeral_isStuck {policy : Policy} (h : (lexeme policy decimalNumeral cs).IsStuck) :
    (decimalNumeral cs).IsStuck := by
  rcases isStuck_of_lexeme h with h | ⟨v, r, hv, hnone⟩
  · exact h
  · obtain ⟨-, -, sign, whole, ds, hs, hw, hds, he⟩ := decimalNumeral_eq_done.mp hv
    rw [he, meaning?_decimal hs hw hds] at hnone
    cases hnone

theorem longest_of_lexemes {policy : Policy} {t : Term} (h : lexemes policy cs = .done t rest) :
    ∃ w, skipJunk cs = w ++ rest ∧ Longest w rest ∧ meaning? w = some t := by
  simp only [lexemes, orElse_eq_done, lexeme_eq_done] at h
  rcases h with
    ⟨w, h, hm⟩ | ⟨-, ⟨w, h, hm⟩ | ⟨-,
      ⟨w, h, hm⟩ | ⟨hd, ⟨w, h, hm⟩ | ⟨-, ⟨w, h, hm⟩ | ⟨-, w, h, hm⟩⟩⟩⟩⟩
  · obtain ⟨hj, hl⟩ := longest_of_lowerName h; exact ⟨w, hj, hl, hm⟩
  · obtain ⟨hj, hl⟩ := longest_of_upperName h; exact ⟨w, hj, hl, hm⟩
  · obtain ⟨hj, hl⟩ := longest_of_decimalNumeral h; exact ⟨w, hj, hl, hm⟩
  -- no decimal numeral stands in front, so the whole one is a longest token
  · obtain ⟨hj, hl⟩ := longest_of_wholeNumeral (decimalNumeral_isStuck hd) h
    exact ⟨w, hj, hl, hm⟩
  · obtain ⟨hj, hl⟩ := longest_of_quotedLiteral rfl h; exact ⟨w, hj, hl, hm⟩
  · obtain ⟨hj, hl⟩ := longest_of_quotedLiteral rfl h; exact ⟨w, hj, hl, hm⟩

section
variable {policy : Policy} {t : Term} {w : List Char}

theorem lexeme_lowerName_isStuck (h : leads? cs ≠ some .lower) :
    (lexeme policy lowerName cs).IsStuck :=
  lexeme_isStuck_of_leads? (plain_nameFrom _) leads?_of_lowerName h

theorem lexeme_upperName_isStuck (h : leads? cs ≠ some .upper) :
    (lexeme policy upperName cs).IsStuck :=
  lexeme_isStuck_of_leads? (plain_nameFrom _) leads?_of_upperName h

theorem lexeme_done {p : Reader (List Char)} (hm : meaning? w = some t) (h : p cs = .done w rest) :
    lexeme policy p cs = .done t rest := lexeme_eq_done.mpr ⟨w, h, hm⟩

theorem lexemes_of_upperName (hm : meaning? w = some t) (h : upperName cs = .done w rest) :
    lexemes policy cs = .done t rest := by
  have hlead := leads?_of_upperName h
  unfold lexemes
  rw [orElse_eq_done_of_stuck (lexeme_lowerName_isStuck (by rw [hlead]; decide))]
  exact orElse_of_done (lexeme_done hm h)

theorem lexemes_of_numeral {sign whole fraction : List Char} (hs : IsSign sign)
    (hw : IsDigits whole) (hf : IsFraction fraction)
    (hm : meaning? (sign ++ whole ++ fraction) = some t)
    (hj : skipJunk cs = sign ++ whole ++ fraction ++ rest)
    (hl : Longest (sign ++ whole ++ fraction) rest) :
    lexemes policy cs = .done t rest := by
  have hstop := hl.stops_digit hs hw hf
  obtain ⟨c, v, hc, hlead⟩ := lead?_of_numeral hs hw fraction
  rw [← leads?_eq (hc ▸ hj)] at hlead
  unfold lexemes
  rw [orElse_eq_done_of_stuck (lexeme_lowerName_isStuck (by rw [hlead]; decide)),
    orElse_eq_done_of_stuck (lexeme_upperName_isStuck (by rw [hlead]; decide))]
  cases hf with
  | none =>
    rw [List.append_nil] at hj hl hm
    rw [orElse_eq_done_of_stuck (lexeme_isStuck (hl.decimalNumeral_isStuck hs hw hj))]
    exact orElse_of_done
      (lexeme_done hm (wholeNumeral_eq_done.mpr ⟨hj, hstop, sign, whole, hs, hw, rfl⟩))
  | @point ds hd =>
    exact orElse_of_done (lexeme_done hm
      (decimalNumeral_eq_done.mpr ⟨hj, hstop, sign, whole, ds, hs, hw, hd, rfl⟩))

theorem lexemes_of_quotedLiteral {quote : Char} (hq : isQuote quote = true)
    (hm : meaning? w = some t) (h : quotedLiteral quote cs = .done w rest) :
    lexemes policy cs = .done t rest := by
  have hlead := leads?_of_quotedLiteral hq h
  have hdecimal : (lexeme policy decimalNumeral cs).IsStuck :=
    lexeme_isStuck_of_leads? plain_decimalNumeral leads?_of_decimalNumeral (by rw [hlead]; decide)
  have hwhole : (lexeme policy wholeNumeral cs).IsStuck :=
    lexeme_isStuck_of_leads? plain_wholeNumeral leads?_of_wholeNumeral (by rw [hlead]; decide)
  unfold lexemes
  rw [orElse_eq_done_of_stuck (lexeme_lowerName_isStuck (by rw [hlead]; decide)),
    orElse_eq_done_of_stuck (lexeme_upperName_isStuck (by rw [hlead]; decide)),
    orElse_eq_done_of_stuck hdecimal, orElse_eq_done_of_stuck hwhole]
  rcases isQuote_iff.mp hq with hq | hq
  · subst hq; exact orElse_of_done (lexeme_done hm h)
  · subst hq
    have hsingle : (quotedLiteral '\'' cs).IsStuck := by
      apply (plain_quotedLiteral _).isStuck_iff.mpr
      intro v tail hv
      obtain ⟨hj, inner, -, he⟩ := quotedLiteral_eq_done.mp h
      obtain ⟨hj', inner', -, he'⟩ := quotedLiteral_eq_done.mp hv
      rw [hj, he, he'] at hj'
      simp at hj'
    exact (orElse_eq_done_of_stuck (lexeme_isStuck hsingle)).mpr (lexeme_done hm h)

/-- The lexemes of a text are its longest token, if it has a meaning. -/
theorem lexemes_eq_done : lexemes policy cs = .done t rest ↔
    ∃ w, skipJunk cs = w ++ rest ∧ Longest w rest ∧ meaning? w = some t := by
  refine ⟨longest_of_lexemes, fun h => ?_⟩
  obtain ⟨w, hj, hl, hm⟩ := h
  cases hl.isToken with
  | lower hw =>
    exact orElse_of_done
      (lexeme_done hm (nameFrom_eq_done.mpr ⟨hj, hw, hl.stops_name hw .lower⟩))
  | upper hw =>
    exact lexemes_of_upperName hm (nameFrom_eq_done.mpr ⟨hj, hw, hl.stops_name hw .upper⟩)
  | numeral hs hw hf => exact lexemes_of_numeral hs hw hf hm hj hl
  | literal hq hi =>
    exact lexemes_of_quotedLiteral hq hm (quotedLiteral_eq_done.mpr ⟨hj, _, hi, rfl⟩)

end

end Reader

end Clausal
