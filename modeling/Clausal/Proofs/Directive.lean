import Clausal.Proofs.Parse
import Clausal.Proofs.TermReader

/-!
# Directives as text

A path is written in quotes of either kind or bare, and printed in single quotes as it
is. A path in double quotes can hold a single one: that quote ends the printed path
early, so the printed directive is not read back as the same.
-/

namespace Clausal

open Reader Lexeme

variable {cs rest : List Char}

/-! ## Paths -/

namespace Reader

theorem quotedInner_isStuck {quote c : Char} (h : skipJunk cs = c :: rest) (hc : quote ≠ c) :
    (quotedInner quote cs).IsStuck := bind_of_stuck (mark_isStuck_of_ne h hc)

theorem barePath_eq_done {p : List Char} : token (run1 isPathChar) cs = .done p rest ↔
    skipJunk cs = p ++ rest ∧ p ≠ [] ∧ (∀ c ∈ p, isPathChar c = true) ∧
    Stops isPathChar rest := run1_eq_done

theorem path_eq_done {p : List Char} : path cs = .done p rest ↔
    (∃ quote, isQuote quote = true ∧ quotedInner quote cs = .done p rest) ∨
    token (run1 isPathChar) cs = .done p rest := by
  constructor
  · intro h
    unfold path at h
    rw [orElse_eq_done, orElse_eq_done] at h
    rcases h with h | ⟨-, h | ⟨-, h⟩⟩
    · exact .inl ⟨'\'', rfl, h⟩
    · exact .inl ⟨'"', rfl, h⟩
    · exact .inr h
  · intro h
    unfold path
    rcases h with ⟨quote, hq, h⟩ | h
    · rcases isQuote_iff.mp hq with hq | hq
      · subst hq
        exact orElse_of_done h
      · subst hq
        obtain ⟨hj, -⟩ := quotedInner_eq_done.mp h
        rw [orElse_eq_done_of_stuck (quotedInner_isStuck hj (by decide))]
        exact orElse_of_done h
    · obtain ⟨hj, hne, hp, -⟩ := barePath_eq_done.mp h
      cases p with
      | nil => exact absurd rfl hne
      | cons c p =>
        have hc := hp c (by simp)
        -- no quote is a character of bare paths
        rw [orElse_eq_done_of_stuck (quotedInner_isStuck hj (by rintro rfl; cases hc)),
          orElse_eq_done_of_stuck (quotedInner_isStuck hj (by rintro rfl; cases hc))]
        exact h

theorem path_no_feed {p : List Char} (h : path cs = .done p rest) : '\n' ∉ p := by
  intro hn
  rcases path_eq_done.mp h with ⟨quote, -, h⟩ | h
  · have := (quotedInner_eq_done.mp h).2 _ hn
    simp [isInside] at this
  · obtain ⟨-, -, hp, -⟩ := barePath_eq_done.mp h
    cases hp _ hn

/-- Only between double quotes a path can hold a single one. -/
theorem path_of_quote {p : List Char} (h : path cs = .done p rest) (hm : '\'' ∈ p) :
    skipJunk cs = '"' :: p ++ '"' :: rest := by
  rcases path_eq_done.mp h with ⟨quote, hq, h⟩ | h
  · obtain ⟨hj, hp⟩ := quotedInner_eq_done.mp h
    rcases isQuote_iff.mp hq with hq | hq
    · subst hq
      cases hp _ hm
    · subst hq
      exact hj
  · obtain ⟨-, -, hp, -⟩ := barePath_eq_done.mp h
    cases hp _ hm

theorem path_singleQuote {p : List Char} : path ('\'' :: cs) = .done p rest ↔
    cs = p ++ '\'' :: rest ∧ ∀ c ∈ p, isInside '\'' c = true := by
  have hj : skipJunk ('\'' :: cs) = '\'' :: cs := skipJunk_solid rfl cs
  rw [path_eq_done]
  constructor
  · intro h
    rcases h with ⟨quote, -, h⟩ | h
    · obtain ⟨hq, hp⟩ := quotedInner_eq_done.mp h
      rw [hj, List.cons_append, List.cons.injEq] at hq
      obtain ⟨he, hq⟩ := hq
      subst he
      exact ⟨hq, hp⟩
    · obtain ⟨hw, hne, hp, -⟩ := barePath_eq_done.mp h
      rw [hj] at hw
      cases p with
      | nil => exact absurd rfl hne
      | cons c p =>
        rw [List.cons_append, List.cons.injEq] at hw
        cases hw.1 ▸ hp c (by simp)
  · intro h
    obtain ⟨hq, hp⟩ := h
    refine .inl ⟨'\'', rfl, quotedInner_eq_done.mpr ⟨?_, hp⟩⟩
    rw [hj, hq]
    rfl

/-! ## Directives -/

theorem takes_directive {i : Include} :
    Takes directive i cs ↔ ∃ o r s t, optional neck cs = .done o r ∧
    keyword "include".toList r = .done () s ∧ parenthesized path s = .done i.path.toList t ∧
    AtEnd t := by
  constructor
  · intro h
    obtain ⟨rest, h, hrest⟩ := h
    simp only [directive, bind_eq_done, pure_eq_done] at h
    obtain ⟨o, r, hneck, u, s, hword, p, t, hp, o', v, hperiod, hi, hv⟩ := h
    subst hi hv
    have hpath : parenthesized path s = .done (String.ofList p).toList t := by
      rw [String.toList_ofList]
      exact hp
    exact ⟨o, r, s, t, hneck, hword, hpath, takes_period.mp ⟨o', v, hperiod, hrest⟩⟩
  · intro h
    obtain ⟨o, r, s, t, hneck, hword, hp, ht⟩ := h
    obtain ⟨o', rest, hperiod, hrest⟩ := takes_period.mpr ht
    refine ⟨rest, ?_, hrest⟩
    simp only [directive, bind_eq_done, pure_eq_done]
    exact ⟨o, r, hneck, (), s, hword, _, t, hp, o', rest, hperiod,
      by rw [String.ofList_toList], rfl⟩

theorem path_of_takes {i : Include} (h : Takes directive i cs) :
    ∃ s t, s <:+ cs ∧ path s = .done i.path.toList t := by
  obtain ⟨o, r, s, t, hneck, hword, hp, -⟩ := takes_directive.mp h
  obtain ⟨u, v, hs, hpath, -⟩ := parenthesized_eq_done.mp hp
  refine ⟨u, v, ?_, hpath⟩
  have hr : r <:+ cs := by
    rcases optional_eq_done.mp hneck with ⟨x, -, hx⟩ | ⟨-, he, -⟩
    · have := (junk_of_skipJunk (symbol_eq_done.mp hx)).suffix
      exact (List.suffix_append _ _).trans this
    · exact he ▸ List.suffix_rfl
  have hsr : s <:+ r :=
    (List.suffix_append _ _).trans (junk_of_skipJunk (keyword_eq_done.mp hword).1).suffix
  have hus : u <:+ s := (List.suffix_cons _ _).trans (junk_of_skipJunk hs).suffix
  exact hus.trans (hsr.trans hr)

end Reader

/-! ## Printed directives -/

namespace Include

/-- A printed directive is read up to the first quote behind the one that opens its path. -/
theorem takes_chars {i j : Include} : Takes directive j i.chars ↔ ∃ s t,
    i.path.toList ++ ['\'', ')'] = j.path.toList ++ '\'' :: s ∧
    (∀ c ∈ j.path.toList, isInside '\'' c = true) ∧
    skipJunk s = ')' :: t ∧ AtEnd t := by
  have hj : skipJunk i.chars = i.chars := skipJunk_solid rfl _
  -- no neck is printed, so the word stands at the front
  have hneck : (neck i.chars).IsStuck := by
    apply (plain_symbol _).isStuck_iff.mpr
    intro u r h
    have := symbol_eq_done.mp h
    rw [hj] at this
    cases this
  have hword : keyword "include".toList i.chars =
      .done () ('(' :: '\'' :: i.path.toList ++ ['\'', ')']) := by
    rw [keyword_eq_done, hj]
    exact ⟨rfl, stops_cons.mpr rfl⟩
  have hopen : skipJunk ('(' :: '\'' :: i.path.toList ++ ['\'', ')']) =
      '(' :: ('\'' :: i.path.toList ++ ['\'', ')']) := skipJunk_solid rfl _
  rw [takes_directive]
  constructor
  · intro h
    obtain ⟨o, r, s, t, ho, hs, hp, ht⟩ := h
    rcases optional_eq_done.mp ho with ⟨x, -, hx⟩ | ⟨-, he, -⟩
    · exact absurd hx (hneck.ne_done x r)
    · subst he
      rw [hword] at hs
      cases hs
      obtain ⟨u, v, hu, hv, hc⟩ := parenthesized_eq_done.mp hp
      rw [hopen] at hu
      cases hu
      obtain ⟨hq, hi⟩ := path_singleQuote.mp hv
      exact ⟨v, t, hq, hi, hc, ht⟩
  · intro h
    obtain ⟨s, t, hq, hi, hc, ht⟩ := h
    exact ⟨none, _, _, t, optional_eq_done.mpr (.inr ⟨rfl, rfl, hneck⟩), hword,
      parenthesized_eq_done.mpr ⟨_, s, hopen, path_singleQuote.mpr ⟨hq, hi⟩, hc⟩, ht⟩

theorem parse_eq_ok {text : String} {i : Include} :
    parse text = .ok i ↔ Takes directive i text.toList :=
  complete_eq_ok

theorem parse_text_eq_ok {i j : Include} : parse i.text = .ok j ↔ Takes directive j i.chars := by
  unfold text
  rw [parse_eq_ok, String.toList_ofList]

theorem eq_takeWhile_of_quote {p q tail : List Char} (h : p ++ '\'' :: tail = q ++ '\'' :: rest)
    (hq : '\'' ∉ q) :
    q = p.takeWhile (· != '\'') := by
  have hquote (r : List Char) : Stops (· != '\'') ('\'' :: r) := stops_cons.mpr rfl
  have hall : ∀ c ∈ q, (c != '\'') = true := by
    intro c hc
    rw [bne_iff_ne]
    intro he
    exact hq (he ▸ hc)
  have htail : Stops (· != '\'') (p.dropWhile (· != '\'') ++ '\'' :: tail) := by
    have hstop := stops_dropWhile (· != '\'') p
    cases hd : p.dropWhile (· != '\'') with
    | nil => exact hquote tail
    | cons c r =>
      rw [hd] at hstop
      exact hstop
  rw [← List.takeWhile_append_dropWhile (p := (· != '\'')) (l := p), List.append_assoc] at h
  exact (eq_of_stops (List.all_eq_true.mp List.all_takeWhile) hall htail (hquote rest) h).1.symm

/-- A directive is read back from its text exactly if no single quote is in its path. One that holds
such a quote was written in double quotes, and of its path no more than what stands before the quote
is read back. -/
theorem parse_directive_text {text : String} {i : Include} (h : parse text = .ok i) :
    (parse i.text = .ok i ↔ '\'' ∉ i.path.toList) ∧
    ('\'' ∈ i.path.toList → (∃ front back, text = front ++ "\"" ++ i.path ++ "\"" ++ back) ∧
      ∀ j, parse i.text = .ok j → j.path.toList = i.path.toList.takeWhile (· != '\'')) := by
  obtain ⟨cs, rest, hsuffix, hpath⟩ := path_of_takes (parse_eq_ok.mp h)
  refine ⟨⟨fun hi hm => ?_, fun hm => ?_⟩, fun hm => ⟨?_, fun j hj => ?_⟩⟩
  · obtain ⟨-, -, -, hp, -⟩ := takes_chars.mp (parse_text_eq_ok.mp hi)
    cases hp _ hm
  · have hp : ∀ c ∈ i.path.toList, isInside '\'' c = true := by
      intro c hc
      have hquote : c ≠ '\'' := fun he => hm (he ▸ hc)
      have hfeed : c ≠ '\n' := fun he => path_no_feed hpath (he ▸ hc)
      simp [isInside, hquote, hfeed]
    exact parse_text_eq_ok.mpr (takes_chars.mpr ⟨[')'], [], rfl, hp, rfl, .inl rfl⟩)
  · obtain ⟨front, hfront⟩ := (junk_of_skipJunk (path_of_quote hpath hm)).suffix.trans hsuffix
    refine ⟨String.ofList front, String.ofList rest, ?_⟩
    apply String.toList_inj.mp
    simp [← hfront]
  · obtain ⟨s, t, hs, hp, -⟩ := takes_chars.mp (parse_text_eq_ok.mp hj)
    have hquote : '\'' ∉ j.path.toList := by
      intro hq
      cases hp _ hq
    exact eq_takeWhile_of_quote hs hquote

theorem parse_directive_text_of_sample :
    parse ":- include(lib/a.pl)." = .ok ⟨"lib/a.pl"⟩ ∧
    parse (text ⟨"lib/a.pl"⟩) = .ok ⟨"lib/a.pl"⟩ := by
  have h : parse ":- include(lib/a.pl)." = .ok ⟨"lib/a.pl"⟩ := by rfl
  exact ⟨h, (parse_directive_text h).1.mpr (by decide)⟩

theorem parse_directive_text_of_inner_quote :
    ¬ ∀ (t : String) (i : Include), parse t = .ok i → parse i.text = .ok i := by
  intro h
  have hparse : parse "include(\"it's.pl\")" = .ok ⟨"it's.pl"⟩ := by rfl
  obtain ⟨-, -, -, hp, -⟩ := takes_chars.mp (parse_text_eq_ok.mp (h _ _ hparse))
  cases hp '\'' (by decide)

-- the rest of a path behind its quote may be a comment: then another path is read back
example : parse "include(\"a') % '\")" = .ok ⟨"a') % '"⟩ ∧
    parse (text ⟨"a') % '"⟩) = .ok ⟨"a"⟩ := ⟨by rfl, by rfl⟩

end Include

end Clausal
