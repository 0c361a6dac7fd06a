import Clausal.Proofs.TermReader

/-!
# The reader of formulas, part by part

When each reader of a part of a formula is done, and by which character in front
it is stuck. An operand of a comparison is read as a term alone would be.
-/

namespace Clausal

open Lexeme

/-- The text goes on with the end of a literal, or ends itself. -/
def Closes (rest : List Char) : Prop :=
  ∀ c ∈ (Reader.skipJunk rest).head?, c ∈ [',', ')', '.']

theorem closes_of_skipJunk {c : Char} {cs rest : List Char} (h : Reader.skipJunk cs = c :: rest)
    (hc : c ∈ [',', ')', '.']) : Closes cs := by
  intro d hd
  rw [h, List.head?_cons, Option.mem_some_iff] at hd
  exact hd ▸ hc

theorem closes_of_nil {cs : List Char} (h : Reader.skipJunk cs = []) : Closes cs := by
  intro d hd
  rw [h] at hd
  cases hd

theorem Closes.avoids {rest marks : List Char} (h : Closes rest)
    (hm : ∀ c ∈ [',', ')', '.'], c ∉ marks) :
    Avoids marks rest := by
  intro c hc r hr
  exact hm c (h c (by simp [hr])) hc

namespace Reader

variable {α : Type} {cs rest : List Char} {policy : Policy}

/-! ## Names and signs -/

theorem lowerName_isStuck {c : Char} (h : skipJunk cs = c :: rest) (hc : c.isLower = false) :
    (lowerName cs).IsStuck := by
  apply (plain_nameFrom _).isStuck_iff.mpr
  intro w r hw
  obtain ⟨hj, hn, -⟩ := nameFrom_eq_done.mp hw
  obtain ⟨d, v, he, hd⟩ := exists_cons_of_isName hn
  rw [h, he, List.cons_append, List.cons.injEq] at hj
  rw [hj.1, hd] at hc
  cases hc

theorem predicateName_isStuck (h : (lowerName cs).IsStuck) : (predicateName cs).IsStuck := by
  obtain ⟨r, h⟩ := h
  exact ⟨r, by simp only [predicateName, h]⟩

theorem predicateName_not (h : lowerName cs = .done ['n', 'o', 't'] rest) :
    (predicateName cs).IsStuck :=
  ⟨cs, by simp only [predicateName, h, ite_true]⟩

theorem comparison_isStuck (h : Avoids ['=', '<', '>'] cs) : (comparison cs).IsStuck := by
  have hsign (c : Comparison) : (comparisonSign c (skipJunk cs)).IsStuck := by
    have hp : Plain (comparisonSign c) := plain_bind (plain_exactly _) fun _ => plain_pure _
    apply hp.isStuck_iff.mpr
    intro d r hd
    obtain ⟨-, hs⟩ := comparisonSign_eq_done.mp hd
    cases c
    all_goals exact h _ (by simp) _ hs
  unfold comparison
  simp only [token, orElse_isStuck]
  exact ⟨hsign _, hsign _, hsign _, hsign _, hsign _, hsign _⟩

theorem front_of_comparison {c : Comparison} (h : comparison cs = .done c rest) :
    ∃ d r, skipJunk cs = d :: r ∧ d ∈ ['=', '<', '>'] ∧
      (d = '=' → ∃ e s, r = e :: s ∧ e ∈ [':', '\\', '<']) := by
  have hs := sign_of_comparison h
  cases c
  all_goals exact ⟨_, _, hs, by simp, by simp⟩

theorem avoids_of_comparison {c : Comparison} (h : comparison cs = .done c rest) {marks : List Char}
    (hm : ∀ d ∈ ['=', '<', '>'], d ∉ marks) : Avoids marks cs := by
  obtain ⟨d, r, hd, hmem, -⟩ := front_of_comparison h
  exact avoids_of_skipJunk hd (hm d hmem)

theorem avoids_of_lowerName {name marks : List Char} (h : lowerName cs = .done name rest)
    (hm : ∀ c, c.isLower = true → c ∉ marks) : Avoids marks cs := by
  obtain ⟨hj, hn, -⟩ := nameFrom_eq_done.mp h
  obtain ⟨c, v, he, hc⟩ := exists_cons_of_isName hn
  rw [he] at hj
  exact avoids_of_skipJunk hj (hm c hc)

theorem not_mem_brackets (c : Char) (hc : c.isLower = true) : c ∉ ['(', '['] := by
  intro h
  simp only [List.mem_cons, List.not_mem_nil, or_false] at h
  rcases h with h | h
  all_goals rw [h] at hc; cases hc

/-! ## Atoms -/

section
variable {term : Reader Term}

theorem relationalAtom_eq_done {a : Atom} : relationalAtom term policy cs = .done a rest ↔
    ∃ left c right r s, operand term policy cs = .done left r ∧ comparison r = .done c s ∧
      operand term policy s = .done right rest ∧ a = .compare c left right := by
  simp only [relationalAtom, bind_eq_done, pure_eq_done]
  constructor
  · intro h
    obtain ⟨left, r, hl, c, s, hc, right, t, hr, ha, hrest⟩ := h
    subst ha hrest
    exact ⟨left, c, right, r, s, hl, hc, hr, rfl⟩
  · intro h
    obtain ⟨left, c, right, r, s, hl, hc, hr, ha⟩ := h
    exact ⟨left, r, hl, c, s, hc, right, rest, hr, ha.symm, rfl⟩

theorem relationalAtom_isStuck_of_operand (h : (operand term policy cs).IsStuck) :
    (relationalAtom term policy cs).IsStuck := bind_of_stuck h

/-- An operand without a comparison behind it begins no atom. -/
theorem relationalAtom_isStuck {t : Term} {r : List Char} (h : operand term policy cs = .done t r)
    (hr : Avoids ['=', '<', '>'] r) : (relationalAtom term policy cs).IsStuck := by
  unfold relationalAtom
  rw [bind_of_done h]
  exact bind_of_stuck (comparison_isStuck hr)

theorem typicalAtom_eq_done {a : Atom} : typicalAtom term cs = .done a rest ↔
    ∃ name r, predicateName cs = .done name r ∧
      ((∃ args, arguments term r = .done args rest ∧ a = ⟨String.ofList name, args⟩) ∨
        (arguments term r).IsStuck ∧ rest = r ∧ a = ⟨String.ofList name, []⟩) := by
  simp only [typicalAtom, bind_eq_done, optional_eq_done, pure_eq_done]
  constructor
  · intro h
    obtain ⟨name, r, hn, o, s, ⟨args, ho, ha⟩ | ⟨ho, hs, hstuck⟩, he, hrest⟩ := h
    · subst ho he hrest; exact ⟨name, r, hn, .inl ⟨args, ha, rfl⟩⟩
    · subst ho he hrest; exact ⟨name, r, hn, .inr ⟨hstuck, hs, rfl⟩⟩
  · intro h
    obtain ⟨name, r, hn, ⟨args, ha, he⟩ | ⟨hstuck, hs, he⟩⟩ := h
    · exact ⟨name, r, hn, some args, rest, .inl ⟨args, rfl, ha⟩, he.symm, rfl⟩
    · exact ⟨name, r, hn, none, rest, .inr ⟨rfl, hs, hstuck⟩, he.symm, rfl⟩

theorem typicalAtom_isStuck (h : (predicateName cs).IsStuck) : (typicalAtom term cs).IsStuck :=
  bind_of_stuck h

end

/-! ## Literals and bodies -/

section
variable {atom : Reader Atom} {body : Reader Body}

theorem negated_eq_done {b : Body} :
    ((do let a ← atom; return .neg (.atom a)) <|>
      (do let a ← parenthesized atom; return .neg (.atom a)) <|>
      (do let b ← parenthesized body; return .neg b) : Reader Body) cs = .done b rest ↔
    (∃ a, atom cs = .done a rest ∧ b = .neg (.atom a)) ∨
    (atom cs).IsStuck ∧ ((∃ a, parenthesized atom cs = .done a rest ∧ b = .neg (.atom a)) ∨
      (parenthesized atom cs).IsStuck ∧ ∃ c, parenthesized body cs = .done c rest ∧
      b = .neg c) := by
  simp only [orElse_eq_done, map_isStuck, bind_eq_done, pure_eq_done]
  constructor
  · intro h
    rcases h with
      ⟨a, r, ha, hb, hr⟩ | ⟨hs, ⟨a, r, ha, hb, hr⟩ | ⟨hs', c, r, hc, hb, hr⟩⟩
    · subst hr; exact .inl ⟨a, ha, hb.symm⟩
    · subst hr; exact .inr ⟨hs, .inl ⟨a, ha, hb.symm⟩⟩
    · subst hr; exact .inr ⟨hs, .inr ⟨hs', c, hc, hb.symm⟩⟩
  · intro h
    rcases h with ⟨a, ha, hb⟩ | ⟨hs, ⟨a, ha, hb⟩ | ⟨hs', c, hc, hb⟩⟩
    · exact .inl ⟨a, rest, ha, hb.symm, rfl⟩
    · exact .inr ⟨hs, .inl ⟨a, rest, ha, hb.symm, rfl⟩⟩
    · exact .inr ⟨hs, .inr ⟨hs', c, rest, hc, hb.symm, rfl⟩⟩

theorem negation_eq_done {b : Body} : negation atom body cs = .done b rest ↔
    ∃ u r, negationSign cs = .done u r ∧
      ((∃ a, atom r = .done a rest ∧ b = .neg (.atom a)) ∨
      (atom r).IsStuck ∧ ((∃ a, parenthesized atom r = .done a rest ∧ b = .neg (.atom a)) ∨
        (parenthesized atom r).IsStuck ∧ ∃ c, parenthesized body r = .done c rest ∧
        b = .neg c)) := by
  unfold negation
  rw [bind_eq_done]
  simp only [negated_eq_done]

theorem literal_eq_done {b : Body} : literal atom body cs = .done b rest ↔
    negation atom body cs = .done b rest ∨
      (negation atom body cs).IsStuck ∧ ∃ a, atom cs = .done a rest ∧ b = .atom a := by
  simp only [literal, orElse_eq_done, bind_eq_done, pure_eq_done]
  constructor
  · intro h
    rcases h with h | ⟨hs, a, r, ha, hb, hr⟩
    · exact .inl h
    · subst hr; exact .inr ⟨hs, a, ha, hb.symm⟩
  · intro h
    rcases h with h | ⟨hs, a, ha, hb⟩
    · exact .inl h
    · exact .inr ⟨hs, a, rest, ha, hb.symm, rfl⟩

theorem anyBody_eq_done (ha : Consumes atom) (hb : Consumes body) {b : Body} :
    anyBody atom body cs = .done b rest ↔
    ∃ first others r, literal atom body cs = .done first r ∧
      Repeats (do mark ','; literal atom body) others r rest ∧ b = first.join others := by
  simp only [anyBody, bind_eq_done, pure_eq_done,
    many_eq_done (consumes_comma (consumes_literal ha hb).shrinks)]
  constructor
  · intro h
    obtain ⟨first, r, hf, others, s, ho, he, hs⟩ := h
    subst hs
    exact ⟨first, others, r, hf, ho, he.symm⟩
  · intro h
    obtain ⟨first, others, r, hf, ho, he⟩ := h
    exact ⟨first, r, hf, others, rest, ho, he.symm, rfl⟩

end

theorem negationSign_eq_done {u : Unit} : negationSign cs = .done u rest ↔
    (skipJunk cs = ['n', 'o', 't'] ++ rest ∧ Stops isNameChar rest) ∨
    skipJunk cs = ['\\', '+'] ++ rest := by
  simp only [negationSign, orElse_eq_done, keyword_eq_done, symbol_eq_done]
  constructor
  · intro h
    rcases h with h | ⟨-, h⟩
    · exact .inl h
    · exact .inr h
  · intro h
    rcases h with h | h
    · exact .inl h
    · refine .inr ⟨(plain_keyword _).isStuck_iff.mpr fun v r hv => ?_, h⟩
      rw [keyword_eq_done, h] at hv
      simp at hv

theorem plain_negationSign : Plain negationSign :=
  plain_orElse (plain_keyword _) (plain_token (plain_exactly _))

/-! ## Operands -/

/-- An operand is a compound or a longest lexeme. -/
theorem operand_cases {term : Reader Term} {t : Term} (h : operand term policy cs = .done t rest) :
    (∃ f, compound term cs = .done f rest ∧ t = f.toTerm) ∨
    (compound term cs).IsStuck ∧ ∃ w, skipJunk cs = w ++ rest ∧ Longest w rest ∧
    meaning? w = some t := by
  simp only [operand, orElse_eq_done, bind_eq_done, pure_eq_done, map_isStuck, lexeme_eq_done] at h
  rcases h with ⟨f, r, hf, ht, hr⟩ | ⟨hs, h⟩
  · subst hr
    exact .inl ⟨f, hf, ht.symm⟩
  · refine .inr ⟨hs, ?_⟩
    rcases h with
      ⟨w, h, hm⟩ | ⟨-, ⟨w, h, hm⟩ | ⟨-, ⟨w, h, hm⟩ | ⟨hd, w, h, hm⟩⟩⟩
    · obtain ⟨hj, hl⟩ := longest_of_upperName h; exact ⟨w, hj, hl, hm⟩
    · obtain ⟨hj, hl⟩ := longest_of_lowerName h; exact ⟨w, hj, hl, hm⟩
    · obtain ⟨hj, hl⟩ := longest_of_decimalNumeral h; exact ⟨w, hj, hl, hm⟩
    · obtain ⟨hj, hl⟩ := longest_of_wholeNumeral (decimalNumeral_isStuck hd) h
      exact ⟨w, hj, hl, hm⟩

namespace Unbounded

theorem term_of_lexemes {t : Term} (hc : (compound (term policy) cs).IsStuck)
    (h : lexemes policy cs = .done t rest) : term policy cs = .done t rest := by
  obtain ⟨w, hj, hw, -⟩ := lexemes_eq_done.mp h
  obtain ⟨c, v, l, he, hl⟩ := hw.isToken.exists_lead
  have hfirst : skipJunk cs = c :: (v ++ rest) := by rw [hj, he, List.cons_append]
  refine term_eq_done.mpr
    (.inr ⟨hc, .inr ⟨list_isStuck (avoids_of_skipJunk hfirst fun hmem => ?_), h⟩⟩)
  rw [List.mem_singleton.mp hmem] at hl
  cases hl

/-- **Operands are terms.** What is read beside a comparison is what a term would be there. -/
theorem term_of_operand {t : Term} (h : operand (term policy) policy cs = .done t rest) :
    term policy cs = .done t rest := by
  rcases operand_cases h with ⟨f, hf, ht⟩ | ⟨hs, hw⟩
  · exact term_eq_done.mpr (.inl ⟨f, hf, ht⟩)
  · exact term_of_lexemes hs (lexemes_eq_done.mpr hw)

theorem operand_of_compound {f : Compound} (h : compound (term policy) cs = .done f rest) :
    operand (term policy) policy cs = .done f.toTerm rest := by
  unfold operand
  apply orElse_of_done
  rw [bind_of_done h]
  rfl

theorem operand_of_name {name : List Char} (hc : (compound (term policy) cs).IsStuck)
    (hn : lowerName cs = .done name rest) :
    ∃ t, operand (term policy) policy cs = .done t rest := by
  have hlead := leads?_of_lowerName hn
  have hupper : (lexeme policy upperName cs).IsStuck :=
    lexeme_isStuck_of_leads? (plain_nameFrom _) leads?_of_upperName (by rw [hlead]; decide)
  obtain ⟨t, ht⟩ : ∃ t, meaning? name = some t :=
    ⟨_, meaning?_lower (nameFrom_eq_done.mp hn).2.1⟩
  refine ⟨t, ?_⟩
  unfold operand
  rw [orElse_eq_done_of_stuck (map_isStuck.mpr hc), orElse_eq_done_of_stuck hupper]
  exact orElse_of_done (lexeme_eq_done.mpr ⟨name, hn, ht⟩)

theorem operand_isStuck_of_compound {c : Char} (h : skipJunk cs = c :: rest) (hc : lead? c = none)
    (hs : (compound (term policy) cs).IsStuck) : (operand (term policy) policy cs).IsStuck := by
  have hne : ∀ l, leads? cs ≠ some l := fun l h' => by rw [leads?_eq_none h hc] at h'; cases h'
  unfold operand
  simp only [orElse_isStuck, map_isStuck]
  exact ⟨hs,
    lexeme_isStuck_of_leads? (plain_nameFrom _) leads?_of_upperName (hne _),
    lexeme_isStuck_of_leads? (plain_nameFrom _) leads?_of_lowerName (hne _),
    lexeme_isStuck_of_leads? plain_decimalNumeral leads?_of_decimalNumeral (hne _),
    lexeme_isStuck_of_leads? plain_wholeNumeral leads?_of_wholeNumeral (hne _)⟩

theorem operand_isStuck {c : Char} (h : skipJunk cs = c :: rest) (hc : lead? c = none)
    (ho : c ≠ '(') :
    (operand (term policy) policy cs).IsStuck :=
  operand_isStuck_of_compound h hc (compound_isStuck_of_front h hc ho)

theorem atom_isStuck {c : Char} (h : skipJunk cs = c :: rest) (hc : lead? c = none)
    (ho : c ≠ '(') :
    (atom policy cs).IsStuck := by
  have hlower : c.isLower = false := by
    by_cases hl : c.isLower = true
    · rw [lead?_of_isLower hl] at hc; cases hc
    · simpa using hl
  exact orElse_isStuck.mpr ⟨relationalAtom_isStuck_of_operand (operand_isStuck h hc ho),
    typicalAtom_isStuck (predicateName_isStuck (lowerName_isStuck h hlower))⟩

theorem values_isStuck_of_comparison {c : Comparison} (h : comparison cs = .done c rest) :
    (values (term policy) cs).IsStuck := by
  obtain ⟨d, r, hd, -, hr⟩ := front_of_comparison h
  by_cases he : d = '='
  · subst he
    obtain ⟨e, s, hr, he⟩ := hr rfl
    have hsolid : isSolid e = true ∧ lead? e = none ∧ e ∉ ['(', '['] := by
      simp only [List.mem_cons, List.not_mem_nil, or_false] at he
      rcases he with he | he | he
      all_goals subst he; decide
    have hskip : skipJunk r = e :: s := by rw [hr, skipJunk_solid hsolid.1]
    unfold values
    rw [bind_of_done (mark_of_skipJunk hd)]
    refine orElse_isStuck.mpr ⟨parenthesized_isStuck fun q hq => ?_,
      map_isStuck.mpr (term_isStuck hskip hsolid.2.1 hsolid.2.2)⟩
    rw [hskip, List.cons.injEq] at hq
    exact hsolid.2.2 (by simp [hq.1])
  · exact bind_of_stuck (mark_isStuck_of_ne hd (Ne.symm he))

end Unbounded

end Reader

end Clausal
