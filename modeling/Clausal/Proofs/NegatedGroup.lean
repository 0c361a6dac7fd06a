import Clausal.Proofs.Balance
import Clausal.Proofs.Meaning

/-!
# Negated groups

A body in parentheses behind the sign of a negation. The group is tried as an atom
before it is read as a body, so that the body is negated as it is read alone unless
an atom takes its whole text as well. Such an atom is the body itself, or the body
is a negated comparison whose left side the word of negation calls.
-/

namespace Clausal

open Lexeme Reader Reader.Unbounded

variable {cs : List Char}

/-! ## Atoms that are bodies -/

theorem closes_of_repeats {α : Type} {p : Reader α} {xs : List α} {r rest : List Char}
    (h : Repeats (do mark ','; p) xs r rest) (hr : Closes rest) : Closes r := by
  cases h with
  | nil _ => exact hr
  | cons hx _ =>
    obtain ⟨u, q, hm, -⟩ := bind_eq_done.mp hx
    exact closes_of_skipJunk (mark_eq_done.mp hm) (by simp)

section
variable {policy : Policy} {a : Atom} {rest : List Char}

/-- Where no name of a predicate stands, an atom that begins with an operand compares it. -/
theorem atom_of_operand {left : Term} {r : List Char}
    (hl : operand (term policy) policy cs = .done left r) (hn : (predicateName cs).IsStuck)
    (ha : atom policy cs = .done a rest) : ∃ c s right,
      comparison r = .done c s ∧ operand (term policy) policy s = .done right rest ∧
      a = .compare c left right := by
  rcases orElse_eq_done.mp ha with ha | ⟨-, ha⟩
  · obtain ⟨left', c, right, r', s, hl', hc, hr, he⟩ := relationalAtom_eq_done.mp ha
    rw [hl, Reply.done.injEq] at hl'
    rw [← hl'.2] at hc
    rw [← hl'.1] at he
    exact ⟨c, s, right, hc, hr, he⟩
  · exact absurd ha ((typicalAtom_isStuck hn).ne_done a rest)

/-- Where a negation and an atom are read from the same text up to the same place, both are
comparisons. Their left sides are a tuple and a call. -/
theorem atom_of_negation {b : Body} (hb : negation (atom policy) (body policy) cs = .done b rest)
    (ha : atom policy cs = .done a rest) (hr : Closes rest) : ∃ c items right,
      b = .neg (.atom (.compare c (Compound.tuple items).toTerm right)) ∧
      a = .compare c (Compound.toTerm ⟨"not", items, []⟩) right := by
  obtain ⟨u, q, hu, hneg⟩ := negation_eq_done.mp hb
  have hnegated : Negated policy q rest := by
    obtain ⟨u', q', hu', hn⟩ := negated_of_negation hb
    rw [hu, Reply.done.injEq] at hu'
    exact hu'.2 ▸ hn
  rcases negationSign_eq_done.mp hu with ⟨hq, hstop⟩ | hq
  · have hname : lowerName cs = .done ['n', 'o', 't'] q :=
      nameFrom_eq_done.mpr ⟨hq, rfl, hstop⟩
    rcases hnegated.tuple_settles with ⟨items, w, ht⟩ | ht
    · -- the atom compares the call that the word of negation makes of the tuple
      have hw := hnegated.end_of_tuple (endsAlike_below policy q.length) (Nat.le_refl _) ht
      obtain ⟨c, s, right, hc, hright, he⟩ :=
        atom_of_operand (operand_of_compound (compound_of_not hname ht hw hr))
          (predicateName_not hname) ha
      refine ⟨c, items, right, ?_, he⟩
      have hgroup (h : (∃ a, parenthesized (atom policy) q = .done a rest) ∨
          ∃ b, parenthesized (body policy) q = .done b rest) : False := by
        have hend := end_of_parenthesized (endsAlike_below policy q.length) (Nat.le_refl _) h ht
        exact (comparison_isStuck (hr.avoids (by simp))).ne_done c s (hend ▸ hc)
      rcases hneg with ⟨a', ha', hb'⟩ | ⟨-, ⟨a', ha', -⟩ | ⟨-, b', hb', -⟩⟩
      · -- so does the negation with the tuple
        obtain ⟨o, -, ho, -⟩ := parenthesized_eq_done.mp ht
        have hnone : (lowerName q).IsStuck := lowerName_isStuck ho rfl
        have htuple := operand_of_compound
          (compound_eq_done.mpr (.inr ⟨bind_of_stuck hnone, items, ht, rfl⟩))
        obtain ⟨c', s', right', hc', hright', he'⟩ :=
          atom_of_operand htuple (predicateName_isStuck hnone) ha'
        rw [hc, Reply.done.injEq] at hc'
        rw [← hc'.2, hright, Reply.done.injEq] at hright'
        rw [hb', he', hc'.1, hright'.1]
      · exact (hgroup (.inl ⟨a', ha'⟩)).elim
      · exact (hgroup (.inr ⟨b', hb'⟩)).elim
    · have hstuck := atom_isStuck_of_not hname (hnegated.arguments_isStuck ht) (hnegated.avoids rfl)
      exact absurd ha (hstuck.ne_done a rest)
  · exact absurd ha ((atom_isStuck hq rfl (by decide)).ne_done a rest)

theorem body_of_atom {b : Body} (ha : Takes (atom policy) a cs) (hb : Takes (body policy) b cs) :
    b = .atom a ∨
    ∃ c items right, b = .neg (.atom (.compare c (Compound.tuple items).toTerm right)) ∧
      a = .compare c (Compound.toTerm ⟨"not", items, []⟩) right := by
  obtain ⟨s, ha, hs⟩ := ha
  obtain ⟨rest, hb, hr⟩ := hb
  rw [body_apply, anyBody_eq_done (consumes_atom policy) (consumes_body policy)] at hb
  obtain ⟨first, others, r, hf, ho, he⟩ := hb
  have hclose := closes_of_repeats ho (closes_of_nil hr)
  -- the atom ends where the first literal does, so no other one follows
  have hend : s = r := by
    rcases atom_of_literal hf hclose with hstuck | ⟨a', ha'⟩
    · exact absurd ha (hstuck.ne_done a s)
    · rw [ha, Reply.done.injEq] at ha'
      exact ha'.2
  subst hend
  cases ho with
  | nil _ =>
    rcases literal_eq_done.mp hf with hneg | ⟨-, a', ha', hl⟩
    · rw [he]
      exact .inr (atom_of_negation hneg ha hclose)
    · rw [ha, Reply.done.injEq] at ha'
      rw [he, hl, ← ha'.1]
      exact .inl rfl
  | cons hx _ =>
    obtain ⟨u, q, hm, -⟩ := bind_eq_done.mp hx
    rw [mark_eq_done.mp hm] at hs
    cases hs

end

/-! ## Groups -/

/-- Behind a line feed a parenthesis closes what takes the text whole, and nothing else. -/
theorem parenthesized_of_matches {α : Type} {p : Reader α}
    (h : (p cs).Matches (Alike [] [')'] 0) (p (cs ++ ['\n', ')']))) :
    (∀ x, Takes p x cs → parenthesized p ('(' :: (cs ++ ['\n', ')'])) = .done x []) ∧
    ((∀ x, ¬ Takes p x cs) → (parenthesized p ('(' :: (cs ++ ['\n', ')']))).IsStuck) := by
  have hopen : skipJunk ('(' :: (cs ++ ['\n', ')'])) = '(' :: (cs ++ ['\n', ')']) :=
    skipJunk_solid rfl _
  constructor
  · intro x hx
    obtain ⟨r, hx, hr⟩ := hx
    obtain ⟨s, hs, ha⟩ := h.of_done hx
    exact parenthesized_eq_done.mpr ⟨_, s, hopen, hs, ha.end_of_nil hr⟩
  · intro hnone
    refine parenthesized_isStuck_of_inner hopen ?_
    rcases h.outcome with ⟨x, r, s, hx, hs, ha⟩ | ⟨r, s, -, hs⟩
    · refine .inr ⟨x, s, hs, fun c hc q hq => hnone x ⟨r, hx, ?_⟩⟩
      rw [List.mem_singleton.mp hc] at hq
      exact (ha.end_of_close hq).1
    · exact .inl ⟨s, hs⟩

section
variable {b inner : Body}

/-- A group that ends the text is what its sign negates. -/
theorem takes_negation {sign group : List Char} (hs : IsNegationSign sign)
    (ho : ∃ r, group = '(' :: r)
    (h : (∃ a, parenthesized (atom .backtrack) group = .done a [] ∧ inner = .atom a) ∨
      (parenthesized (atom .backtrack) group).IsStuck ∧
      parenthesized (body .backtrack) group = .done inner []) :
    Takes (closedBody .backtrack) (.neg inner) (sign ++ group) := by
  obtain ⟨r, ho⟩ := ho
  have hsign : negationSign (sign ++ group) = .done () group :=
    negationSign_of_sign hs .none fun _ => ho ▸ stops_cons.mpr rfl
  have hgroup : (∃ a, parenthesized (atom .backtrack) group = .done a []) ∨
      ∃ b, parenthesized (body .backtrack) group = .done b [] := by
    rcases h with ⟨a, ha, -⟩ | ⟨-, hb⟩
    · exact .inl ⟨a, ha⟩
    · exact .inr ⟨inner, hb⟩
  have hliteral : literal (atom .backtrack) (body .backtrack) (sign ++ group) =
      .done (.neg inner) [] := by
    refine literal_eq_done.mpr (.inl (negation_eq_done.mpr ⟨(), group, hsign, .inr
      ⟨atom_isStuck_of_group hgroup (closes_of_nil rfl), ?_⟩⟩))
    rcases h with ⟨a, ha, he⟩ | ⟨hstuck, hb⟩
    · exact .inl ⟨a, ha, by rw [he]⟩
    · exact .inr ⟨hstuck, inner, hb, rfl⟩
  exact takes_closedBody_of_literal ⟨[], hliteral, rfl⟩

/-- With either sign the group of the text is parsed as this body negated. -/
def NegatesTo (text : String) (inner : Body) : Prop :=
  Body.parse ("not(" ++ text ++ "\n)") = .ok (.neg inner) ∧
    Body.parse ("\\+(" ++ text ++ "\n)") = .ok (.neg inner)

/-- The group of a text whose brackets match holds what takes the text whole. -/
theorem negatesTo_of_balanced {text : String} (hbalanced : Balanced 0 text.toList)
    (h : (∃ a, Takes (atom .backtrack) a text.toList ∧ inner = .atom a) ∨
      (∀ a, ¬ Takes (atom .backtrack) a text.toList) ∧
      Takes (body .backtrack) inner text.toList) :
    NegatesTo text inner := by
  have halike : Alike [] [')'] 0 text.toList (text.toList ++ ['\n', ')']) :=
    hbalanced.append_feed []
  have hbare : Bare [] := .inl rfl
  have hclose : Bare [')'] := .inr ⟨[], rfl⟩
  have hatom := parenthesized_of_matches
    (parallel_atom hbare hclose (text.toList.length + 1) 0 _ _ (Nat.lt_succ_self _) halike)
  have hbody := parenthesized_of_matches
    (parallel_body hbare hclose (text.toList.length + 1) 0 _ _ (Nat.lt_succ_self _) halike)
  have htakes {sign : List Char} (hs : IsNegationSign sign) :
      Takes (closedBody .backtrack) (.neg inner) (sign ++ '(' :: (text.toList ++ ['\n', ')'])) := by
    refine takes_negation hs ⟨_, rfl⟩ ?_
    rcases h with ⟨a, ha, he⟩ | ⟨hnone, hb⟩
    · exact .inl ⟨a, hatom.1 a ha, he⟩
    · exact .inr ⟨hatom.2 hnone, hbody.1 inner hb⟩
  constructor
  · rw [Body.parse_iff_backtrack]
    simpa using htakes (.inl rfl)
  · rw [Body.parse_iff_backtrack]
    simpa using htakes (.inr rfl)

theorem negatesTo_of_group {text : String}
    (h : (∃ a, Takes (atom .backtrack) a text.toList ∧ inner = .atom a) ∨
      (∀ a, ¬ Takes (atom .backtrack) a text.toList) ∧ inner = b)
    (hb : Takes (body .backtrack) b text.toList) :
    NegatesTo text inner := by
  have hbalanced : Balanced 0 text.toList := by
    obtain ⟨rest, hdone, hr⟩ := hb
    exact (neutral_of_body hdone).balanced hr
  refine negatesTo_of_balanced hbalanced ?_
  rcases h with ha | ⟨hnone, he⟩
  · exact .inl ha
  · exact .inr ⟨hnone, he ▸ hb⟩

/-- **Negated groups.** Where a text is read whole as a body, its group is parsed as that body
negated. The only exception are texts that are a comparison whose left side the word of negation
calls. As a body such a text is the negated comparison of a tuple, but its group is the comparison
of the call, negated. -/
theorem parse_negated_group {text : String}
    (h : parseUnder .body (Reader.body .commit) text = .ok b) :
    (NegatesTo text b ∧ ∀ a, Atom.parse text = .ok a → b = .atom a) ∨
    ∃ c items right, b = .neg (.atom (.compare c (Compound.tuple items).toTerm right)) ∧
      Atom.parse text = .ok (.compare c (Compound.toTerm ⟨"not", items, []⟩) right) ∧
      NegatesTo text (.atom (.compare c (Compound.toTerm ⟨"not", items, []⟩) right)) := by
  have hbody : parseUnder .body (Reader.body .backtrack) text = .ok b ↔
      Takes (body .backtrack) b text.toList :=
    parseUnder_eq_ok fun _ _ hn => body_eq .backtrack hn
  have hb : Takes (body .backtrack) b text.toList :=
    hbody.mp
      ((parseUnder_congr (lexical_body .commit) (lexical_body .backtrack) agree_body text b).mp h)
  by_cases ha : ∃ a, Takes (atom .backtrack) a text.toList
  · obtain ⟨a, ha⟩ := ha
    have hnegates := negatesTo_of_group (.inl ⟨a, ha, rfl⟩) hb
    rcases body_of_atom ha hb with he | ⟨c, items, right, he, hcompare⟩
    · subst he
      refine .inl ⟨hnegates, fun a' ha' => ?_⟩
      rw [Atom.parse_iff_backtrack.mpr ha, Except.ok.injEq] at ha'
      rw [ha']
    · rw [hcompare] at ha hnegates
      exact .inr ⟨c, items, right, he, Atom.parse_iff_backtrack.mpr ha, hnegates⟩
  · have hnone (a : Atom) : ¬ Takes (atom .backtrack) a text.toList := fun h => ha ⟨a, h⟩
    exact .inl ⟨negatesTo_of_group (.inr ⟨hnone, rfl⟩) hb,
      fun a h => absurd (Atom.parse_iff_backtrack.mp h) (hnone a)⟩

end

theorem parse_negated_group_of_sample :
    parseUnder .body (Reader.body .commit) "p, not q % all" =
      .ok (.conj (.atom ⟨"p", []⟩) (.neg (.atom ⟨"q", []⟩))) ∧
    NegatesTo "p, not q % all" (.conj (.atom ⟨"p", []⟩) (.neg (.atom ⟨"q", []⟩))) := by
  have hparse : parseUnder .body (Reader.body .commit) "p, not q % all" =
      .ok (.conj (.atom ⟨"p", []⟩) (.neg (.atom ⟨"q", []⟩))) := by cbv
  refine ⟨hparse, ?_⟩
  rcases parse_negated_group hparse with ⟨h, -⟩ | ⟨c, items, right, he, -⟩
  · exact h
  · cases he

/-- Read alone the text is the comparison of a tuple, negated. In its group the word of negation
calls the tuple. -/
theorem parse_negated_group_of_comparison : ¬ ∀ (text : String) (b : Body),
    parseUnder .body (Reader.body .commit) text = .ok b → NegatesTo text b := by
  intro h
  have hparse : parseUnder .body (Reader.body .commit) "not(a,b) < 3" = .ok (.neg (.atom
      (.compare .less (.compound "" [.const (.str "a"), .const (.str "b")] [])
        (.const (.int 3))))) := by cbv
  have hgroup : Body.parse "not(not(a,b) < 3\n)" = .ok (.neg (.atom
      (.compare .less (.compound "not" [.const (.str "a"), .const (.str "b")] [])
        (.const (.int 3))))) := by cbv
  have hnegates := (h _ _ hparse).1
  rw [show "not(" ++ "not(a,b) < 3" ++ "\n)" = "not(not(a,b) < 3\n)" from rfl, hgroup] at hnegates
  simp [Atom.compare] at hnegates

end Clausal
