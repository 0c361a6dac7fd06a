import Clausal.Proofs.NegatedGroup

/-!
# Negated atoms

An atom is negated by either sign, in front of its text or of its text in
parentheses. A bare sign reads the atom itself. In parentheses the atom is first
tried as the left side of a comparison, but no comparison stands behind the group.
-/

namespace Clausal

open Lexeme Reader Reader.Unbounded

section
variable {a : Atom} {cs : List Char} (h : Takes (atom .backtrack) a cs)
include h

theorem balanced_of_atom : Balanced 0 cs := by
  obtain ⟨rest, ha, hr⟩ := h
  exact (neutral_of_atom ha).balanced hr

theorem takes_atom_of_skipJunk {ds : List Char} (hj : skipJunk ds = skipJunk cs) :
    Takes (atom .backtrack) a ds := by
  have halike : Alike [] [] 0 cs ds := (balanced_of_atom h).of_skipJunk hj
  apply takes_of_matches _ h
  exact parallel_atom (.inl rfl) (.inl rfl) (cs.length + 1) 0 cs ds (Nat.lt_succ_self _) halike

/-- The word of negation needs a gap behind it, or else it is part of a name. -/
theorem takes_bare_negation {sign gap : List Char} (hs : IsNegationSign sign)
    (hg : ∀ c ∈ gap, isGap c = true) (hne : sign = ['n', 'o', 't'] → gap ≠ []) :
    Takes (closedBody .backtrack) (.neg (.atom a)) (sign ++ (gap ++ cs)) := by
  have hstop (he : sign = ['n', 'o', 't']) : Stops isNameChar (gap ++ cs) :=
    stops_of_gaps hg fun hnil => absurd hnil (hne he)
  have hsign : negationSign (sign ++ (gap ++ cs)) = .done () (gap ++ cs) :=
    negationSign_of_sign hs .none hstop
  obtain ⟨rest, ha, hr⟩ := takes_atom_of_skipJunk h (skipJunk_eq_of_junk (junk_of_gaps hg cs))
  apply takes_closedBody_of_literal
  refine ⟨rest, literal_eq_done.mpr (.inl (negation_eq_done.mpr ⟨(), _, hsign, ?_⟩)), hr⟩
  exact .inl ⟨a, ha, rfl⟩

end

theorem Body.text_neg_atom (a : Atom) : (Body.neg (.atom a)).text = "not(" ++ a.text ++ ")" := by
  apply String.toList_injective
  simp [Body.text, Body.chars, Atom.text]

/-- **Negated atoms.** With either sign, bare or in parentheses, the text of an atom is parsed as
that atom negated, which is written with the word of negation and parentheses. -/
theorem parse_negated_atom {text : String} {a : Atom} (h : Atom.parse text = .ok a) :
    Body.parse ("not " ++ text) = .ok (.neg (.atom a)) ∧
    Body.parse ("\\+" ++ text) = .ok (.neg (.atom a)) ∧
    Body.parse ("not(" ++ text ++ "\n)") = .ok (.neg (.atom a)) ∧
    Body.parse ("\\+(" ++ text ++ "\n)") = .ok (.neg (.atom a)) ∧
    (Body.neg (.atom a)).text = "not(" ++ a.text ++ ")" := by
  have ha : Takes (atom .backtrack) a text.toList := Atom.parse_iff_backtrack.mp h
  have hword :
      Takes (closedBody .backtrack) (.neg (.atom a)) (['n', 'o', 't'] ++ ([' '] ++ text.toList)) :=
    takes_bare_negation ha (.inl rfl) (by decide) (by simp)
  have hsymbol :
      Takes (closedBody .backtrack) (.neg (.atom a)) (['\\', '+'] ++ ([] ++ text.toList)) :=
    takes_bare_negation ha (.inr rfl) (by decide) (by simp)
  obtain ⟨hgroup, hgroup'⟩ :=
    negatesTo_of_balanced (balanced_of_atom ha) (.inl ⟨a, ha, rfl⟩)
  refine ⟨?_, ?_, hgroup, hgroup', Body.text_neg_atom a⟩
  · rw [Body.parse_iff_backtrack]
    simpa using hword
  · rw [Body.parse_iff_backtrack]
    simpa using hsymbol

theorem parse_negated_atom_of_sample :
    Atom.parse "not(a) = b < 3 % all" =
      .ok (.compare .less (.compound "not" [.const (.str "a")] [.const (.str "b")])
        (.const (.int 3))) ∧
    Body.parse "not(not(a) = b < 3 % all\n)" = .ok (.neg (.atom
      (.compare .less (.compound "not" [.const (.str "a")] [.const (.str "b")])
        (.const (.int 3))))) := by
  have hparse : Atom.parse "not(a) = b < 3 % all" =
      .ok (.compare .less (.compound "not" [.const (.str "a")] [.const (.str "b")])
        (.const (.int 3))) := by cbv
  exact ⟨hparse, (parse_negated_atom hparse).2.2.1⟩

end Clausal
