import Clausal.Proofs.Faithful
import Clausal.Proofs.Negation

/-!
# Groups

An atom or a body in parentheses that ends where a literal may end. It is tried
as the left side of a comparison before it is read as a group, and this attempt
fails at the end of the group.
-/

namespace Clausal.Reader.Unbounded

variable {cs rest : List Char}

section
variable {s : List Char} (h : (∃ a, parenthesized (atom .backtrack) s = .done a rest) ∨
  ∃ b, parenthesized (body .backtrack) s = .done b rest) (hr : Closes rest)
include h hr

/-- A group may be a tuple, but no comparison stands behind it. -/
theorem atom_isStuck_of_group : (atom .backtrack s).IsStuck := by
  obtain ⟨r, hs⟩ : ∃ r, skipJunk s = '(' :: r := by
    rcases h with ⟨a, ha⟩ | ⟨b, hb⟩
    · obtain ⟨r, q, hs, -⟩ := parenthesized_eq_done.mp ha
      exact ⟨r, hs⟩
    · obtain ⟨r, q, hs, -⟩ := parenthesized_eq_done.mp hb
      exact ⟨r, hs⟩
  have hname : (lowerName s).IsStuck := lowerName_isStuck hs rfl
  have hcall : (call (term .backtrack) s).IsStuck := bind_of_stuck hname
  refine orElse_isStuck.mpr ⟨?_, typicalAtom_isStuck (predicateName_isStuck hname)⟩
  rcases plain_tuple s with ⟨items, q, ht⟩ | ht
  · have hend := end_of_parenthesized (endsAlike_below .backtrack s.length) (Nat.le_refl _) h ht
    subst hend
    exact relationalAtom_isStuck
      (operand_of_compound (compound_eq_done.mpr (.inr ⟨hcall, items, ht, rfl⟩)))
      (hr.avoids (by simp))
  · exact relationalAtom_isStuck_of_operand
      (operand_isStuck_of_compound hs rfl (orElse_isStuck.mpr ⟨hcall, map_isStuck.mpr ht⟩))

/-- With the word of negation in front of it, a group may be a call. -/
theorem atom_isStuck_of_negated_group (hn : lowerName cs = .done ['n', 'o', 't'] s) :
    (atom .backtrack cs).IsStuck := by
  have hneg : Negated .backtrack s rest := .inr ⟨atom_isStuck_of_group h hr, h⟩
  rcases hneg.tuple_settles with ⟨items, q, ht⟩ | ht
  · have hend := end_of_parenthesized (endsAlike_below .backtrack s.length) (Nat.le_refl _) h ht
    subst hend
    exact orElse_isStuck.mpr
      ⟨relationalAtom_isStuck (operand_of_compound (compound_of_not hn ht (.inl rfl) hr))
        (hr.avoids (by simp)), typicalAtom_isStuck (predicateName_not hn)⟩
  · exact atom_isStuck_of_not hn (hneg.arguments_isStuck ht) (hneg.avoids rfl)

end

end Clausal.Reader.Unbounded
