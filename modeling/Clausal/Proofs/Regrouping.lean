import Clausal.Formula.Clause
import Clausal.Proofs.Layout
import Clausal.Proofs.Occurrence

/-!
# Regrouping of conjunctions

Text, count and contents of a body are put together from its literals, whatever the
nesting of the conjunctions between them. The literals joined to the left again are
therefore a body that looks the same.
-/

namespace Clausal

namespace Body

theorem literalCount_eq_length (b : Body) : b.literalCount = b.literals.length := by
  induction b with
  | atom a => rfl
  | neg inner => rfl
  | conj left right ihl ihr => rw [literalCount, literals, List.length_append, ihl, ihr]

theorem intercalate_chars (l : Body) (ls : List Body) :
    [',', ' '].intercalate ((l :: ls).map chars) = l.chars ++ moreChars [' '] ls := by
  induction ls generalizing l with
  | nil => simp [moreChars]
  | cons m ms ih =>
    have hlater := ih m
    rw [List.map_cons] at hlater
    rw [List.map_cons, List.map_cons, List.intercalate_cons_cons, hlater]
    simp [moreChars]

theorem text_eq_intercalate (b : Body) : b.text = ", ".intercalate (b.literals.map text) := by
  obtain ⟨l, ls, h⟩ := b.exists_literals
  have hchars : b.chars = [',', ' '].intercalate (b.literals.map chars) := by
    rw [h, intercalate_chars, chars_of_literals h]
  have hmap : (b.literals.map text).map String.toList = b.literals.map chars := by
    simp [text, Function.comp_def]
  rw [← String.toList_inj, String.toList_intercalate, hmap, text, String.toList_ofList, hchars]
  rfl

theorem mem_contents_iff_literals {k : Facet} {a : k.Member} (b : Body) :
    a ∈ (Construct.body b).contents k ↔
      ∃ l ∈ b.literals, a ∈ (Construct.body l).contents k := by
  induction b with
  | atom c => simp [literals]
  | neg inner => simp [literals]
  | conj left right ihl ihr =>
    simp only [Construct.contents_conj, Distinct.mem_union, ihl, ihr, literals, List.mem_append,
      or_and_right, exists_or]

/-- The two bodies differ in the nesting of their conjunctions at most. -/
structure LooksLike (c b : Body) : Prop where
  literals : c.literals = b.literals
  text : c.text = b.text
  literalCount : c.literalCount = b.literalCount
  vars : ∀ x, x ∈ c.vars ↔ x ∈ b.vars
  constants : ∀ x, x ∈ c.constants ↔ x ∈ b.constants
  compounds : ∀ f, f ∈ c.compounds ↔ f ∈ b.compounds

theorem LooksLike.of_literals {c b : Body} (h : c.literals = b.literals) : c.LooksLike b := by
  have hcontents (k : Facet) (a : k.Member) :
      a ∈ (Construct.body c).contents k ↔ a ∈ (Construct.body b).contents k := by
    rw [mem_contents_iff_literals, mem_contents_iff_literals, h]
  exact
    { literals := h
      text := by rw [text_eq_intercalate, text_eq_intercalate, h]
      literalCount := by rw [literalCount_eq_length, literalCount_eq_length, h]
      vars := hcontents .vars
      constants := hcontents .constants
      compounds := hcontents .compounds }

/-- **Regrouping is not seen.** The literals of a body are no conjunctions; they make up its text
and its count, as a body and as a formula; and joined to the left they look like the body they are
taken from. -/
theorem looksLike_regrouped (b : Body) :
    (∀ l ∈ b.literals, ∀ left right, l ≠ .conj left right) ∧
    b.text = ", ".intercalate (b.literals.map text) ∧
    b.literalCount = b.literals.length ∧ (Formula.body b).literalCount = b.literals.length ∧
    (∃ first others, b.literals = first :: others ∧ (others.foldl conj first).LooksLike b) ∧
    (Formula.body b).toBody = .ok b := by
  have hcount := b.literalCount_eq_length
  refine ⟨fun l hl left right he => ?_, b.text_eq_intercalate, hcount, hcount, ?_, rfl⟩
  · have hliteral := isLiteral_of_mem hl
    rw [he] at hliteral
    exact literals_conj_ne left right _ hliteral
  · obtain ⟨l, ls, h⟩ := b.exists_literals
    have hsingle : ∀ m ∈ l :: ls, m.IsLiteral := fun m hm => isLiteral_of_mem (h ▸ hm)
    have hfirst : l.literals = [l] := hsingle l (by simp)
    have hregrouped : (l.join ls).literals = b.literals := by
      rw [literals_join, hfirst, flatMap_literals fun m hm => hsingle m (by simp [hm]), h]
      rfl
    exact ⟨l, ls, h, .of_literals hregrouped⟩

end Body

end Clausal
