import Clausal.Proofs.Rows

/-!
# Brackets of free text

In a text whose brackets are nested, the literal behind a bare negation sign has all of
its brackets within itself, so that it can be enclosed in parentheses of its own. Both
passes over the negations of such a text leave its brackets nested.
-/

namespace Clausal

namespace Sentence

/-! ## Nested brackets -/

/-- The brackets that are open behind a character, the last one first. A closing bracket matches the
last one that is open. -/
def openBehind (opened : List Char) (c : Char) : Option (List Char) :=
  match c, opened with
  | '(', _ => some ('(' :: opened)
  | '[', _ => some ('[' :: opened)
  | ')', '(' :: outer => some outer
  | ']', '[' :: outer => some outer
  | ')', _ => none
  | ']', _ => none
  | _, _ => some opened

/-- The brackets that are open behind a text. -/
def stillOpen (opened cs : List Char) : Option (List Char) := cs.foldlM openBehind opened

def IsNested (cs : List Char) : Prop := stillOpen [] cs = some []

instance (cs : List Char) : Decidable (IsNested cs) := inferInstanceAs (Decidable (_ = _))

section
variable {opened outer after : List Char} {c : Char}

/-- What a character may be, and what is open behind it. -/
theorem openBehind_cases (h : openBehind opened c = some after) :
    (c ∈ ['(', '['] ∧ after = c :: opened) ∨
    (c ∈ [')', ']'] ∧ ∃ o, opened = o :: after ∧
      ∀ outer, openBehind (o :: outer) c = some outer) ∨
    (c ∉ ['(', '[', ')', ']'] ∧ after = opened) := by
  unfold openBehind at h
  split at h
  · exact .inl ⟨by simp, (Option.some.inj h).symm⟩
  · exact .inl ⟨by simp, (Option.some.inj h).symm⟩
  · exact .inr (.inl ⟨by simp, '(', by rw [Option.some.inj h], fun _ => rfl⟩)
  · exact .inr (.inl ⟨by simp, '[', by rw [Option.some.inj h], fun _ => rfl⟩)
  · cases h
  · cases h
  · exact .inr (.inr ⟨by simp_all, (Option.some.inj h).symm⟩)

theorem openBehind_opening (hc : c ∈ ['(', '[']) : openBehind opened c = some (c :: opened) := by
  simp only [List.mem_cons, List.not_mem_nil, or_false] at hc
  rcases hc with rfl | rfl
  all_goals rfl

theorem openBehind_other (hc : c ∉ ['(', '[', ')', ']']) : openBehind opened c = some opened := by
  simp only [List.mem_cons, List.not_mem_nil, or_false, not_or] at hc
  unfold openBehind
  split
  all_goals simp_all

theorem openBehind_append (h : openBehind opened c = some after) :
    openBehind (opened ++ outer) c = some (after ++ outer) := by
  rcases openBehind_cases h with ⟨hc, rfl⟩ | ⟨-, o, rfl, hclose⟩ | ⟨hc, rfl⟩
  · exact openBehind_opening hc
  · exact hclose _
  · exact openBehind_other hc

end

section
variable {opened outer after cs u v : List Char}

theorem stillOpen_cons_eq_some {c : Char} : stillOpen opened (c :: cs) = some after ↔
    ∃ next, openBehind opened c = some next ∧ stillOpen next cs = some after := by
  unfold stillOpen
  rw [List.foldlM_cons]
  exact Option.bind_eq_some_iff

theorem stillOpen_append :
    stillOpen opened (u ++ v) = (stillOpen opened u).bind fun next => stillOpen next v :=
  List.foldlM_append

theorem stillOpen_append_eq_some : stillOpen opened (u ++ v) = some after ↔
    ∃ next, stillOpen opened u = some next ∧ stillOpen next v = some after := by
  rw [stillOpen_append]
  exact Option.bind_eq_some_iff

/-- What is open outside does not matter to a text. -/
theorem stillOpen_outer (h : stillOpen opened cs = some after) :
    stillOpen (opened ++ outer) cs = some (after ++ outer) := by
  induction cs generalizing opened with
  | nil =>
    rw [← Option.some.inj h]
    rfl
  | cons c cs ih =>
    obtain ⟨next, hc, hcs⟩ := stillOpen_cons_eq_some.mp h
    exact stillOpen_cons_eq_some.mpr ⟨next ++ outer, openBehind_append hc, ih hcs⟩

theorem IsNested.stillOpen (h : IsNested cs) (opened : List Char) :
    stillOpen opened cs = some opened :=
  stillOpen_outer h

theorem stillOpen_of_no_bracket (h : ∀ c ∈ cs, c ∉ ['(', '[', ')', ']']) :
    stillOpen opened cs = some opened := by
  induction cs with
  | nil => rfl
  | cons c cs ih =>
    exact stillOpen_cons_eq_some.mpr
      ⟨opened, openBehind_other (h c (by simp)), ih fun d hd => h d (by simp [hd])⟩

theorem stillOpen_blanks (h : AllBlank cs) : stillOpen opened cs = some opened := by
  have hsolid : ∀ c ∈ ['(', '[', ')', ']'], Text.isBlank c = false := by decide
  refine stillOpen_of_no_bracket fun c hc hmem => ?_
  have hblank := h c hc
  rw [hsolid c hmem] at hblank
  cases hblank

theorem stillOpen_sign (h : IsNegationSign cs) : stillOpen opened cs = some opened := by
  rcases h with rfl | rfl
  all_goals exact stillOpen_of_no_bracket (by decide)

theorem IsNested.trimEnd (h : IsNested cs) : IsNested (Text.trimEnd cs) := by
  obtain ⟨trail, htrail, he⟩ := exists_dropped Text.isBlank cs
  have he : cs = Text.trimEnd cs ++ trail := he
  rw [IsNested, he, stillOpen_append_eq_some] at h
  obtain ⟨next, hcs, ht⟩ := h
  rw [stillOpen_blanks htrail] at ht
  exact hcs.trans ht

end

/-! ## Literals -/

/-- The text `w` reaches to the first comma or closing bracket outside brackets, or to the end. -/
structure IsUpToMark (w rest : List Char) : Prop where
  nested : IsNested w
  commas : ∀ u v, w = u ++ ',' :: v → ¬ IsNested u
  behind : ∀ c ∈ rest.head?, c ∈ [',', ')', ']']

/-- The brackets within a literal are closed within it. -/
theorem stillOpen_literalExtent {inner outer cs : List Char}
    (h : stillOpen (inner ++ outer) cs = some []) :
    stillOpen inner (literalExtent inner.length cs) = some [] := by
  induction cs generalizing inner with
  | nil =>
    have hnil := (List.append_eq_nil_iff.mp (Option.some.inj h)).1
    subst hnil
    rfl
  | cons c cs ih =>
    obtain ⟨next, hc, hcs⟩ := stillOpen_cons_eq_some.mp h
    rcases openBehind_cases hc with
      ⟨hopen, rfl⟩ | ⟨hclose, o, ho, hmatch⟩ | ⟨hother, rfl⟩
    · rw [literalExtent_opening _ _ hopen]
      exact stillOpen_cons_eq_some.mpr ⟨c :: inner, openBehind_opening hopen, ih hcs⟩
    · cases inner with
      | nil =>
        -- the bracket closes one outside
        have hstop : literalExtent 0 (c :: cs) = [] := by
          simp only [List.mem_cons, List.not_mem_nil, or_false] at hclose
          rcases hclose with rfl | rfl
          all_goals rfl
        rw [List.length_nil, hstop]
        rfl
      | cons d inner =>
        rw [List.cons_append, List.cons.injEq] at ho
        obtain ⟨rfl, rfl⟩ := ho
        rw [List.length_cons, literalExtent_closing _ _ hclose]
        exact stillOpen_cons_eq_some.mpr ⟨inner, hmatch inner, ih hcs⟩
    · by_cases hcomma : c = ',' ∧ inner = []
      · obtain ⟨rfl, rfl⟩ := hcomma
        rfl
      · rw [literalExtent_other _ _ hother fun he hlen =>
          hcomma ⟨he, List.length_eq_zero_iff.mp hlen⟩]
        exact stillOpen_cons_eq_some.mpr ⟨inner, openBehind_other hother, ih hcs⟩

/-- Where a comma stands in a literal, a bracket is open. -/
theorem stillOpen_before_comma {inner cs u v : List Char}
    (h : literalExtent inner.length cs = u ++ ',' :: v) :
    stillOpen inner u ≠ some [] := by
  induction cs generalizing inner u with
  | nil => simp [literalExtent] at h
  | cons c cs ih =>
    intro hu
    cases u with
    | nil =>
      -- the comma itself would end the literal
      have hinner : inner = [] := Option.some.inj hu
      subst hinner
      obtain ⟨rest, he, -⟩ := exists_behind_literal 0 (c :: cs)
      have hc : c = ',' := by
        rw [← List.length_nil (α := Char), h] at he
        exact (List.cons.inj he).1.symm
      subst hc
      cases h
    | cons d u =>
      obtain ⟨next, hd, htail⟩ := stillOpen_cons_eq_some.mp hu
      obtain ⟨rest, he, -⟩ := exists_behind_literal inner.length (c :: cs)
      have hcd : d = c := by
        rw [h] at he
        exact (List.cons.inj he).1
      subst hcd
      rcases openBehind_cases hd with ⟨hopen, rfl⟩ | ⟨hclose, o, rfl, -⟩ | ⟨hother, rfl⟩
      · rw [literalExtent_opening _ _ hopen] at h
        have hlater : literalExtent (d :: inner).length cs = u ++ ',' :: v := (List.cons.inj h).2
        exact ih hlater htail
      · rw [List.length_cons, literalExtent_closing _ _ hclose] at h
        exact ih (List.cons.inj h).2 htail
      · by_cases hcomma : d = ',' ∧ next = []
        · obtain ⟨rfl, rfl⟩ := hcomma
          cases h
        · rw [literalExtent_other _ _ hother fun he hlen =>
            hcomma ⟨he, List.length_eq_zero_iff.mp hlen⟩] at h
          exact ih (List.cons.inj h).2 htail

theorem IsLiteralBefore.isUpToMark {opened literal rest : List Char}
    (h : IsLiteralBefore literal rest) (hn : stillOpen opened (literal ++ rest) = some []) :
    IsUpToMark literal rest := by
  obtain ⟨tail, he, htail⟩ := exists_behind_literal 0 (literal ++ rest)
  have hextent : literalExtent ([] : List Char).length (literal ++ rest) = literal := h.extent
  rw [h.extent] at he
  refine ⟨?_, fun u v hu => ?_, List.append_cancel_left he ▸ htail⟩
  · have hwhole : stillOpen ([] ++ opened) (literal ++ rest) = some [] := hn
    have hnested := stillOpen_literalExtent hwhole
    rwa [hextent] at hnested
  · exact stillOpen_before_comma (hextent.trans hu)

/-! ## The two passes -/

/-- What is enclosed, and what stands behind it. The parentheses around the text match each other,
although the blanks at its end are left out. -/
structure IsEnclosed (w rest : List Char) : Prop extends IsUpToMark w rest where
  matched : IsNested (Text.trimEnd w)

section
variable {before : Option Char} {cs out opened after : List Char}

theorem stillOpen_behind_sign {sign blanks : List Char} (hs : IsNegationSign sign)
    (hb : AllBlank blanks) :
    stillOpen opened (sign ++ (blanks ++ cs)) = stillOpen opened cs := by
  have hfront : stillOpen opened (sign ++ blanks) = some opened :=
    stillOpen_append_eq_some.mpr ⟨opened, stillOpen_sign hs, stillOpen_blanks hb⟩
  rw [← List.append_assoc, stillOpen_append, hfront]
  rfl

/-- The first pass moves no bracket. -/
theorem Opens.same_open (h : Opens before cs out) (hn : stillOpen opened cs = some after) :
    stillOpen opened out = some after := by
  induction h generalizing opened with
  | nil => exact hn
  | other _ _ ih =>
    obtain ⟨next, hc, hcs⟩ := stillOpen_cons_eq_some.mp hn
    exact stillOpen_cons_eq_some.mpr ⟨next, hc, ih hcs⟩
  | group hs hb _ ih =>
    rw [stillOpen_behind_sign hs.negation hb] at hn
    obtain ⟨inner, hc, hcs⟩ := stillOpen_cons_eq_some.mp hn
    have hopening : stillOpen opened opening = some inner := hc
    exact stillOpen_append_eq_some.mpr ⟨inner, hopening, ih hcs⟩

/-- The second pass puts in brackets around literals, which close what they open. -/
theorem Wraps.encloses (h : Wraps before cs out) (hn : stillOpen opened cs = some []) :
    stillOpen opened out = some [] ∧ WrapsBy IsEnclosed before cs out := by
  induction h generalizing opened with
  | nil => exact ⟨hn, .nil⟩
  | other hlone _ ih =>
    obtain ⟨next, hc, hcs⟩ := stillOpen_cons_eq_some.mp hn
    obtain ⟨hout, hwraps⟩ := ih hcs
    exact ⟨stillOpen_cons_eq_some.mpr ⟨next, hc, hout⟩, .other hlone hwraps⟩
  | kept hs hb hl _ ih =>
    rw [stillOpen_behind_sign hs.negation hb] at hn ⊢
    obtain ⟨hout, hwraps⟩ := ih hn
    exact ⟨hout, .kept hs hb hl hwraps⟩
  | wrapped hs hb hl _ ih =>
    rw [stillOpen_behind_sign hs.negation hb] at hn
    have hmark := hl.isUpToMark hn
    have hmatched := hmark.nested.trimEnd
    obtain ⟨next, hliteral, hcs⟩ := stillOpen_append_eq_some.mp hn
    rw [hmark.nested.stillOpen, Option.some.injEq] at hliteral
    subst hliteral
    obtain ⟨hout, hwraps⟩ := ih hcs
    have hopening : stillOpen opened opening = some ('(' :: opened) := rfl
    have hclosing : openBehind ('(' :: opened) ')' = some opened := rfl
    refine ⟨?_, .wrapped hs hb ⟨hmark, hmatched⟩ hwraps⟩
    refine stillOpen_append_eq_some.mpr
      ⟨_, hopening, stillOpen_append_eq_some.mpr ⟨_, hmatched.stillOpen _, ?_⟩⟩
    exact stillOpen_cons_eq_some.mpr ⟨opened, hclosing, hout⟩

end

/-- **Wrapping keeps brackets nested.** Both passes do. The second encloses each bare negation in
parentheses of its own, from behind the sign up to the first comma or closing bracket outside
brackets, or to the end. -/
theorem wrapNegations_nested {cs : List Char} (h : IsNested cs) :
    IsNested (wrapNegations cs) ∧
    WrapsBy IsEnclosed none (replaceAll openingRule cs) (wrapNegations cs) := by
  have hopened : IsNested (replaceAll openingRule cs) := (opens_replaceAfter none cs).same_open h
  exact Wraps.encloses (wraps_replaceAfter none _) hopened

theorem wrapNegations_nested_of_sample :
    IsNested "p(not, [\\+ a | X]), not q([b, c], (d)) , \\+ (e)".toList ∧
    IsNested (wrapNegations "p(not, [\\+ a | X]), not q([b, c], (d)) , \\+ (e)".toList) ∧
    WrapsBy IsEnclosed none
      (replaceAll openingRule "p(not, [\\+ a | X]), not q([b, c], (d)) , \\+ (e)".toList)
      (wrapNegations "p(not, [\\+ a | X]), not q([b, c], (d)) , \\+ (e)".toList) ∧
    wrapNegations "p(not, [\\+ a | X]), not q([b, c], (d)) , \\+ (e)".toList =
      "p(not, [not(a | X)]), not(q([b, c], (d))), not(e)".toList := by
  have hnested : IsNested "p(not, [\\+ a | X]), not q([b, c], (d)) , \\+ (e)".toList := by decide
  obtain ⟨hwrapped, hencloses⟩ := wrapNegations_nested hnested
  exact ⟨hnested, hwrapped, hencloses, by decide⟩

end Sentence

end Clausal
