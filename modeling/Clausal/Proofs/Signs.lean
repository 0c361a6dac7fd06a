import Clausal.Proofs.Wrapping

/-!
# Negation signs in any text

Either pass over negations as a relation between a text and what becomes of it, read
from left to right. Each step knows the character in front of it, so that what holds
of every text is proved by induction on the steps.
-/

namespace Clausal

/-! ## Signs -/

section
variable {sign sign' u v : List Char} (h : IsNegationSign sign)
include h

theorem IsNegationSign.exists_cons :
    ∃ c s, sign = c :: s ∧ c ∈ ['n', '\\'] ∧ ∀ c ∈ s, c ∈ ['o', 't', '+'] := by
  rcases h with h | h
  all_goals subst h; exact ⟨_, _, rfl, by decide⟩

theorem IsNegationSign.append_ne_nil (u : List Char) : sign ++ u ≠ [] := by
  obtain ⟨c, s, rfl, -⟩ := h.exists_cons
  simp

theorem IsNegationSign.front {c : Char} (he : sign ++ u = c :: v) : c ∈ ['n', '\\'] := by
  obtain ⟨d, s, rfl, hd, -⟩ := h.exists_cons
  exact (List.cons.inj he).1 ▸ hd

/-- A sign is told by its first character. -/
theorem IsNegationSign.eq_of_append (h' : IsNegationSign sign') (he : sign ++ u = sign' ++ v) :
    sign = sign' ∧ u = v := by
  rcases h with h | h
  all_goals
    subst h
    rcases h' with h' | h'
    all_goals subst h'; simp_all

end

namespace Sentence

/-- A negation sign that is a word by itself on its left. -/
structure IsSignAt (before : Option Char) (sign : List Char) : Prop where
  negation : IsNegationSign sign
  left : sign = ['n', 'o', 't'] → Apart before

/-- A negation sign that is a word by itself. -/
structure IsLoneSign (before : Option Char) (sign rest : List Char) :
    Prop extends IsSignAt before sign where
  right : sign = ['n', 'o', 't'] → Apart rest.head?

/-- No literal begins here. -/
def LacksLiteral (rest : List Char) : Prop := ∀ c ∈ rest.head?, c ∈ ['(', ',', ')', ']']

section
variable {before : Option Char} {cs : List Char} {n : Nat}

theorem signLength?_eq_some (h : signLength? before cs = some n) :
    ∃ sign rest, IsSignAt before sign ∧ cs = sign ++ rest ∧ n = sign.length := by
  unfold signLength? at h
  split at h
  · rename_i rest
    by_cases hb : before.any Text.isWord = true
    · rw [if_pos hb] at h
      cases h
    · rw [if_neg hb, Option.some.injEq] at h
      exact ⟨['n', 'o', 't'], rest, ⟨.inl rfl, fun _ => by simpa [Apart] using hb⟩,
        rfl, h.symm⟩
  · rename_i rest
    exact ⟨['\\', '+'], rest, ⟨.inr rfl, fun hs => by cases hs⟩, rfl,
      (Option.some.inj h).symm⟩
  · cases h

theorem IsSignAt.signLength? {sign : List Char} (h : IsSignAt before sign) (rest : List Char) :
    signLength? before (sign ++ rest) = some sign.length := by
  rcases h.negation with hs | hs
  · exact signLength?_sign (.inl hs) (h.left hs) rest
  · subst hs
    rfl

theorem loneSignLength?_eq_some (h : loneSignLength? before cs = some n) :
    ∃ sign rest, IsLoneSign before sign rest ∧ cs = sign ++ rest ∧ n = sign.length := by
  unfold loneSignLength? at h
  split at h
  · rename_i hsign
    obtain ⟨sign, rest, hs, he, hlen⟩ := signLength?_eq_some hsign
    have hhead : cs[3]? = rest.head? := by
      rw [he, hlen, List.getElem?_append_right (Nat.le_refl _), Nat.sub_self,
        List.head?_eq_getElem?]
    by_cases hw : (cs[3]?).any Text.isWord = true
    · rw [if_pos hw] at h
      cases h
    · rw [if_neg hw, Option.some.injEq] at h
      exact ⟨sign, rest, ⟨hs, fun _ => by rw [hhead] at hw; simpa [Apart] using hw⟩, he,
        h.symm.trans hlen⟩
  · rename_i hother
    obtain ⟨sign, rest, hs, he, hlen⟩ := signLength?_eq_some h
    refine ⟨sign, rest, ⟨hs, fun hnot => ?_⟩, he, hlen⟩
    -- the word has three characters
    rw [hlen, hnot] at h
    exact absurd h hother

theorem IsLoneSign.loneSignLength? {sign rest : List Char} (h : IsLoneSign before sign rest) :
    loneSignLength? before (sign ++ rest) = some sign.length := by
  rcases h.negation with hs | hs
  · exact loneSignLength?_sign (.inl hs) (h.left hs) h.right
  · subst hs
    rfl

end

/-- What comes behind the blanks. -/
theorem exists_blanks (cs : List Char) :
    ∃ blanks rest, cs = blanks ++ rest ∧ AllBlank blanks ∧ Stops Text.isBlank rest :=
  ⟨cs.takeWhile Text.isBlank, cs.dropWhile Text.isBlank, List.takeWhile_append_dropWhile.symm,
    fun c hc => List.all_eq_true.mp List.all_takeWhile c hc, stops_dropWhile _ _⟩

theorem replaceAfter_congr {rule : MatchRule} {before after : Option Char} {cs : List Char}
    (h : rule before cs = rule after cs) :
    replaceAfter rule before 0 cs = replaceAfter rule after 0 cs := by
  cases cs with
  | nil => rfl
  | cons c cs => rw [replaceAfter, replaceAfter, h]

theorem signLength?_congr {before after : Option Char}
    (h : before.any Text.isWord = after.any Text.isWord) (cs : List Char) :
    signLength? before cs = signLength? after cs := by
  unfold signLength?
  rw [h]

/-! ## Opening -/

/-- The first pass: every group that is negated begins alike. -/
inductive Opens : Option Char → List Char → List Char → Prop
  | nil {before} : Opens before [] []
  | other {before c cs out} : openingRule before (c :: cs) = none → Opens (some c) cs out →
      Opens before (c :: cs) (c :: out)
  | group {before sign blanks cs out} : IsSignAt before sign → AllBlank blanks →
      Opens (some '(') cs out →
      Opens before (sign ++ (blanks ++ '(' :: cs)) (opening ++ out)

theorem openingRule_group {before : Option Char} {sign blanks : List Char}
    (hs : IsSignAt before sign) (hb : AllBlank blanks) (cs : List Char) :
    openingRule before (sign ++ (blanks ++ '(' :: cs)) =
      some (opening, (sign ++ blanks).length + 1) := by
  have hrule := openingRule_sign hb (stops_cons.mpr rfl) (hs.signLength? (blanks ++ '(' :: cs))
  rwa [List.head?_cons, if_pos rfl] at hrule

theorem openingRule_eq_some {before : Option Char} {cs : List Char}
    (h : openingRule before cs ≠ none) :
    ∃ sign blanks rest, IsSignAt before sign ∧ AllBlank blanks ∧
    cs = sign ++ (blanks ++ '(' :: rest) := by
  cases hsign : signLength? before cs with
  | none => exact absurd (openingRule_eq_none hsign) h
  | some n =>
    obtain ⟨sign, tail, hs, he, -⟩ := signLength?_eq_some hsign
    obtain ⟨blanks, rest, ht, hb, hr⟩ := exists_blanks tail
    subst he ht
    rw [openingRule_sign hb hr (hs.signLength? _)] at h
    by_cases hopen : rest.head? = some '('
    · obtain ⟨more, hm⟩ := List.head?_eq_some_iff.mp hopen
      exact ⟨sign, blanks, more, hs, hb, by rw [hm]⟩
    · exact absurd (if_neg hopen) h

theorem opens_replaceAfter (before : Option Char) (cs : List Char) :
    Opens before cs (replaceAfter openingRule before 0 cs) := by
  generalize hn : cs.length = n
  induction n using Nat.strongRecOn generalizing before cs with
  | ind n ih =>
    by_cases hrule : openingRule before cs = none
    · cases cs with
      | nil => exact .nil
      | cons c cs =>
        rw [replaceAfter_of_none hrule]
        exact .other hrule (ih cs.length (by simp at hn; omega) _ _ rfl)
    · obtain ⟨sign, blanks, rest, hs, hb, he⟩ := openingRule_eq_some hrule
      have hdrop : (sign ++ (blanks ++ '(' :: rest)).drop ((sign ++ blanks).length + 1) = rest := by
        rw [← List.append_assoc, ← List.drop_drop, List.drop_left]
        rfl
      have hlater := ih rest.length (by subst he; simp at hn; omega) (some '(') rest rfl
      have hapart : (none : Option Char).any Text.isWord = (some '(').any Text.isWord :=
        apart_parenthesis.symm
      have hcontext : openingRule none rest = openingRule (some '(') rest := by
        unfold openingRule
        rw [signLength?_congr hapart]
      rw [he, replaceAfter_of_match (openingRule_group hs hb rest) (by omega) (by simp), hdrop,
        replaceAfter_congr hcontext]
      exact .group hs hb hlater

/-! ## Wrapping -/

/-- A literal, and what stands behind it. -/
structure IsLiteralBefore (literal rest : List Char) : Prop where
  front : ∃ c w, literal = c :: w ∧ Text.isBlank c = false ∧ c ∉ ['(', ',', ')', ']']
  extent : literalExtent 0 (literal ++ rest) = literal

/-- The second pass: bare literals behind a negation sign are wrapped. How far a literal reaches is
told by the text behind it. -/
inductive WrapsBy (IsLiteral : List Char → List Char → Prop) :
    Option Char → List Char → List Char → Prop
  | nil {before} : WrapsBy IsLiteral before [] []
  | other {before c cs out} : loneSignLength? before (c :: cs) = none →
      WrapsBy IsLiteral (some c) cs out →
      WrapsBy IsLiteral before (c :: cs) (c :: out)
  | kept {before sign blanks cs out} : IsLoneSign before sign (blanks ++ cs) → AllBlank blanks →
      LacksLiteral cs →
      WrapsBy IsLiteral (sign ++ blanks).getLast? cs out →
      WrapsBy IsLiteral before (sign ++ (blanks ++ cs)) (sign ++ (blanks ++ out))
  | wrapped {before sign blanks literal cs out} :
      IsLoneSign before sign (blanks ++ (literal ++ cs)) → AllBlank blanks →
      IsLiteral literal cs → WrapsBy IsLiteral literal.getLast? cs out →
      WrapsBy IsLiteral before (sign ++ (blanks ++ (literal ++ cs)))
        (opening ++ (Text.trimEnd literal ++ ')' :: out))

abbrev Wraps := WrapsBy IsLiteralBefore

theorem LacksLiteral.stops {cs : List Char} (h : LacksLiteral cs) : Stops Text.isBlank cs := by
  have hsolid : ∀ c ∈ ['(', ',', ')', ']'], Text.isBlank c = false := by decide
  exact fun c hc => hsolid c (h c hc)

theorem exists_behind_literal (depth : Nat) (cs : List Char) :
    ∃ rest, literalExtent depth cs ++ rest = cs ∧ ∀ c ∈ rest.head?, c ∈ [',', ')', ']'] := by
  induction cs generalizing depth with
  | nil => exact ⟨[], rfl, by simp⟩
  | cons c cs ih =>
    have hgoes {d : Nat} : ∃ rest, c :: literalExtent d cs ++ rest = c :: cs ∧
        ∀ e ∈ rest.head?, e ∈ [',', ')', ']'] := by
      obtain ⟨rest, he, hr⟩ := ih d
      exact ⟨rest, congrArg (c :: ·) he, hr⟩
    have hstops (hc : c ∈ [',', ')', ']']) : ∃ rest, [] ++ rest = c :: cs ∧
        ∀ e ∈ rest.head?, e ∈ [',', ')', ']'] :=
      ⟨c :: cs, rfl, fun e he => Option.some.inj he ▸ hc⟩
    rw [literalExtent_cons]
    split
    · exact hgoes
    · split
      · rename_i hclose
        split
        · exact hstops (by simp [hclose])
        · exact hgoes
      · split
        · rename_i hcomma
          exact hstops (by simp [hcomma.1])
        · exact hgoes

theorem IsLiteralBefore.behind {literal rest : List Char} (h : IsLiteralBefore literal rest) :
    LacksLiteral rest := by
  obtain ⟨tail, he, ht⟩ := exists_behind_literal 0 (literal ++ rest)
  rw [h.extent] at he
  rw [← List.append_cancel_left he]
  exact fun c hc => List.mem_cons_of_mem _ (ht c hc)

theorem exists_literalExtent_eq {c : Char} (hc : c ∉ ['(', ',', ')', ']']) (cs : List Char) :
    ∃ w, literalExtent 0 (c :: cs) = c :: w := by
  simp only [List.mem_cons, List.not_mem_nil, or_false, not_or] at hc
  rw [literalExtent_cons]
  by_cases hopen : c = '['
  · exact ⟨_, if_pos (.inr hopen)⟩
  · refine ⟨literalExtent 0 cs, ?_⟩
    rw [if_neg (by simp [hc, hopen]), if_neg (by simp [hc]), if_neg (by simp [hc])]

/-- Whether a literal follows is told by the first character. -/
theorem lacksLiteral_iff {cs : List Char} (h : Stops Text.isBlank cs) :
    (cs.head? = some '(' ∨ (literalExtent 0 cs).all Text.isBlank = true) ↔ LacksLiteral cs := by
  cases cs with
  | nil => exact ⟨fun _ _ hc => (by cases hc), fun _ => .inr rfl⟩
  | cons c cs =>
    have hc : Text.isBlank c = false := h c rfl
    by_cases hlacks : c ∈ ['(', ',', ')', ']']
    · refine iff_of_true ?_ fun d hd => Option.some.inj hd ▸ hlacks
      simp only [List.mem_cons, List.not_mem_nil, or_false] at hlacks
      rcases hlacks with hl | hl | hl | hl
      · exact .inl (congrArg some hl)
      all_goals subst hl; exact .inr rfl
    · refine iff_of_false (fun hor => ?_) fun hall => hlacks (hall c rfl)
      rcases hor with hopen | hall
      · exact hlacks (by rw [Option.some.inj hopen]; simp)
      · obtain ⟨w, hw⟩ := exists_literalExtent_eq hlacks cs
        rw [hw, List.all_cons, hc] at hall
        cases hall

theorem IsLiteralBefore.of_not_lacks {cs : List Char} (hs : Stops Text.isBlank cs)
    (h : ¬ LacksLiteral cs) :
    ∃ rest, cs = literalExtent 0 cs ++ rest ∧ IsLiteralBefore (literalExtent 0 cs) rest := by
  obtain ⟨rest, he, -⟩ := exists_behind_literal 0 cs
  refine ⟨rest, he.symm, ?_, by rw [he]⟩
  cases cs with
  | nil => exact absurd (fun c hc => by cases hc) h
  | cons c cs =>
    have hc : c ∉ ['(', ',', ')', ']'] := fun hmem => h fun d hd => Option.some.inj hd ▸ hmem
    obtain ⟨w, hw⟩ := exists_literalExtent_eq hc cs
    exact ⟨c, w, hw, hs c rfl, hc⟩

theorem wrappingRule_of_lacks {cs : List Char} (h : LacksLiteral cs) (before : Option Char) :
    wrappingRule before cs = none := by
  refine wrappingRule_eq_none ?_
  cases cs with
  | nil => rfl
  | cons c cs =>
    have hmark : ∀ c ∈ ['(', ',', ')', ']'], c ≠ 'n' ∧ c ≠ '\\' := by decide
    obtain ⟨hn, hs⟩ := hmark c (h c rfl)
    exact signLength?_cons hn hs

theorem wraps_replaceAfter (before : Option Char) (cs : List Char) :
    Wraps before cs (replaceAfter wrappingRule before 0 cs) := by
  generalize hn : cs.length = n
  induction n using Nat.strongRecOn generalizing before cs with
  | ind n ih =>
    cases hlone : loneSignLength? before cs with
    | none =>
      cases cs with
      | nil => exact .nil
      | cons c cs =>
        have hrule : wrappingRule before (c :: cs) = none := by unfold wrappingRule; rw [hlone]
        rw [replaceAfter_of_none hrule]
        exact .other hlone (ih cs.length (by simp at hn; omega) _ _ rfl)
    | some k =>
      obtain ⟨sign, tail, hs, he, -⟩ := loneSignLength?_eq_some hlone
      obtain ⟨blanks, rest, ht, hb, hr⟩ := exists_blanks tail
      subst he ht
      have hrule := wrappingRule_sign hb hr hs.loneSignLength?
      have hpos : 0 < (sign ++ blanks).length :=
        List.length_pos_iff.mpr (hs.negation.append_ne_nil blanks)
      rw [← List.append_assoc, List.length_append] at hn
      -- no sign begins behind a match, whatever stands before
      have hlater {v : List Char} (hv : LacksLiteral v) (hlen : v.length < n)
          (after : Option Char) :
          Wraps after v (replaceAfter wrappingRule none 0 v) := by
        have hcontext : wrappingRule none v = wrappingRule after v := by
          rw [wrappingRule_of_lacks hv, wrappingRule_of_lacks hv]
        rw [replaceAfter_congr hcontext]
        exact ih v.length hlen _ _ rfl
      by_cases hlacks : LacksLiteral rest
      · have hdrop : (sign ++ (blanks ++ rest)).drop (sign ++ blanks).length = rest := by
          rw [← List.append_assoc, List.drop_left]
        rw [if_pos ((lacksLiteral_iff hr).mpr hlacks)] at hrule
        rw [replaceAfter_of_match hrule hpos (hs.negation.append_ne_nil _), hdrop,
          List.append_assoc]
        exact .kept hs hb hlacks (hlater hlacks (by omega) _)
      · obtain ⟨v, he, hl⟩ := IsLiteralBefore.of_not_lacks hr hlacks
        rw [if_neg fun hor => hlacks ((lacksLiteral_iff hr).mp hor)] at hrule
        generalize literalExtent 0 rest = literal at he hl hrule
        subst he
        have hdrop : (sign ++ (blanks ++ (literal ++ v))).drop
            ((sign ++ blanks).length + literal.length) = v := by
          rw [← List.append_assoc, ← List.append_assoc, ← List.length_append, List.drop_left]
        have hshorter : v.length ≤ (literal ++ v).length :=
          (List.suffix_append literal v).length_le
        have hwrapped := WrapsBy.wrapped hs hb hl (hlater hl.behind (by omega) _)
        rw [replaceAfter_of_match hrule (Nat.add_pos_left hpos _) (hs.negation.append_ne_nil _),
          hdrop]
        simpa using hwrapped

end Sentence

end Clausal
