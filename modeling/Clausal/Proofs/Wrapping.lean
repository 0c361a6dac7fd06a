import Clausal.Proofs.Segment

/-!
# Negations of a line

Neither pass over the negations of a line changes its atoms: where the word `not`
stands in an atom, it is a name before a parenthesis or a whole argument. The first
pass opens every negated group in the same way, and the second wraps bare atoms.
-/

namespace Clausal

open Lexeme

namespace Sentence

/-! ## Characters of words -/

theorem isWord_of_isNameChar {c : Char} (h : isNameChar c = true) : Text.isWord c = true := by
  have hrange := Text.toNat_of_isNameChar h
  unfold Text.isWord
  rw [if_pos (by omega)]
  exact h

def blankCodes : List Nat :=
  [9, 10, 11, 12, 13, 32, 133, 160, 5760, 8192, 8193, 8194, 8195, 8196, 8197, 8198, 8199, 8200,
    8201, 8202, 8232, 8233, 8239, 8287, 12288]

theorem isWord_blankCodes : ∀ n ∈ blankCodes, Text.isWord (Char.ofNat n) = false := by
  decide +kernel

theorem isWord_of_isBlank {c : Char} (h : Text.isBlank c = true) : Text.isWord c = false := by
  have hcode : c.toNat ∈ blankCodes := by
    simp only [Text.isBlank, Text.blankRanges, Text.Ranges.contains, List.any_cons, List.any_nil,
      Bool.or_false, Bool.or_eq_true, Bool.and_eq_true, decide_eq_true_eq] at h
    simp only [blankCodes, List.mem_cons, List.not_mem_nil, or_false]
    omega
  rw [← Char.ofNat_toNat c]
  exact isWord_blankCodes _ hcode

/-! ## Replacing -/

theorem replaceAfter_drop (rule : MatchRule) (n : Nat) (cs : List Char) :
    replaceAfter rule none n cs = replaceAfter rule none 0 (cs.drop n) := by
  induction cs generalizing n with
  | nil => cases n <;> rfl
  | cons c cs ih =>
    cases n with
    | zero => rfl
    | succ n => exact ih n

section
variable {rule : MatchRule} {before : Option Char} {cs : List Char}

theorem replaceAfter_of_match {replacement : List Char} {n : Nat}
    (h : rule before cs = some (replacement, n)) (hn : 0 < n) (hne : cs ≠ []) :
    replaceAfter rule before 0 cs = replacement ++ replaceAfter rule none 0 (cs.drop n) := by
  obtain ⟨c, cs, he⟩ := List.exists_cons_of_ne_nil hne
  obtain ⟨k, hk⟩ : ∃ k, n = k + 1 := ⟨n - 1, by omega⟩
  subst he hk
  rw [replaceAfter, h]
  simp only [Nat.add_sub_cancel, replaceAfter_drop rule k, List.drop_succ_cons]

theorem replaceAfter_of_none {c : Char} (h : rule before (c :: cs) = none) :
    replaceAfter rule before 0 (c :: cs) = c :: replaceAfter rule (some c) 0 cs := by
  rw [replaceAfter, h]

end

/-- The front of a text either is no match or is replaced by itself, within its first `n`
characters. -/
def Keeps (rule : MatchRule) (n : Nat) (cs : List Char) : Prop := ∀ before,
  rule before cs = none ∨ ∃ k, 0 < k ∧ k ≤ n ∧ rule before cs = some (cs.take k, k)

theorem replaceAfter_of_keeps {rule : MatchRule} {w rest : List Char}
    (h : ∀ v, v ≠ [] → v <:+ w → Keeps rule v.length (v ++ rest)) (before : Option Char) :
    ∃ after, replaceAfter rule before 0 (w ++ rest) = w ++ replaceAfter rule after 0 rest := by
  generalize hlen : w.length = n
  induction n using Nat.strongRecOn generalizing w before with
  | ind n ih =>
    cases w with
    | nil => exact ⟨before, rfl⟩
    | cons c w =>
      rw [List.length_cons] at hlen
      rcases h (c :: w) (by simp) (List.suffix_refl _) before with
        hnone | ⟨k, hpos, hle, hmatch⟩
      · have hstep : rule before (c :: (w ++ rest)) = none := hnone
        obtain ⟨after, ha⟩ := ih w.length (by omega)
          (fun v hv hs => h v hv (hs.trans (List.suffix_cons c w))) (some c) rfl
        refine ⟨after, ?_⟩
        rw [List.cons_append, replaceAfter_of_none hstep, ha]
        rfl
      · -- a match is put back, and what it leaves of the text is shorter
        have hdrop : (c :: w ++ rest).drop k = (c :: w).drop k ++ rest :=
          List.drop_append_of_le_length hle
        have htake : (c :: w ++ rest).take k = (c :: w).take k := List.take_append_of_le_length hle
        obtain ⟨after, ha⟩ :=
          ih ((c :: w).drop k).length (by simp only [List.length_drop, List.length_cons]; omega)
          (fun v hv hs => h v hv (hs.trans (List.drop_suffix k (c :: w)))) none rfl
        refine ⟨after, ?_⟩
        rw [replaceAfter_of_match hmatch hpos (by simp), hdrop, ha, htake, ← List.append_assoc,
          List.take_append_drop]

/-! ## Signs -/

section
variable {before : Option Char} {cs : List Char}

theorem signLength?_cons {c : Char} (hn : c ≠ 'n') (hs : c ≠ '\\') :
    signLength? before (c :: cs) = none := by
  rw [signLength?.eq_3]
  · exact fun _ he => hn (List.cons.inj he).1
  · exact fun _ he => hs (List.cons.inj he).1

theorem signLength?_eq_none (hn : ∀ rest, cs ≠ 'n' :: 'o' :: 't' :: rest)
    (hs : ∀ c ∈ cs.head?, c ≠ '\\') :
    signLength? before cs = none := by
  rw [signLength?.eq_3]
  · exact fun rest he => hn rest he
  · intro rest he
    subst he
    exact hs '\\' rfl rfl

theorem openingRule_eq_none (h : signLength? before cs = none) : openingRule before cs = none := by
  unfold openingRule
  rw [h]

theorem wrappingRule_eq_none (h : signLength? before cs = none) :
    wrappingRule before cs = none := by
  unfold wrappingRule loneSignLength?
  rw [h]

end

section
variable {before : Option Char} {sign blanks rest : List Char}

theorem signLength?_sign (hs : IsNegationSign sign) (hb : before.any Text.isWord = false)
    (rest : List Char) :
    signLength? before (sign ++ rest) = some sign.length := by
  rcases hs with hs | hs
  · subst hs
    show (if before.any Text.isWord = true then none else some 3) = some 3
    rw [hb]
    rfl
  · subst hs
    rfl

theorem loneSignLength?_sign (hs : IsNegationSign sign) (hb : before.any Text.isWord = false)
    (hr : sign = ['n', 'o', 't'] → rest.head?.any Text.isWord = false) :
    loneSignLength? before (sign ++ rest) = some sign.length := by
  unfold loneSignLength?
  rw [signLength?_sign hs hb]
  rcases hs with hs | hs
  · have hhead : (sign ++ rest)[3]? = rest.head? := by
      subst hs
      cases rest <;> rfl
    have hword := hr hs
    subst hs
    rw [← hhead] at hword
    show (if _ then none else some 3) = some 3
    rw [hword]
    rfl
  · subst hs
    rfl

theorem loneSignLength?_eq_none (hr : rest.head?.any Text.isWord = true) :
    loneSignLength? before (['n', 'o', 't'] ++ rest) = none := by
  have hhead : (['n', 'o', 't'] ++ rest)[3]? = rest.head? := by cases rest <;> rfl
  unfold loneSignLength?
  cases hb : before.any Text.isWord with
  | true =>
    have hsign : signLength? before (['n', 'o', 't'] ++ rest) = none := if_pos hb
    rw [hsign]
  | false =>
    rw [signLength?_sign (.inl rfl) hb]
    show (if _ then none else some 3) = none
    rw [hhead, if_pos hr]

theorem blankCount_append (hb : AllBlank blanks) (hr : Stops Text.isBlank rest) :
    blankCount (blanks ++ rest) = blanks.length := by
  unfold blankCount
  rw [(takeWhile_of_stops hb hr).1]

section
variable (hb : AllBlank blanks) (hr : Stops Text.isBlank rest)
include hb hr

theorem openingRule_sign (h : signLength? before (sign ++ (blanks ++ rest)) = some sign.length) :
    openingRule before (sign ++ (blanks ++ rest)) =
      if rest.head? = some '(' then some (opening, (sign ++ blanks).length + 1) else none := by
  have hdrop : (sign ++ (blanks ++ rest)).drop (sign.length + blanks.length) = rest := by
    rw [← List.append_assoc, ← List.length_append, List.drop_left]
  unfold openingRule
  rw [h]
  simp only [List.drop_left, blankCount_append hb hr, hdrop]
  split
  · simp
  · rename_i hne
    rw [if_neg]
    intro hhead
    obtain ⟨c, cs, he⟩ :=
      List.exists_cons_of_ne_nil (show rest ≠ [] by rintro rfl; cases hhead)
    rw [he, List.head?_cons, Option.some.injEq] at hhead
    exact hne cs (by rw [he, hhead])

theorem wrappingRule_sign
    (h : loneSignLength? before (sign ++ (blanks ++ rest)) = some sign.length) :
    wrappingRule before (sign ++ (blanks ++ rest)) =
      if rest.head? = some '(' ∨ (literalExtent 0 rest).all Text.isBlank = true then
        some (sign ++ blanks, (sign ++ blanks).length)
      else some (opening ++ Text.trimEnd (literalExtent 0 rest) ++ [')'],
        (sign ++ blanks).length + (literalExtent 0 rest).length) := by
  have hdrop : (sign ++ (blanks ++ rest)).drop (sign.length + blanks.length) = rest := by
    rw [← List.append_assoc, ← List.length_append, List.drop_left]
  have htake : (sign ++ (blanks ++ rest)).take (sign.length + blanks.length) = sign ++ blanks := by
    rw [← List.append_assoc, ← List.length_append, List.take_left]
  unfold wrappingRule
  rw [h]
  simp only [List.drop_left, blankCount_append hb hr, hdrop, htake, List.length_append]

end

end

/-! ## Atoms -/

/-- What may stand behind an atom in a line. -/
def EndsAtom (rest : List Char) : Prop := ∀ c ∈ rest.head?, c ∈ [',', ')']

/-- A text whose front, within `n` characters, is a negation sign only as a whole word that is an
argument or a name before a parenthesis. -/
structure Settled (n : Nat) (cs : List Char) : Prop where
  front : ∀ c ∈ cs.head?, c ≠ '\\'
  word : ∀ rest, cs = 'n' :: 'o' :: 't' :: rest →
    3 ≤ n ∧ (∀ c ∈ rest.head?, isNameChar c = true ∨ c ∈ ['(', ',', ')', ']']) ∧
    (rest.head? = some '(' → 4 ≤ n)

theorem allBlank_nil : AllBlank [] := by simp [AllBlank]

section
variable {n : Nat} {rest : List Char} (h : Settled n (['n', 'o', 't'] ++ rest))
include h

theorem Settled.stops : Stops Text.isBlank rest := by
  have hmark : ∀ c ∈ ['(', ',', ')', ']'], Text.isBlank c = false := by decide
  intro c hc
  rcases (h.word rest rfl).2.1 c hc with hn | hm
  · exact Text.isBlank_of_isNameChar hn
  · exact hmark c hm

theorem Settled.opening_keeps : Keeps openingRule n (['n', 'o', 't'] ++ rest) := by
  intro before
  by_cases hb : before.any Text.isWord = true
  · exact .inl (openingRule_eq_none (if_pos hb))
  · have hsign := signLength?_sign (.inl rfl) (by simpa using hb) ([] ++ rest)
    have hrule := openingRule_sign allBlank_nil h.stops hsign
    rw [List.nil_append] at hrule
    by_cases hopen : rest.head? = some '('
    · rw [if_pos hopen] at hrule
      refine .inr ⟨4, by decide, (h.word rest rfl).2.2 hopen, hrule.trans ?_⟩
      cases rest with
      | nil => cases hopen
      | cons c rest =>
        rw [List.head?_cons, Option.some.injEq] at hopen
        subst hopen
        rfl
    · rw [if_neg hopen] at hrule
      exact .inl hrule

theorem Settled.wrapping_keeps : Keeps wrappingRule n (['n', 'o', 't'] ++ rest) := by
  intro before
  by_cases hb : before.any Text.isWord = true
  · exact .inl (wrappingRule_eq_none (if_pos hb))
  · obtain ⟨h3, hhead, -⟩ := h.word rest rfl
    by_cases hword : rest.head?.any Text.isWord = true
    · -- the word goes on
      left
      unfold wrappingRule
      rw [loneSignLength?_eq_none hword]
    · have hends : ([] ++ rest).head?.any Text.isWord = false := by simpa using hword
      have hlone := loneSignLength?_sign (.inl rfl) (by simpa using hb) fun _ => hends
      have hrule := wrappingRule_sign allBlank_nil h.stops hlone
      rw [List.nil_append, if_pos] at hrule
      · exact .inr ⟨3, by decide, h3, hrule⟩
      · -- what follows the word is a bracket or a comma, if anything
        cases rest with
        | nil => exact .inr rfl
        | cons c rest =>
          rcases hhead c rfl with hn | hm
          · exact absurd (isWord_of_isNameChar hn) hword
          · simp only [List.mem_cons, List.not_mem_nil, or_false] at hm
            rcases hm with hm | hm | hm | hm
            · subst hm
              exact .inl rfl
            all_goals subst hm; exact .inr rfl

end

/-- A rule that changes nothing but at negation signs, and nothing at the word `not` in an atom. -/
structure Tame (rule : MatchRule) : Prop where
  atSigns : ∀ {before cs}, signLength? before cs = none → rule before cs = none
  atWords : ∀ {n rest}, Settled n (['n', 'o', 't'] ++ rest) →
    Keeps rule n (['n', 'o', 't'] ++ rest)

theorem tame_openingRule : Tame openingRule := ⟨openingRule_eq_none, fun h => h.opening_keeps⟩

theorem tame_wrappingRule : Tame wrappingRule :=
  ⟨wrappingRule_eq_none, fun h => h.wrapping_keeps⟩

theorem endsWord_append {rest u : List Char} (hr : EndsWord rest) (hu : EndsAtom u) :
    EndsWord (rest ++ u) := by
  cases rest with
  | nil => exact fun c hc => by have := hu c hc; grind
  | cons c rest => exact hr

/-- Where the word `not` begins within a word, all of it stands there. -/
theorem exists_append_not {v rest y : List Char} (hr : EndsWord rest)
    (h : v ++ rest = ['n', 'o', 't'] ++ y) :
    ∃ t, v = ['n', 'o', 't'] ++ t ∧ y = t ++ rest := by
  have hmarks : ∀ c ∈ ['n', 'o', 't'], c ∉ ['(', ',', ')', ']'] := by decide
  rcases List.append_eq_append_iff.mp h with ⟨t, hnot, hrest⟩ | hsplit
  · cases t with
    | nil => exact ⟨[], by simpa using hnot.symm, by simpa using hrest.symm⟩
    | cons c t =>
      have hc : c ∈ ['n', 'o', 't'] := by rw [hnot]; simp
      exact absurd (hr c (by simp [hrest])) (hmarks c hc)
  · exact hsplit

theorem settled_word {w rest u : List Char} (hw : IsWord w) (hr : EndsWord rest) (hu : EndsAtom u)
    {v : List Char} (hne : v ≠ []) (hv : v <:+ w) :
    Settled (v ++ rest).length (v ++ (rest ++ u)) := by
  have hends := endsWord_append hr hu
  constructor
  · intro c hc
    obtain ⟨d, t, he⟩ := List.exists_cons_of_ne_nil hne
    rw [he, List.cons_append, List.head?_cons, Option.mem_def, Option.some.injEq] at hc
    have hmem : c ∈ w := hv.subset (by simp [he, hc])
    intro hslash
    exact hw.not_mem (by decide) (hslash ▸ hmem)
  · intro y hy
    obtain ⟨t, ht, hyt⟩ := exists_append_not hends hy
    have hname : ∀ c ∈ t, isNameChar c = true := fun c hc =>
      hw.all_name (hv.subset (by simp [ht])) c (hv.subset (by simp [ht, hc]))
    have hlen : (v ++ rest).length = 3 + t.length + rest.length := by
      simp only [ht, List.length_append, List.length_cons, List.length_nil]
    refine ⟨by omega, fun c hc => ?_, fun hopen => ?_⟩
    · cases t with
      | nil => exact .inr (hends c (by rwa [hyt] at hc))
      | cons d t =>
        rw [hyt, List.cons_append, List.head?_cons, Option.mem_def, Option.some.injEq] at hc
        exact .inl (hc ▸ hname d (by simp))
    · -- a parenthesis belongs to the atom, since nothing that ends an atom opens one
      have hlonger : t ++ rest ≠ [] := by
        intro he
        obtain ⟨ht, hrest⟩ := List.append_eq_nil_iff.mp he
        have := hu '(' (by rw [hyt, ht, hrest] at hopen; exact hopen)
        simp at this
      have := List.length_pos_iff.mpr hlonger
      rw [List.length_append] at this
      omega

theorem settled_mark {c : Char} {w : List Char} (hn : c ≠ 'n') (hs : c ≠ '\\') (n : Nat) :
    Settled n (c :: w) :=
  ⟨fun _ hd => (Option.some.inj hd) ▸ hs, fun _ he => absurd (List.cons.inj he).1 hn⟩

/-- In an atom the word `not` is an argument or a name before a parenthesis. -/
theorem settled_outline {depth : Nat} {w u : List Char} (h : Outline IsWord depth w)
    (hu : EndsAtom u) {v : List Char} (hne : v ≠ []) (hv : v <:+ w) :
    Settled v.length (v ++ u) := by
  have hmark : ∀ c ∈ ['(', '[', ')', ']'], c ≠ 'n' ∧ c ≠ '\\' := by decide
  induction h with
  | done => exact absurd (List.suffix_nil.mp hv) hne
  | @word w rest _ hw hr _ ih =>
    obtain ⟨p, hp⟩ := hv
    rcases List.append_eq_append_iff.mp hp with ⟨t, ht, hrest⟩ | ⟨t, ht, hrest⟩
    · by_cases hempty : t = []
      · rw [hempty, List.nil_append] at hrest
        exact ih (hrest ▸ List.suffix_refl _)
      · rw [hrest, List.append_assoc]
        exact settled_word hw hr hu hempty ⟨p, ht.symm⟩
    · exact ih ⟨t, hrest.symm⟩
  | @opening c _ _ hc _ ih =>
    obtain ⟨hn, hs⟩ := hmark c (by grind)
    rcases List.suffix_cons_iff.mp hv with he | hv
    · exact he ▸ settled_mark hn hs _
    · exact ih hv
  | @closing c _ _ hc _ ih =>
    obtain ⟨hn, hs⟩ := hmark c (by grind)
    rcases List.suffix_cons_iff.mp hv with he | hv
    · exact he ▸ settled_mark hn hs _
    · exact ih hv
  | comma _ ih =>
    rcases List.suffix_cons_iff.mp hv with he | hv
    · exact he ▸ settled_mark (by decide) (by decide) _
    · rcases List.suffix_cons_iff.mp hv with he | hv
      · exact he ▸ settled_mark (by decide) (by decide) _
      · exact ih hv
  | equals _ ih =>
    rcases List.suffix_cons_iff.mp hv with he | hv
    · exact he ▸ settled_mark (by decide) (by decide) _
    · exact ih hv

section
variable {rule : MatchRule} (hr : Tame rule)
include hr

theorem replaceAfter_cons {c : Char} (hn : c ≠ 'n') (hs : c ≠ '\\') (before : Option Char)
    (cs : List Char) :
    replaceAfter rule before 0 (c :: cs) = c :: replaceAfter rule (some c) 0 cs :=
  replaceAfter_of_none (hr.atSigns (signLength?_cons hn hs))

theorem replaceAfter_signless {w : List Char} (hn : 'n' ∉ w) (hs : '\\' ∉ w)
    (before : Option Char) (rest : List Char) :
    ∃ after, replaceAfter rule before 0 (w ++ rest) = w ++ replaceAfter rule after 0 rest := by
  refine replaceAfter_of_keeps (fun v hv hvw b => .inl ?_) before
  obtain ⟨c, v, he⟩ := List.exists_cons_of_ne_nil hv
  subst he
  have hc : c ∈ w := hvw.subset (by simp)
  exact hr.atSigns (signLength?_cons (fun h => hn (h ▸ hc)) fun h => hs (h ▸ hc))

theorem replaceAfter_atom {w u : List Char} (hw : AtomText w) (hu : EndsAtom u)
    (before : Option Char) :
    ∃ after, replaceAfter rule before 0 (w ++ u) = w ++ replaceAfter rule after 0 u := by
  refine replaceAfter_of_keeps (fun v hne hv b => ?_) before
  have hsettled := settled_outline hw.outline hu hne hv
  by_cases hfront : ∃ rest, v ++ u = ['n', 'o', 't'] ++ rest
  · obtain ⟨rest, he⟩ := hfront
    rw [he] at hsettled ⊢
    exact hr.atWords hsettled b
  · exact .inl
      (hr.atSigns (signLength?_eq_none (fun rest he => hfront ⟨rest, he⟩) hsettled.front))

end

/-! ## Bare literals -/

/-- No word goes on behind this character. -/
def Apart (before : Option Char) : Prop := before.any Text.isWord = false

theorem apart_blank : Apart (some ' ') := by unfold Apart; decide

theorem apart_parenthesis : Apart (some '(') := by unfold Apart; decide

theorem endsAtom_of_line {opened : List Char → Prop} {u v : List Char}
    (h : Line opened false u v) : EndsAtom u := by
  cases h with
  | done => simp [EndsAtom]
  | closing _ => simp [EndsAtom]
  | comma _ => simp [EndsAtom]

theorem front_of_atomText {w : List Char} (h : AtomText w) (rest : List Char) :
    Stops Text.isBlank (w ++ rest) ∧ (w ++ rest).head? ≠ some '(' := by
  obtain ⟨c, v, he, hc⟩ := h.front
  subst he
  refine ⟨stops_cons.mpr (Text.isBlank_of_isNameChar (isNameChar_of_isLower c hc)),
    fun hopen => ?_⟩
  rw [List.cons_append, List.head?_cons, Option.some.injEq] at hopen
  subst hopen
  cases hc

theorem bareSign_apart {sign blanks : List Char} (h : IsBareSign sign blanks) (rest : List Char)
    (hs : sign = ['n', 'o', 't']) : (blanks ++ rest).head?.any Text.isWord = false := by
  obtain ⟨c, bs, he⟩ := List.exists_cons_of_ne_nil (h.blanks_ne hs)
  rw [he]
  exact isWord_of_isBlank (h.1 c (by simp [he]))

/-! ## Opening -/

section
variable {sign blanks w u : List Char} {before : Option Char} (hb : IsBareSign sign blanks)
  (hw : AtomText w)
  (hu : EndsAtom u) (hbefore : Apart before)
include hb hw hu hbefore

/-- No parenthesis follows the sign of a bare literal, which the first pass leaves alone. -/
theorem replaceAfter_opening_bare :
    ∃ after, replaceAfter openingRule before 0 (sign ++ blanks ++ (w ++ u)) =
      sign ++ blanks ++ (w ++ replaceAfter openingRule after 0 u) := by
  obtain ⟨hstops, hparen⟩ := front_of_atomText hw u
  have hrule :=
    openingRule_sign hb.1 hstops (signLength?_sign hb.negation hbefore (blanks ++ (w ++ u)))
  rw [if_neg hparen] at hrule
  obtain ⟨c, s, he, hn, hs⟩ : ∃ c s, sign = c :: s ∧ 'n' ∉ s ∧ '\\' ∉ s := by
    rcases hb.negation with he | he
    all_goals subst he; exact ⟨_, _, rfl, by decide, by decide⟩
  have hnblank : 'n' ∉ blanks := fun hc => by cases hb.1 _ hc
  have hsblank : '\\' ∉ blanks := fun hc => by cases hb.1 _ hc
  obtain ⟨b, hpass⟩ :=
    replaceAfter_signless tame_openingRule (w := s ++ blanks) (by simp [hn, hnblank])
    (by simp [hs, hsblank]) (some c) (w ++ u)
  obtain ⟨after, ha⟩ := replaceAfter_atom tame_openingRule hw hu b
  refine ⟨after, ?_⟩
  rw [List.append_assoc] at hpass
  rw [he, List.cons_append] at hrule
  rw [he, List.append_assoc, List.cons_append, replaceAfter_of_none hrule, hpass, ha]
  simp

end

/-- The first pass leaves a line in which negated groups begin alike. -/
theorem line_opened {due : Bool} {u v : List Char} (h : Line IsOpening due u v) :
    ∃ u', Line (· = ['n', 'o', 't']) due u' v ∧
      ∀ before, (due = true → Apart before) → replaceAfter openingRule before 0 u = u' := by
  induction h with
  | done => exact ⟨[], .done, fun _ _ => rfl⟩
  | @atom w u v hw hl ih =>
    obtain ⟨u', hline, heq⟩ := ih
    refine ⟨w ++ u', .atom hw hline, fun before _ => ?_⟩
    obtain ⟨after, ha⟩ := replaceAfter_atom tame_openingRule hw (endsAtom_of_line hl) before
    rw [ha, heq after (by simp)]
  | @bare sign blanks w u v hb hw hl ih =>
    obtain ⟨u', hline, heq⟩ := ih
    refine ⟨sign ++ blanks ++ (w ++ u'), .bare hb hw hline, fun before hbefore => ?_⟩
    obtain ⟨after, ha⟩ := replaceAfter_opening_bare hb hw (endsAtom_of_line hl) (hbefore rfl)
    rw [ha, heq after (by simp)]
  | @opening w u v hw hl ih =>
    obtain ⟨u', hline, heq⟩ := ih
    obtain ⟨sign, blanks, hsign, hblank, he⟩ := hw
    refine ⟨['n', 'o', 't'] ++ '(' :: u', .opening rfl hline, fun before hbefore => ?_⟩
    have hrule := openingRule_sign hblank (stops_cons.mpr rfl)
      (signLength?_sign hsign (hbefore rfl) (blanks ++ '(' :: u))
    have hdrop : (sign ++ (blanks ++ '(' :: u)).drop ((sign ++ blanks).length + 1) = u := by
      rw [← List.append_assoc, ← List.drop_drop, List.drop_left]
      rfl
    rw [List.head?_cons, if_pos rfl] at hrule
    rw [he, List.append_assoc, replaceAfter_of_match hrule (by omega) (by simp), hdrop,
      heq none fun _ => rfl]
    rfl
  | closing hl ih =>
    obtain ⟨u', hline, heq⟩ := ih
    refine ⟨')' :: u', .closing hline, fun before _ => ?_⟩
    rw [replaceAfter_cons tame_openingRule (by decide) (by decide), heq _ (by simp)]
  | comma hl ih =>
    obtain ⟨u', hline, heq⟩ := ih
    refine ⟨',' :: ' ' :: u', .comma hline, fun before _ => ?_⟩
    rw [replaceAfter_cons tame_openingRule (by decide) (by decide),
      replaceAfter_cons tame_openingRule (by decide) (by decide), heq _ fun _ => apart_blank]

/-! ## Wrapping -/

section
variable {c : Char} (depth : Nat) (cs : List Char)

theorem literalExtent_cons : literalExtent depth (c :: cs) =
    if c = '(' ∨ c = '[' then c :: literalExtent (depth + 1) cs
    else if c = ')' ∨ c = ']' then
      match depth with
      | 0 => []
      | outer + 1 => c :: literalExtent outer cs
    else if c = ',' ∧ depth = 0 then []
    else c :: literalExtent depth cs := literalExtent.eq_def depth (c :: cs)

theorem literalExtent_opening (hc : c ∈ ['(', '[']) :
    literalExtent depth (c :: cs) = c :: literalExtent (depth + 1) cs := by
  rw [literalExtent_cons, if_pos (by simpa using hc)]

theorem literalExtent_closing (hc : c ∈ [')', ']']) :
    literalExtent (depth + 1) (c :: cs) = c :: literalExtent depth cs := by
  have hopen : ¬ (c = '(' ∨ c = '[') := by
    simp only [List.mem_cons, List.not_mem_nil, or_false] at hc
    rcases hc with hc | hc
    all_goals subst hc; decide
  rw [literalExtent_cons, if_neg hopen, if_pos (by simpa using hc)]

theorem literalExtent_other (hc : c ∉ ['(', '[', ')', ']']) (hcomma : c = ',' → depth ≠ 0) :
    literalExtent depth (c :: cs) = c :: literalExtent depth cs := by
  simp only [List.mem_cons, List.not_mem_nil, or_false, not_or] at hc
  rw [literalExtent_cons, if_neg (by simp [hc]), if_neg (by simp [hc]),
    if_neg fun h => hcomma h.1 h.2]

end

/-- Brackets match in an atom, so that a literal that begins with one ends with it. -/
theorem literalExtent_outline {depth : Nat} {w u : List Char} (h : Outline IsWord depth w)
    (hu : EndsAtom u) :
    literalExtent depth (w ++ u) = w := by
  induction h with
  | done =>
    cases u with
    | nil => rfl
    | cons c u =>
      have hc := hu c rfl
      simp only [List.mem_cons, List.not_mem_nil, or_false] at hc
      rcases hc with hc | hc
      all_goals subst hc; rfl
  | @word w rest depth hw _ _ ih =>
    have hplain : ∀ c ∈ ['(', '[', ')', ']', ','], isNameChar c = false ∧
        c ∉ ['-', '.'] := by decide
    have hpass : ∀ v, (∀ c ∈ v, c ∈ w) →
        literalExtent depth (v ++ (rest ++ u)) = v ++ rest := by
      intro v hv
      induction v with
      | nil => exact ih
      | cons c v ihv =>
        have hc : c ∉ ['(', '[', ')', ']', ','] :=
          fun hmem => hw.not_mem (hplain c hmem) (hv c (by simp))
        rw [List.cons_append, literalExtent_other depth _ (by grind) (by grind),
          ihv fun d hd => hv d (by simp [hd])]
        rfl
    rw [List.append_assoc]
    exact hpass w fun _ hc => hc
  | opening hc _ ih => rw [List.cons_append, literalExtent_opening _ _ hc, ih]
  | closing hc _ ih => rw [List.cons_append, literalExtent_closing _ _ hc, ih]
  | comma _ ih =>
    rw [List.cons_append, List.cons_append, literalExtent_other _ _ (by decide) (by simp),
      literalExtent_other _ _ (by decide) (by simp), ih]
  | equals _ ih => rw [List.cons_append, literalExtent_other _ _ (by decide) (by simp), ih]

section
variable {sign blanks w u : List Char} {before : Option Char} (hb : IsBareSign sign blanks)
  (hw : AtomText w)
  (hu : EndsAtom u) (hbefore : Apart before)
include hb hw hu hbefore

/-- The second pass wraps the atom of a bare literal, and nothing else. -/
theorem replaceAfter_wrapping_bare :
    replaceAfter wrappingRule before 0 (sign ++ blanks ++ (w ++ u)) =
      ['n', 'o', 't', '('] ++ w ++ ')' :: replaceAfter wrappingRule none 0 u := by
  obtain ⟨hstops, hparen⟩ := front_of_atomText hw u
  have hextent := literalExtent_outline hw.outline hu
  have hrule := wrappingRule_sign hb.1 hstops
    (loneSignLength?_sign hb.negation hbefore (bareSign_apart hb (w ++ u)))
  rw [hextent, hw.trimEnd_eq,
    if_neg fun h => h.elim hparen fun hall => by simp [hw.not_all_blank] at hall] at hrule
  have hdrop : (sign ++ (blanks ++ (w ++ u))).drop ((sign ++ blanks).length + w.length) = u := by
    rw [← List.append_assoc, ← List.append_assoc, ← List.length_append, List.drop_left]
  obtain ⟨c, t, he, -⟩ := hw.front
  have hpos : 0 < (sign ++ blanks).length + w.length :=
    Nat.lt_of_lt_of_le (List.length_pos_iff.mpr (by simp [he])) (Nat.le_add_left _ _)
  rw [List.append_assoc, replaceAfter_of_match hrule hpos (by simp [he]), hdrop]
  simp [opening]

end

/-- The second pass leaves the canonical text of the line. -/
theorem line_wrapped {due : Bool} {u v : List Char} (h : Line (· = ['n', 'o', 't']) due u v) :
    ∀ before, (due = true → Apart before) → replaceAfter wrappingRule before 0 u = v := by
  induction h with
  | done => exact fun _ _ => rfl
  | @atom w u v hw hl ih =>
    intro before _
    obtain ⟨after, ha⟩ := replaceAfter_atom tame_wrappingRule hw (endsAtom_of_line hl) before
    rw [ha, ih after (by simp)]
  | @bare sign blanks w u v hb hw hl ih =>
    intro before hbefore
    rw [replaceAfter_wrapping_bare hb hw (endsAtom_of_line hl) (hbefore rfl), ih none (by simp)]
  | @opening w u v hw hl ih =>
    intro before hbefore
    subst hw
    have hapart : ([] ++ '(' :: u).head?.any Text.isWord = false := apart_parenthesis
    have hlone := loneSignLength?_sign (.inl rfl) (hbefore rfl) fun _ => hapart
    have hrule := wrappingRule_sign allBlank_nil (stops_cons.mpr rfl) hlone
    rw [if_pos (.inl rfl), List.nil_append] at hrule
    rw [replaceAfter_of_match hrule (by decide) (by simp)]
    show ['n', 'o', 't'] ++ replaceAfter wrappingRule none 0 ('(' :: u) = _
    rw [replaceAfter_cons tame_wrappingRule (by decide) (by decide),
      ih _ fun _ => apart_parenthesis]
    rfl
  | closing _ ih =>
    intro before _
    rw [replaceAfter_cons tame_wrappingRule (by decide) (by decide), ih _ (by simp)]
  | comma _ ih =>
    intro before _
    rw [replaceAfter_cons tame_wrappingRule (by decide) (by decide),
      replaceAfter_cons tame_wrappingRule (by decide) (by decide), ih _ fun _ => apart_blank]

end Sentence

end Clausal
