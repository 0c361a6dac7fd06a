import Clausal.Proofs.Rows

/-!
# What the passes leave behind

Behind both passes every negated group is written in one way, so that the first pass
changes nothing any more. A bare negation may be left, since the second pass does not
look into the literals it wraps. What it leaves as it is holds no bare negation.
-/

namespace Clausal

namespace Sentence

/-! ## Places in a text -/

/-- It begins at no place of the text, told what stands before. -/
def Nowhere (begins : Option Char → List Char → Prop) : Option Char → List Char → Prop
  | _, [] => True
  | before, c :: cs => ¬ begins before (c :: cs) ∧ Nowhere begins (some c) cs

theorem getLast?_cons_or (c : Char) (u : List Char) (before : Option Char) :
    (c :: u).getLast?.or before = u.getLast?.or (some c) := by
  rw [List.getLast?_cons]
  cases u.getLast? <;> rfl

section
variable {begins : Option Char → List Char → Prop}
  {before after : Option Char} {u v w : List Char}

theorem Nowhere.front (h : Nowhere begins before u) (hne : u ≠ []) : ¬ begins before u := by
  obtain ⟨c, cs, rfl⟩ := List.exists_cons_of_ne_nil hne
  exact h.1

theorem Nowhere.behind (h : Nowhere begins before (u ++ v)) :
    Nowhere begins (u.getLast?.or before) v := by
  induction u generalizing before with
  | nil => exact h
  | cons c u ih =>
    rw [getLast?_cons_or]
    exact ih h.2

theorem Nowhere.congr (h : Nowhere begins before u) (hu : begins after u → begins before u) :
    Nowhere begins after u := by
  cases u with
  | nil => trivial
  | cons c u => exact ⟨fun hb => h.1 (hu hb), h.2⟩

/-- An end is exchanged for another that nothing new begins in front of. -/
theorem Nowhere.replace (h : Nowhere begins before (u ++ v))
    (hu : ∀ {b t}, t ≠ [] → t <:+ u → begins b (t ++ w) → begins b (t ++ v))
    (hw : Nowhere begins (u.getLast?.or before) w) : Nowhere begins before (u ++ w) := by
  induction u generalizing before with
  | nil => exact hw
  | cons c u ih =>
    rw [getLast?_cons_or] at hw
    have hlater := ih h.2 (fun ht hs => hu ht (hs.trans (List.suffix_cons c u))) hw
    exact ⟨fun hb => h.1 (hu (List.cons_ne_nil c u) (List.suffix_refl _) hb), hlater⟩

theorem Nowhere.signless (hb : ∀ {b c cs}, begins b (c :: cs) → c ∈ ['n', '\\'])
    (hu : ∀ c ∈ u, c ∉ ['n', '\\']) (hv : Nowhere begins (u.getLast?.or before) v) :
    Nowhere begins before (u ++ v) := by
  induction u generalizing before with
  | nil => exact hv
  | cons c u ih =>
    rw [getLast?_cons_or] at hv
    exact ⟨fun h => hu c (by simp) (hb h), ih (fun d hd => hu d (by simp [hd])) hv⟩

end

/-! ## Negated groups -/

/-- A negated group that is not written as the first pass does it. -/
def LooseGroup (before : Option Char) (cs : List Char) : Prop :=
  ∃ sign blanks rest, IsSignAt before sign ∧ AllBlank blanks ∧
  cs = sign ++ (blanks ++ '(' :: rest) ∧ sign ++ blanks ≠ ['n', 'o', 't']

/-- Behind its first character the front of a negated group has no others than these. -/
def InGroup (c : Char) : Prop := Text.isBlank c = true ∨ c ∈ ['o', 't', '+', '(']

theorem InGroup.signless {c : Char} (h : InGroup c) : c ∉ ['n', '\\'] := by
  have hsign : ∀ c ∈ ['n', '\\'], Text.isBlank c = false ∧
      c ∉ ['o', 't', '+', '('] := by decide
  intro hc
  obtain ⟨hsolid, hother⟩ := hsign c hc
  rcases h with h | h
  · rw [hsolid] at h
    cases h
  · exact hother h

section
variable {before after : Option Char} {cs w x y : List Char}

theorem LooseGroup.front {c : Char} (h : LooseGroup before (c :: cs)) : c ∈ ['n', '\\'] := by
  obtain ⟨sign, blanks, rest, hs, -, he, -⟩ := h
  exact hs.negation.front he.symm

theorem LooseGroup.congr (h : LooseGroup before cs)
    (hb : cs.head? = some 'n' → Apart before → Apart after) :
    LooseGroup after cs := by
  obtain ⟨sign, blanks, rest, hs, hblanks, rfl, hne⟩ := h
  refine ⟨sign, blanks, rest, ⟨hs.negation, fun he => hb ?_ (hs.left he)⟩,
    hblanks, rfl, hne⟩
  rw [he]
  rfl

/-- A group begins as well in front of another end that has what the group has of this one. -/
theorem LooseGroup.replace (h : LooseGroup before (w ++ x)) (hw : w ≠ [])
    (hx : ∀ {u v}, (∀ c ∈ u, InGroup c) → x = u ++ v → ∃ v', y = u ++ v') :
    LooseGroup before (w ++ y) := by
  obtain ⟨sign, blanks, rest, hs, hblanks, he, hne⟩ := h
  obtain ⟨d, s, hsign, -, hlater⟩ := hs.negation.exists_cons
  have hgroup (tail : List Char) : sign ++ (blanks ++ '(' :: tail) =
      d :: (s ++ blanks ++ ['(']) ++ tail := by simp [hsign]
  have hin : ∀ c ∈ s ++ blanks ++ ['('], InGroup c := by
    simp only [List.mem_append, List.mem_singleton]
    rintro c ((hc | hc) | rfl)
    · have := hlater c hc
      exact .inr (by grind)
    · exact .inl (hblanks c hc)
    · exact .inr (by simp)
  obtain ⟨c, w, rfl⟩ := List.exists_cons_of_ne_nil hw
  rw [hgroup, List.cons_append, List.cons_append, List.cons.injEq] at he
  obtain ⟨rfl, he⟩ := he
  rcases List.append_eq_append_iff.mp he with ⟨t, ht, hend⟩ | ⟨t, ht, hend⟩
  · obtain ⟨v, rfl⟩ := hx (fun c hc => hin c (by rw [ht]; simp [hc])) hend
    exact ⟨sign, blanks, v, hs, hblanks, by rw [hgroup, ht]; simp, hne⟩
  · exact ⟨sign, blanks, t ++ y, hs, hblanks, by rw [hgroup, ht]; simp, hne⟩

theorem LooseGroup.append (h : LooseGroup before cs) (x : List Char) :
    LooseGroup before (cs ++ x) := by
  obtain ⟨sign, blanks, rest, hs, hblanks, rfl, hne⟩ := h
  exact ⟨sign, blanks, rest ++ x, hs, hblanks, by simp, hne⟩

/-- No group goes on over these marks. -/
theorem LooseGroup.of_mark {m : Char} {v : List Char} (h : LooseGroup before (w ++ m :: v))
    (hw : w ≠ []) (hm : m ∈ [')', ',', '.']) : LooseGroup before w := by
  have hend : LooseGroup before (w ++ []) := h.replace hw fun {u _} hu he => by
    cases u with
    | nil => exact ⟨[], rfl⟩
    | cons c u =>
      have hmark : ∀ c ∈ [')', ',', '.'], Text.isBlank c = false ∧
          c ∉ ['o', 't', '+', '('] := by decide
      obtain ⟨hsolid, hother⟩ := hmark m hm
      rw [List.cons_append, List.cons.injEq] at he
      rcases he.1 ▸ hu c (by simp) with hc | hc
      · rw [hsolid] at hc
        cases hc
      · exact absurd hc hother
  rwa [List.append_nil] at hend

theorem nowhere_of_isPrefix (hw : w <+: cs) (h : Nowhere LooseGroup before cs) :
    Nowhere LooseGroup before w := by
  obtain ⟨t, rfl⟩ := hw
  have hend := h.replace (w := []) (fun _ _ hloose => by simpa using hloose.append t) trivial
  rwa [List.append_nil] at hend

theorem nowhere_append_mark {m : Char} (h : Nowhere LooseGroup before w)
    (hm : m ∈ [')', ',', '.']) (hcs : Nowhere LooseGroup (some m) cs) :
    Nowhere LooseGroup before (w ++ m :: cs) := by
  have hmark : ∀ m ∈ [')', ',', '.'], m ∉ ['n', '\\'] := by decide
  rw [← List.append_nil w] at h
  refine h.replace (fun ht _ hloose => ?_) ⟨fun hloose => hmark m hm hloose.front, hcs⟩
  rw [List.append_nil]
  exact hloose.of_mark ht hm

end

theorem nowhere_opening {before : Option Char} {cs : List Char}
    (h : Nowhere LooseGroup (some '(') cs) :
    Nowhere LooseGroup before (opening ++ cs) := by
  refine ⟨?_, Nowhere.signless LooseGroup.front (u := ['o', 't', '(']) (by decide) h⟩
  rintro ⟨sign, blanks, rest, hs, hb, he, hne⟩
  have hopening : opening ++ cs = ['n', 'o', 't'] ++ '(' :: cs := rfl
  obtain ⟨rfl, hrest⟩ := hs.negation.eq_of_append (.inl rfl) (he.symm.trans hopening)
  cases blanks with
  | nil => exact hne rfl
  | cons b blanks =>
    rw [List.cons_append, List.cons.injEq] at hrest
    cases hrest.1 ▸ hb b (by simp)

section
variable {before : Option Char} {cs out : List Char}

theorem Opens.exists_append (h : Opens before cs out) {u v : List Char}
    (hu : ∀ c ∈ u, InGroup c) (he : out = u ++ v) :
    ∃ v', cs = u ++ v' := by
  induction u generalizing before cs out with
  | nil => exact ⟨cs, rfl⟩
  | cons c u ih =>
    cases h with
    | nil => cases he
    | other _ h =>
      rw [List.cons_append, List.cons.injEq] at he
      obtain ⟨v', hv⟩ := ih h (fun d hd => hu d (by simp [hd])) he.2
      exact ⟨v', by rw [he.1, hv]; rfl⟩
    | group _ _ _ => exact absurd (by simp [← (List.cons.inj he).1]) (hu c (by simp)).signless

/-- The first pass leaves no loose group. -/
theorem Opens.nowhere (h : Opens before cs out) : Nowhere LooseGroup before out := by
  induction h with
  | nil => trivial
  | @other before c cs out hrule hopens ih =>
    refine ⟨fun hloose => ?_, ih⟩
    obtain ⟨sign, blanks, rest, hs, hb, he, -⟩ :=
      LooseGroup.replace (w := [c]) hloose (by simp) hopens.exists_append
    have hopening := openingRule_group hs hb rest
    rw [← he] at hopening
    cases hrule.symm.trans hopening
  | group _ _ _ ih => exact nowhere_opening ih

theorem Opens.eq_of_nowhere (h : Opens before cs out) (hn : Nowhere LooseGroup before cs) :
    out = cs := by
  induction h with
  | nil => rfl
  | other _ _ ih => rw [ih hn.2]
  | @group before sign blanks cs out hs hb _ ih =>
    -- what the pass puts in is there already
    have hne : sign ++ (blanks ++ '(' :: cs) ≠ [] := by simp
    have hfirst : sign ++ blanks = ['n', 'o', 't'] :=
      Classical.byContradiction fun hne' => hn.front hne ⟨sign, blanks, cs, hs, hb, rfl, hne'⟩
    have hall : sign ++ (blanks ++ '(' :: cs) = ['n', 'o', 't', '('] ++ cs := by
      rw [← List.append_assoc, hfirst]
      rfl
    rw [hall] at hn ⊢
    rw [ih hn.behind]
    rfl

theorem Wraps.exists_append (h : Wraps before cs out) {u v : List Char}
    (hu : ∀ c ∈ u, InGroup c) (he : out = u ++ v) :
    ∃ v', cs = u ++ v' := by
  induction u generalizing before cs out with
  | nil => exact ⟨cs, rfl⟩
  | cons c u ih =>
    have hc := (hu c (by simp)).signless
    cases h with
    | nil => cases he
    | other _ h =>
      rw [List.cons_append, List.cons.injEq] at he
      obtain ⟨v', hv⟩ := ih h (fun d hd => hu d (by simp [hd])) he.2
      exact ⟨v', by rw [he.1, hv]; rfl⟩
    | kept hs _ _ _ => exact absurd (hs.negation.front he) hc
    | wrapped _ _ _ _ => exact absurd (by simp [← (List.cons.inj he).1]) hc

theorem Wraps.lacksLiteral (h : Wraps before cs out) (hcs : LacksLiteral cs) :
    LacksLiteral out := by
  have hsign : ∀ c ∈ ['n', '\\'], c ∉ ['(', ',', ')', ']'] := by decide
  have hfront {sign rest : List Char} (hs : IsNegationSign sign) :
      ¬ LacksLiteral (sign ++ rest) := by
    obtain ⟨d, s, rfl, hd, -⟩ := hs.exists_cons
    exact fun hlacks => hsign d hd (hlacks d rfl)
  cases h with
  | nil => exact hcs
  | other _ _ => exact fun c hc => hcs c hc
  | kept hs _ _ _ => exact absurd hcs (hfront hs.negation)
  | wrapped hs _ _ _ => exact absurd hcs (hfront hs.negation)

/-- Behind the sign of a bare literal no word goes on. -/
theorem IsLoneSign.apart {sign blanks literal rest : List Char}
    (hs : IsLoneSign before sign (blanks ++ (literal ++ rest))) (hb : AllBlank blanks)
    (hn : literal.head? = some 'n') : Apart ((sign ++ blanks).getLast?.or before) := by
  obtain ⟨w, rfl⟩ := List.head?_eq_some_iff.mp hn
  cases hlast : blanks.getLast? with
  | none =>
    have hnil := List.getLast?_eq_none_iff.mp hlast
    subst hnil
    rcases hs.negation with he | he
    · have hword : Text.isWord 'n' = true := by decide
      have hright : Text.isWord 'n' = false := hs.right he
      rw [hword] at hright
      cases hright
    · subst he
      show Text.isWord '+' = false
      decide
  | some b =>
    rw [List.getLast?_append, hlast]
    exact isWord_of_isBlank (hb b (List.mem_of_getLast? hlast))

theorem getLast?_or_of_ne_nil {u : List Char} (h : u ≠ []) (before : Option Char) :
    u.getLast?.or before = u.getLast? := by
  rw [List.getLast?_eq_some_getLast h]
  rfl

/-- The second pass puts in no loose group. -/
theorem Wraps.nowhere (h : Wraps before cs out) (hn : Nowhere LooseGroup before cs) :
    Nowhere LooseGroup before out := by
  have hreplace {b : Option Char} {u v : List Char} (h : Wraps b u v) {b' : Option Char}
      {t : List Char} (ht : t ≠ [])
      (hl : LooseGroup b' (t ++ v)) : LooseGroup b' (t ++ u) := hl.replace ht h.exists_append
  induction h with
  | nil => trivial
  | @other _ c _ _ _ h ih =>
    exact Nowhere.replace (u := [c]) hn (fun ht _ => hreplace h ht) (ih hn.2)
  | @kept before sign blanks cs out hs hb hl h ih =>
    -- a group that begins with the sign kept did so before
    have hlast := getLast?_or_of_ne_nil (hs.negation.append_ne_nil blanks) before
    rw [← List.append_assoc] at hn ⊢
    refine hn.replace (fun ht _ => hreplace h ht) ?_
    rw [hlast]
    exact ih (hlast ▸ hn.behind)
  | @wrapped before sign blanks literal cs out hs hb hl h ih =>
    -- the literal stands behind a parenthesis now, and in front of one
    obtain ⟨c, w, he, -⟩ := hl.front
    rw [← List.append_assoc] at hn
    have hliteral : Nowhere LooseGroup (some '(') (literal ++ cs) := by
      refine hn.behind.congr fun hloose => hloose.congr fun hhead _ => hs.apart hb ?_
      rwa [he] at hhead ⊢
    have hinner := nowhere_of_isPrefix
      ((Text.trimEnd_isPrefix literal).trans (List.prefix_append literal cs)) hliteral
    have hcs := hliteral.behind
    rw [getLast?_or_of_ne_nil (by simp [he])] at hcs
    refine nowhere_opening (nowhere_append_mark hinner (by simp)
      ((ih hcs).congr fun hloose => hloose.congr fun hhead => ?_))
    exact absurd (Wraps.lacksLiteral h hl.behind 'n' hhead) (by decide)

/-! ## Bare negations -/

/-- A negation sign with a literal behind it. -/
def BareNegation (before : Option Char) (cs : List Char) : Prop := ∃ sign blanks literal,
  IsLoneSign before sign (blanks ++ literal) ∧ AllBlank blanks ∧
  cs = sign ++ (blanks ++ literal) ∧
  Stops Text.isBlank literal ∧ ¬ LacksLiteral literal

theorem BareNegation.front {c : Char} (h : BareNegation before (c :: cs)) : c ∈ ['n', '\\'] := by
  obtain ⟨sign, blanks, literal, hs, -, he, -⟩ := h
  exact hs.negation.front he.symm

theorem Wraps.eq_of_nowhere (h : Wraps before cs out) (hn : Nowhere BareNegation before cs) :
    out = cs := by
  induction h with
  | nil => rfl
  | other _ _ ih => rw [ih hn.2]
  | @kept before sign blanks cs out hs hb hl h ih =>
    rw [← List.append_assoc] at hn ⊢
    have hcs := hn.behind
    rw [getLast?_or_of_ne_nil (hs.negation.append_ne_nil blanks)] at hcs
    rw [ih hcs, List.append_assoc]
  | @wrapped before sign blanks literal cs out hs hb hl h ih =>
    obtain ⟨c, w, he, hsolid, hc⟩ := hl.front
    refine absurd ⟨sign, blanks, literal ++ cs, hs, hb, rfl, ?_, fun hlacks => ?_⟩
      (hn.front (hs.negation.append_ne_nil _))
    · rw [he]
      exact stops_cons.mpr hsolid
    · exact hc (hlacks c (by rw [he]; rfl))

theorem nowhere_kept {sign blanks rest : List Char} (hs : IsLoneSign before sign (blanks ++ rest))
    (hb : AllBlank blanks) (hl : LacksLiteral rest)
    (hn : Nowhere BareNegation (sign ++ blanks).getLast? rest) :
    Nowhere BareNegation before (sign ++ (blanks ++ rest)) := by
  obtain ⟨c, s, he, -, hlater⟩ := hs.negation.exists_cons
  have hsignless : ∀ c ∈ s ++ blanks, c ∉ ['n', '\\'] := by
    refine List.forall_mem_append.mpr
      ⟨fun c hc => ?_, fun c hc => (show InGroup c from .inl (hb c hc)).signless⟩
    have := hlater c hc
    grind
  have hlast : (s ++ blanks).getLast?.or (some c) = (sign ++ blanks).getLast? := by
    rw [← getLast?_cons_or c (s ++ blanks) none, Option.or_none, he]
    rfl
  have hrest : Nowhere BareNegation (some c) (s ++ blanks ++ rest) :=
    Nowhere.signless BareNegation.front hsignless (hlast ▸ hn)
  have hall : sign ++ (blanks ++ rest) = c :: (s ++ blanks ++ rest) := by simp [he]
  rw [hall]
  refine ⟨?_, hrest⟩
  rintro ⟨sign', blanks', literal, hs', hb', he', hstops, hliteral⟩
  obtain ⟨-, htail⟩ := hs.negation.eq_of_append hs'.negation (hall.trans he')
  have hdrop := (takeWhile_of_stops hb hl.stops).2
  rw [htail, (takeWhile_of_stops hb' hstops).2] at hdrop
  exact hliteral (hdrop ▸ hl)

theorem count_blanks {blanks : List Char} (h : AllBlank blanks) : blanks.count '(' = 0 :=
  List.count_eq_zero.mpr fun hc => by cases h '(' hc

theorem count_periods {periods : List Char} (h : ∀ c ∈ periods, c = '.') :
    periods.count '(' = 0 :=
  List.count_eq_zero.mpr fun hc => by cases h '(' hc

/-- Where the second pass changes something, it adds parentheses. -/
theorem Wraps.eq_or_more (h : Wraps before cs out) :
    (out = cs ∧ Nowhere BareNegation before cs) ∨ cs.count '(' < out.count '(' := by
  induction h with
  | nil => exact .inl ⟨rfl, trivial⟩
  | @other before c cs out hlone _ ih =>
    rcases ih with ⟨he, hn⟩ | hlt
    · refine .inl ⟨by rw [he], ?_, hn⟩
      rintro ⟨sign, blanks, literal, hs, -, he, -⟩
      have hsome := hs.loneSignLength?
      rw [← he, hlone] at hsome
      cases hsome
    · right
      rw [List.count_cons, List.count_cons]
      omega
  | @kept before sign blanks cs out hs hb hl _ ih =>
    rcases ih with ⟨he, hn⟩ | hlt
    · exact .inl ⟨by rw [he], nowhere_kept hs hb hl hn⟩
    · right
      simp only [List.count_append]
      omega
  | @wrapped before sign blanks literal cs out hs hb hl h ih =>
    right
    have hsign : sign.count '(' = 0 := by
      rcases hs.negation with he | he
      all_goals rw [he]; rfl
    obtain ⟨trail, htrail, he⟩ := exists_dropped Text.isBlank literal
    have hliteral : literal.count '(' = (Text.trimEnd literal).count '(' := by
      have hcount := congrArg (List.count '(') he
      rwa [List.count_append, count_blanks htrail] at hcount
    have hle : cs.count '(' ≤ out.count '(' := by
      rcases ih with ⟨he, -⟩ | hlt
      · exact Nat.le_of_eq (congrArg _ he.symm)
      · exact Nat.le_of_lt hlt
    have hopening : opening.count '(' = 1 := rfl
    have hclose : (')' :: out).count '(' = out.count '(' := rfl
    simp only [List.count_append, hsign, count_blanks hb, hliteral, hopening, hclose]
    omega

end

end Sentence

end Clausal
