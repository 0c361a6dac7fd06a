import Mathlib
import Clausal.Proofs.EntryPoints
import Clausal.Proofs.Group
import Clausal.Proofs.Normal
import Clausal.Proofs.Rejection

/-!
# Normal forms keep the meaning of renderings

Every rendering of a body is parsed as that body, and so is its normal form. A
negated group is tried as the left side of a comparison before it is read, and a
group of one literal as an atom; both attempts fail where the group ends.
-/

namespace Clausal

open Lexeme Reader Reader.Unbounded

variable {cs rest : List Char}

/-! ## Signs -/

section
variable {sign : List Char} (hs : IsNegationSign sign) (hj : Junk cs (sign ++ rest))
  (hr : sign = ['n', 'o', 't'] → Stops isNameChar rest)
include hs hj hr

theorem negationSign_of_sign : negationSign cs = .done () rest := by
  rcases hs with hs | hs
  · subst hs
    exact negationSign_eq_done.mpr (.inl ⟨skipJunk_of_junk rfl hj, hr rfl⟩)
  · subst hs
    exact negationSign_eq_done.mpr (.inr (skipJunk_of_junk rfl hj))

/-- What stands in front of a literal's sign is no atom if it is none in front of the word. -/
theorem atom_isStuck_of_sign
    (hn : lowerName cs = .done ['n', 'o', 't'] rest → (atom .backtrack cs).IsStuck) :
    (atom .backtrack cs).IsStuck := by
  rcases hs with hs | hs
  · subst hs
    exact hn (lowerName_of_junk hj rfl (hr rfl))
  · subst hs
    have hskip : skipJunk cs = '\\' :: '+' :: rest := skipJunk_of_junk rfl hj
    exact atom_isStuck hskip rfl (by decide)

end

/-! ## Literals and bodies -/

/-- The literals of a body, nested to the left, are read from its text, and then those behind it. An
atom read there instead ends before a comma, unless it is the whole body. -/
structure ReadsAs (b : Body) (w : List Char) : Prop where
  literals : ∀ {l ls}, b.literals = l :: ls → ∀ {xs rest rest'}, Ends rest →
    Repeats (do mark ','; literal (atom .backtrack) (body .backtrack)) xs rest rest' →
    ∀ {cs}, Junk cs (w ++ rest) →
      ∃ r, literal (atom .backtrack) (body .backtrack) cs = .done l.leftNested r ∧
        Repeats (do mark ','; literal (atom .backtrack) (body .backtrack))
        (ls.map Body.leftNested ++ xs) r rest'
  front : ∀ {rest}, Ends rest → (atom .backtrack (w ++ rest)).IsStuck ∨
    ∃ a r, atom .backtrack (w ++ rest) = .done a r ∧
    (b = .atom a ∧ r = rest ∨ Avoids [')'] r)

section
variable {b : Body} {w : List Char} (h : ReadsAs b w)
include h

theorem ReadsAs.body (hj : Junk cs (w ++ rest)) (hr : Ends rest) (hc : Avoids [','] rest) :
    Unbounded.body .backtrack cs = .done b.leftNested rest := by
  obtain ⟨l, ls, hl⟩ := b.exists_literals
  have hnil : Repeats (do mark ','; literal (Unbounded.atom .backtrack) (Unbounded.body .backtrack))
      [] rest rest :=
    .nil (bind_of_stuck (mark_isStuck_of_avoids hc (by simp)))
  obtain ⟨r, hfirst, hothers⟩ := h.literals hl hr hnil hj
  rw [List.append_nil] at hothers
  rw [body_apply, anyBody_eq_done (consumes_atom _) (consumes_body _)]
  exact ⟨_, _, r, hfirst, hothers, Body.leftNested_of_literals hl⟩

/-- In parentheses an atom is read as an atom, and any other body as a body. -/
theorem ReadsAs.group (hs : skipJunk cs = '(' :: (w ++ ')' :: rest)) :
    (∃ a, parenthesized (atom .backtrack) cs = .done a rest ∧ b = .atom a) ∨
    (parenthesized (atom .backtrack) cs).IsStuck ∧
      parenthesized (Unbounded.body .backtrack) cs = .done b.leftNested rest := by
  have hclose : skipJunk (')' :: rest) = ')' :: rest := skipJunk_solid rfl rest
  have hends : Ends (')' :: rest) := ends_cons (by simp) rest
  have hbody := h.body .none hends (avoids_of_skipJunk hclose (by decide))
  by_cases ha : ∃ a, b = .atom a
  · obtain ⟨a, ha⟩ := ha
    subst ha
    have hnil : Repeats (do mark ','; literal (atom .backtrack) (Unbounded.body .backtrack)) []
        (')' :: rest) (')' :: rest) :=
      .nil (bind_of_stuck (mark_isStuck_of_ne hclose (by decide)))
    obtain ⟨r, hfirst, hothers⟩ := h.literals rfl hends hnil .none
    cases hothers with
    | nil _ =>
      rcases literal_eq_done.mp hfirst with hneg | ⟨-, a', ha', he⟩
      · obtain ⟨u, q, -, ⟨c, -, he⟩ | ⟨-, ⟨c, -, he⟩ | ⟨-, c, -, he⟩⟩⟩ :=
          negation_eq_done.mp hneg
        all_goals cases he
      · cases he
        exact .inl ⟨a, parenthesized_eq_done.mpr ⟨_, _, hs, ha', hclose⟩, rfl⟩
  · refine .inr ⟨parenthesized_isStuck_of_inner hs ?_,
      parenthesized_eq_done.mpr ⟨_, _, hs, hbody, hclose⟩⟩
    rcases h.front hends with hstuck | ⟨a, r, hdone, ⟨he, -⟩ | havoid⟩
    · exact .inl hstuck
    · exact absurd ⟨a, he⟩ ha
    · exact .inr ⟨a, r, hdone, havoid⟩

end

/-! ## Renderings -/

/-- All blanks of the text are such as a parser skips. -/
def Skippable (w : List Char) : Prop := ∀ c ∈ w, Text.isBlank c = true → isGap c = true

theorem Skippable.append {u v : List Char} (h : Skippable (u ++ v)) : Skippable u ∧ Skippable v :=
  List.forall_mem_append.mp h

theorem Skippable.gaps {blanks : List Char} (h : Skippable blanks) (hb : AllBlank blanks) :
    ∀ c ∈ blanks, isGap c = true :=
  fun c hc => h c hc (hb c hc)

theorem IsSeparator.exists_gap {sep : List Char} (h : IsSeparator sep) :
    ∃ gap, sep = ',' :: gap ∧ AllBlank gap := by
  cases h with
  | blank => exact ⟨_, rfl, Sentence.allBlank_blank⟩
  | lineEnd hc hb => exact ⟨_, rfl, List.forall_mem_append.mpr ⟨hc.blank, hb⟩⟩

theorem stops_of_gaps {gap : List Char} (hg : ∀ c ∈ gap, isGap c = true)
    (hr : gap = [] → Stops isNameChar rest) :
    Stops isNameChar (gap ++ rest) := by
  cases gap with
  | nil => exact hr rfl
  | cons c gap => exact stops_cons.mpr (isNameChar_of_isGap (hg c (by simp)))

theorem readsAs_atom {a : Atom} (h : a.WellFormed) : ReadsAs (.atom a) a.chars where
  literals := by
    intro l ls hl xs rest rest' hends hrep cs hj
    cases hl
    exact ⟨rest, literal_of_atom h hj hends, hrep⟩
  front := fun hends =>
    .inr ⟨a, _, atom_of_text h .none (hends.stops rfl) (hends.avoids (by simp)), .inl ⟨rfl, rfl⟩⟩

theorem ReadsAs.conj {left right : Body} {u v gap : List Char} (hl : ReadsAs left u)
    (hr : ReadsAs right v) (hg : ∀ c ∈ gap, isGap c = true) :
    ReadsAs (.conj left right) (u ++ ',' :: gap ++ v) where
  literals := by
    intro l ls hls xs rest rest' hends hrep cs hj
    obtain ⟨k, ks, hk⟩ := left.exists_literals
    obtain ⟨m, ms, hm⟩ := right.exists_literals
    obtain ⟨r, hfirst, hothers⟩ := hr.literals hm hends hrep (junk_of_gaps hg (v ++ rest))
    have hcomma : Repeats (do mark ','; literal (atom .backtrack) (Unbounded.body .backtrack))
        (m.leftNested :: (ms.map Body.leftNested ++ xs)) (',' :: (gap ++ (v ++ rest))) rest' := by
      refine .cons ?_ hothers
      rw [bind_of_done (mark_of_skipJunk (skipJunk_solid rfl _))]
      exact hfirst
    have htext : Junk cs (u ++ ',' :: (gap ++ (v ++ rest))) := by simpa using hj
    have hleft := hl.literals hk (ends_cons (by simp) _) hcomma htext
    rw [Body.literals, hk, hm, List.cons_append, List.cons.injEq] at hls
    rw [← hls.1, ← hls.2]
    simpa using hleft
  front := by
    intro rest hends
    have hcomma : Ends (',' :: (gap ++ (v ++ rest))) := ends_cons (by simp) _
    have htext : u ++ ',' :: gap ++ v ++ rest = u ++ ',' :: (gap ++ (v ++ rest)) := by simp
    rw [htext]
    rcases hl.front hcomma with hstuck | ⟨a, r, hdone, ⟨-, he⟩ | havoid⟩
    · exact .inl hstuck
    · subst he
      exact .inr ⟨a, _, hdone, .inr (avoids_of_skipJunk (skipJunk_solid rfl _) (by decide))⟩
    · exact .inr ⟨a, r, hdone, .inr havoid⟩

theorem readsAs_literal {l : Body} {w : List Char} (hl : l.IsLiteral)
    (h : ∀ {cs rest}, Junk cs (w ++ rest) → Ends rest →
      literal (atom .backtrack) (Unbounded.body .backtrack) cs = .done l.leftNested rest)
    (hs : ∀ {rest}, Ends rest → (atom .backtrack (w ++ rest)).IsStuck) : ReadsAs l w where
  literals := by
    intro k ks hk xs rest rest' hends hrep cs hj
    rw [hl, List.cons.injEq] at hk
    rw [← hk.1, ← hk.2]
    exact ⟨rest, h hj hends, hrep⟩
  front := fun hends => .inl (hs hends)

section
variable {sign blanks : List Char}

theorem ReadsAs.neg {inner : Body} {u : List Char} (h : ReadsAs inner u) (hs : IsNegationSign sign)
    (hb : ∀ c ∈ blanks, isGap c = true) :
    ReadsAs (.neg inner) (sign ++ blanks ++ '(' :: u ++ [')']) := by
  have htext (rest : List Char) : sign ++ blanks ++ '(' :: u ++ [')'] ++ rest =
      sign ++ (blanks ++ '(' :: (u ++ ')' :: rest)) := by
    simp
  have hopen (rest : List Char) : skipJunk (blanks ++ '(' :: (u ++ ')' :: rest)) =
      '(' :: (u ++ ')' :: rest) :=
    skipJunk_of_junk rfl (junk_of_gaps hb _)
  have hstop (rest : List Char) : Stops isNameChar (blanks ++ '(' :: (u ++ ')' :: rest)) :=
    stops_of_gaps hb fun _ => stops_cons.mpr rfl
  have hgroup (rest : List Char) :
      (∃ a, parenthesized (atom .backtrack) (blanks ++ '(' :: (u ++ ')' :: rest)) = .done a rest) ∨
      ∃ b, parenthesized (Unbounded.body .backtrack) (blanks ++ '(' :: (u ++ ')' :: rest)) =
        .done b rest := by
    rcases h.group (hopen rest) with ⟨a, ha, -⟩ | ⟨-, hbody⟩
    · exact .inl ⟨a, ha⟩
    · exact .inr ⟨_, hbody⟩
  refine readsAs_literal rfl (fun {cs rest} hj hends => ?_) fun {rest} hends => ?_
  · rw [htext] at hj
    refine literal_eq_done.mpr (.inl (negation_eq_done.mpr
      ⟨(), _, negationSign_of_sign hs hj fun _ => hstop rest,
        .inr ⟨atom_isStuck_of_group (hgroup rest) hends.closes, ?_⟩⟩))
    rcases h.group (hopen rest) with ⟨a, ha, he⟩ | ⟨hstuck, hbody⟩
    · subst he
      exact .inl ⟨a, ha, rfl⟩
    · exact .inr ⟨hstuck, _, hbody, rfl⟩
  · rw [htext]
    exact atom_isStuck_of_sign hs .none (fun _ => hstop rest) fun hn =>
      atom_isStuck_of_negated_group (hgroup rest) hends.closes hn

theorem readsAs_bare {a : Atom} (h : a.WellFormed) (hs : IsBareSign sign blanks)
    (hb : ∀ c ∈ blanks, isGap c = true) :
    ReadsAs (.neg (.atom a)) (sign ++ blanks ++ a.chars) := by
  have htext (rest : List Char) : sign ++ blanks ++ a.chars ++ rest =
      sign ++ (blanks ++ (a.chars ++ rest)) := by simp
  have hstop (rest : List Char) (he : sign = ['n', 'o', 't']) :
      Stops isNameChar (blanks ++ (a.chars ++ rest)) :=
    stops_of_gaps hb fun hnil => absurd hnil (hs.blanks_ne he)
  refine readsAs_literal rfl (fun {cs rest} hj hends => ?_) fun {rest} hends => ?_
  · rw [htext] at hj
    have hatom : atom .backtrack (blanks ++ (a.chars ++ rest)) = .done a rest :=
      atom_of_text h (junk_of_gaps hb _) (hends.stops rfl) (hends.avoids (by simp))
    exact literal_eq_done.mpr (.inl (negation_eq_done.mpr
      ⟨(), _, negationSign_of_sign hs.negation hj (hstop rest), .inl ⟨a, hatom, rfl⟩⟩))
  · rw [htext]
    obtain ⟨c, v, he, hc⟩ := h.exists_front
    have hfront : skipJunk (blanks ++ (a.chars ++ rest)) = c :: (v ++ rest) := by
      rw [he]
      exact skipJunk_of_junk (isSolid_of_lead (lead?_of_isLower hc)) (junk_of_gaps hb _)
    have hmark {d : Char} (hd : d.isLower = false) : c ≠ d := by
      intro he
      rw [he, hd] at hc
      cases hc
    refine atom_isStuck_of_sign hs.negation .none (hstop rest) fun hn =>
      atom_isStuck_of_not hn ?_ ?_
    · refine parenthesized_isStuck fun r hr => ?_
      rw [hfront, List.cons.injEq] at hr
      exact hmark rfl hr.1
    · exact avoids_of_skipJunk hfront
        (by simp [hmark (d := '=') rfl, hmark (d := '<') rfl, hmark (d := '>') rfl])

end

/-- **Renderings are read** as the bodies they render. -/
theorem Renders.readsAs {b : Body} {w : List Char} (h : Renders b w) (hb : b.WellFormed)
    (hs : Skippable w) :
    ReadsAs b w := by
  induction h with
  | atom =>
    cases hb with
    | atom ha => exact readsAs_atom ha
  | conj _ hsep _ ihl ihr =>
    cases hb with
    | conj hbl hbr =>
      obtain ⟨gap, he, hgap⟩ := hsep.exists_gap
      subst he
      obtain ⟨hfront, hv⟩ := hs.append
      obtain ⟨hu, hcomma⟩ := hfront.append
      have hskip : Skippable gap := fun c hc => hcomma c (by simp [hc])
      exact (ihl hbl hu).conj (ihr hbr hv) (hskip.gaps hgap)
  | @neg inner u sign blanks hsign hblank _ ih =>
    cases hb with
    | neg hi =>
      have hu : Skippable u := fun c hc => hs c (by simp [hc])
      have hskip : Skippable blanks := fun c hc => hs c (by simp [hc])
      exact (ih hi hu).neg hsign (hskip.gaps hblank)
  | bare hbare =>
    cases hb with
    | neg hi =>
      cases hi with
      | atom ha => exact readsAs_bare ha hbare (hs.append.1.append.2.gaps hbare.1)

theorem NormalText.readsAs {b : Body} {n : List Char} {multiline : Bool}
    (h : NormalText (Sentence.separator multiline) b n) (hb : b.WellFormed) : ReadsAs b n := by
  have hseparator : ∃ gap, Sentence.separator multiline = ',' :: gap ∧
      ∀ c ∈ gap, isGap c = true := by
    cases multiline
    all_goals exact ⟨_, rfl, by decide⟩
  obtain ⟨gap, he, hg⟩ := hseparator
  induction h with
  | atom =>
    cases hb with
    | atom ha => exact readsAs_atom ha
  | conj _ hs _ ihl ihr =>
    cases hb with
    | conj hbl hbr =>
      rcases hs with hs | hs
      · subst hs
        exact (ihl hbl).conj (ihr hbr) (by decide)
      · rw [hs, he]
        exact (ihl hbl).conj (ihr hbr) hg
  | neg _ ih =>
    cases hb with
    | neg hi =>
      have hneg := (ih hi).neg (.inl rfl) (by simp : ∀ c ∈ [], isGap c = true)
      simpa using hneg

/-! ## Parsing -/

section
variable {b : Body} {w : List Char} (h : ReadsAs b w)
include h

theorem ReadsAs.parse_body {periods : List Char} (hp : periods = [] ∨ periods = ['.']) :
    Body.parse (String.ofList (w ++ periods)) = .ok b.leftNested := by
  rw [Body.parse_iff_backtrack, String.toList_ofList]
  refine takes_closedBody.mpr ⟨periods, ?_, ?_⟩
  · rcases hp with hp | hp
    all_goals subst hp
    · exact h.body .none ends_nil (avoids_of_nil rfl)
    · exact h.body .none (ends_cons (by simp) [])
        (avoids_of_skipJunk (skipJunk_solid rfl _) (by decide))
  · rcases hp with hp | hp
    all_goals subst hp
    · exact .inl rfl
    · exact .inr ⟨[], rfl, rfl⟩

theorem ReadsAs.parse_rule {a : Atom} (ha : a.WellFormed) {gap blanks : List Char}
    (hg : ∀ c ∈ gap, isGap c = true) (hb : ∀ c ∈ blanks, isGap c = true) :
    Rule.parse (String.ofList (a.chars ++ gap ++ ':' :: '-' :: (blanks ++ (w ++ ['.'])))) =
      .ok ⟨a, b.leftNested⟩ := by
  have hneck : skipJunk (gap ++ ':' :: '-' :: (blanks ++ (w ++ ['.']))) =
      [':', '-'] ++ (blanks ++ (w ++ ['.'])) :=
    skipJunk_of_junk rfl (junk_of_gaps hg _)
  have hperiod : skipJunk ['.'] = '.' :: [] := rfl
  have hhead :
      Unbounded.atom .backtrack (a.chars ++ gap ++ ':' :: '-' :: (blanks ++ (w ++ ['.']))) =
        .done a (gap ++ ':' :: '-' :: (blanks ++ (w ++ ['.']))) := by
    rw [List.append_assoc]
    exact atom_of_text ha .none (stops_of_gaps hg fun _ => stops_cons.mpr rfl)
      (avoids_of_skipJunk hneck (by decide))
  have hbody : Unbounded.body .backtrack (blanks ++ (w ++ ['.'])) = .done b.leftNested ['.'] :=
    h.body (junk_of_gaps hb _) (ends_cons (by simp) []) (avoids_of_skipJunk hperiod (by decide))
  rw [Rule.parse_iff_backtrack, String.toList_ofList]
  refine ⟨[], ?_, rfl⟩
  unfold Unbounded.rule
  rw [bind_of_done hhead, bind_of_done (p := neck) ((symbol_eq_done (u := ())).mpr hneck),
    bind_of_done hbody, bind_of_done (p := period) (mark_of_skipJunk hperiod)]
  rfl

end

theorem isBlank_of_isGap {c : Char} (h : isGap c = true) : Text.isBlank c = true := by
  simp only [isGap, Bool.or_eq_true, beq_iff_eq] at h
  rcases h with ((h | h) | h) | h
  all_goals subst h; rfl

/-- **Meaning of normal forms.** A rendering of a body without quoted constants is parsed as that
body, nested to the left, and so are both its normal forms, alone or behind a head. The head must
hold no neck, and without quoted constants it does not (`Atom.WellFormed.no_neck`). -/
theorem normalize_keeps_meaning {b : Body} (hb : b.WellFormed) (hq : Unquoted b.constants)
    {w : List Char} (hw : Renders b w) (hs : Skippable w) (multiline : Bool) :
    (∀ periods, periods = [] ∨ periods = ['.'] →
      Body.parse (String.ofList (w ++ periods)) = .ok b.leftNested ∧
      ∃ u, Sentence.normalize multiline (String.ofList (w ++ periods)) = .ok u ∧
      Body.parse u = .ok b.leftNested) ∧
    ∀ a : Atom, a.WellFormed → ¬ [':', '-'] <:+: a.chars →
      ∀ gap blanks, (∀ c ∈ gap ++ blanks, isGap c = true) →
      Rule.parse (String.ofList (a.chars ++ gap ++ ':' :: '-' :: (blanks ++ (w ++ ['.'])))) =
        .ok ⟨a, b.leftNested⟩ ∧
      ∃ u, Sentence.normalize multiline
        (String.ofList (a.chars ++ gap ++ ':' :: '-' :: (blanks ++ (w ++ ['.'])))) = .ok u ∧
        Rule.parse u = .ok ⟨a, b.leftNested⟩ := by
  have hreads := hw.readsAs hb hs
  refine ⟨fun periods hp => ⟨hreads.parse_body hp, ?_⟩,
    fun a ha hneck gap blanks hgaps => ?_⟩
  · have hall : ∀ c ∈ periods, c = '.' := by
      rcases hp with hp | hp
      all_goals subst hp; simp
    obtain ⟨n, hn, hnormal⟩ := normalize_body hb hq hw hall multiline
    exact ⟨_, hnormal, (hn.readsAs hb).parse_body (.inr rfl)⟩
  · obtain ⟨hg, hblanks⟩ := List.forall_mem_append.mp hgaps
    refine ⟨hreads.parse_rule ha hg hblanks, ?_⟩
    obtain ⟨n, hn, hnormal⟩ :=
      normalize_rule hb hq hw (by simp : ∀ c ∈ ['.'], c = '.') multiline ha hneck
      (fun c hc => isBlank_of_isGap (hg c hc)) fun c hc => isBlank_of_isGap (hblanks c hc)
    refine ⟨_, hnormal, ?_⟩
    have hline : ∀ c ∈ (if multiline then ['\n', '\t'] else [' ']), isGap c = true := by
      cases multiline <;> decide
    have hrule := (hn.readsAs hb).parse_rule ha (by decide : ∀ c ∈ [' '], isGap c = true) hline
    rw [ha.headed_chars]
    simpa using hrule

theorem normalize_keeps_meaning_of_sample :
    Body.parse "\\+q,\n not r." =
      .ok (.conj (.neg (.atom ⟨"q", []⟩)) (.neg (.atom ⟨"r", []⟩))) ∧
    ∃ u, Sentence.normalize true "p :- \\+q,\n not r." = .ok u ∧
      Rule.parse u = .ok ⟨⟨"p", []⟩,
        .conj (.neg (.atom ⟨"q", []⟩)) (.neg (.atom ⟨"r", []⟩))⟩ := by
  have hp : Atom.WellFormed ⟨"p", []⟩ := ⟨by decide, by decide, by simp⟩
  have hq : Atom.WellFormed ⟨"q", []⟩ := ⟨by decide, by decide, by simp⟩
  have hr : Atom.WellFormed ⟨"r", []⟩ := ⟨by decide, by decide, by simp⟩
  have hfeed : IsLineEnd ['\n'] := .feed (by simp : ∀ c ∈ [], Sentence.isLineBlank c = true)
  have hw : Renders (.conj (.neg (.atom ⟨"q", []⟩)) (.neg (.atom ⟨"r", []⟩))) _ :=
    .conj (.bare ⟨Sentence.allBlank_nil, .inr rfl⟩) (.lineEnd hfeed Sentence.allBlank_blank)
      (.bare ⟨Sentence.allBlank_blank, .inl ⟨rfl, by decide⟩⟩)
  have hmeaning :=
    normalize_keeps_meaning (.conj (.neg (.atom hq)) (.neg (.atom hr))) (fun s hs => by cases hs) hw
    (by unfold Skippable; decide) true
  have hbody := (hmeaning.1 ['.'] (.inr rfl)).1
  have hneck := hp.no_neck fun s hs => by cases hs
  have hrule := (hmeaning.2 _ hp hneck [' '] [' '] (by decide)).2
  exact ⟨hbody, hrule⟩

/-- A bare negation of an atom that is broken over lines is wrapped around the atom's first line
only, so that its other lines become literals. -/
theorem normalize_changes_meaning : ¬ ∀ (text : String) (b : Body) (multiline : Bool),
    (∀ c ∈ text.toList, c ∉ ['\'', '"', '%', '/', '|']) → Body.parse text = .ok b →
      ∃ u, Sentence.normalize multiline text = .ok u ∧ Body.parse u = .ok b := by
  intro h
  have hparse : Body.parse "not a(x,\n y)" =
      .ok (.neg (.atom ⟨"a", [.const (.str "x"), .const (.str "y")]⟩)) := by cbv
  have hnormal : Sentence.normalize false "not a(x,\n y)" = .ok "not(a(x), y)." := by cbv
  have hchanged : Body.parse "not(a(x), y)." =
      .ok (.neg (.conj (.atom ⟨"a", [.const (.str "x")]⟩) (.atom ⟨"y", []⟩))) := by cbv
  obtain ⟨u, hu, hb⟩ := h _ _ false (by decide) hparse
  rw [hnormal, Except.ok.injEq] at hu
  rw [← hu, hchanged, Except.ok.injEq] at hb
  cases hb

end Clausal
