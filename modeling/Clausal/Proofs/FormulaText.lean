import Clausal.Formula.Text
import Clausal.Proofs.FormulaReader
import Clausal.Proofs.GrammarComplete
import Clausal.Proofs.TermText

/-!
# The canonical text of formulas is read back

A body in canonical text is also a sequence of terms, so the attempts to read a
negated body as a tuple beside a comparison fail where the comparison is missing,
and the body itself is read next. Its conjunctions come back nested to the left.
-/

namespace Clausal

open Lexeme Reader Reader.Unbounded

variable {policy : Policy}

/-- What may stand behind a literal in canonical text. -/
def Ends (rest : List Char) : Prop := ∀ c ∈ rest.head?, c ∈ [',', ')', '.']

theorem ends_nil : Ends [] := by simp [Ends]

theorem ends_cons {c : Char} (hc : c ∈ [',', ')', '.']) (rest : List Char) :
    Ends (c :: rest) := by
  simpa [Ends] using hc

section
variable {rest : List Char} (h : Ends rest)
include h

theorem Ends.stops {inside : Char → Bool} (hi : [',', ')', '.'].any inside = false) :
    Stops inside rest :=
  fun c hc => by simpa using List.any_eq_false.mp hi c (h c hc)

theorem Ends.closes : Closes rest := by
  cases rest with
  | nil => exact closes_of_nil rfl
  | cons c rest =>
    have hc := h c (by simp)
    have hsolid : isSolid c = true := by
      simp only [List.mem_cons, List.not_mem_nil, or_false] at hc
      rcases hc with hc | hc | hc
      all_goals subst hc; rfl
    exact closes_of_skipJunk (skipJunk_solid hsolid rest) hc

theorem Ends.avoids {marks : List Char} (hm : ∀ c ∈ [',', ')', '.'], c ∉ marks) :
    Avoids marks rest :=
  h.closes.avoids hm

end

/-! ## Atoms -/

/-- A call is tried as the left side of a comparison before it is read as an atom. -/
theorem atom_of_call {name cs r rest : List Char} {args : List Term} (hj : Junk cs (name ++ r))
    (hn : isLowerName name = true) (hne : name ≠ ['n', 'o', 't'])
    (ha : Derives (.arguments args) r rest) (hr : Avoids ['(', '=', '<', '>'] rest) :
    atom policy cs = .done ⟨String.ofList name, args⟩ rest := by
  have hcompound : compound (term policy) cs = .done ⟨String.ofList name, args, []⟩ rest :=
    reads_of_derives (.call hj hn ha) (hr.mono (by simp))
  obtain ⟨q, hq⟩ := open_of_arguments ha
  have hname : lowerName cs = .done name r := lowerName_of_junk hj hn (stops_of_junk hq rfl)
  refine orElse_eq_done.mpr (.inr
    ⟨relationalAtom_isStuck (operand_of_compound hcompound) (hr.mono (by simp)),
      typicalAtom_eq_done.mpr ?_⟩)
  exact ⟨name, r, predicateName_eq_done.mpr ⟨hname, hne⟩, .inl ⟨args, reads_of_derives ha, rfl⟩⟩

theorem Atom.chars_of_ne {a : Atom} (hne : a.args ≠ []) (rest : List Char) :
    a.chars ++ rest = a.name.toList ++ ('(' :: Text.listed (charsOf a.args) ++ ')' :: rest) := by
  obtain ⟨name, args⟩ := a
  cases args with
  | nil => exact absurd rfl hne
  | cons t ts => simp [chars]

section
variable {a : Atom} (h : a.WellFormed) {cs rest : List Char} (hj : Junk cs (a.chars ++ rest))
  (hs : Stops isNameChar rest)
include h hj

include hs in
theorem lowerName_of_atom_text : ∃ r, lowerName cs = .done a.name.toList r := by
  by_cases hne : a.args = []
  · have hchars : a.chars = a.name.toList := by unfold Atom.chars; rw [hne]
    rw [hchars] at hj
    exact ⟨rest, lowerName_of_junk hj h.name hs⟩
  · rw [Atom.chars_of_ne hne] at hj
    exact ⟨_, lowerName_of_junk hj h.name (stops_cons.mpr rfl)⟩

theorem compound_of_atom_text (hne : a.args ≠ []) :
    Derives (.compound ⟨a.name, a.args, []⟩) cs rest := by
  have hargs := derives_arguments_text (fun t ht => (h.args t ht).printed) rest
  rw [Atom.chars_of_ne hne] at hj
  have := Derives.call hj h.name hargs
  rw [String.ofList_toList] at this
  exact this

include hs in
theorem atom_of_text (hr : Avoids ['(', '=', '<', '>'] rest) : atom policy cs = .done a rest := by
  obtain ⟨name, args⟩ := a
  have hname : name.toList ≠ ['n', 'o', 't'] := fun he => h.name_ne (String.toList_injective he)
  by_cases hne : args = []
  · -- an operand is read here, the bare name, but no comparison behind it
    subst hne
    have hopen : Avoids ['('] rest := hr.mono (by simp)
    have hn : lowerName cs = .done name.toList rest := lowerName_of_junk hj h.name hs
    have hcompound : (compound (term policy) cs).IsStuck := by
      refine compound_isStuck (fun v r hv => ?_)
        ((avoids_of_lowerName hn not_mem_brackets).mono (by simp))
      rw [hn, Reply.done.injEq] at hv
      exact hv.2 ▸ hopen
    obtain ⟨t, ht⟩ := operand_of_name hcompound hn
    refine orElse_eq_done.mpr
      (.inr ⟨relationalAtom_isStuck ht (hr.mono (by simp)), typicalAtom_eq_done.mpr
        ⟨name.toList, rest, predicateName_eq_done.mpr ⟨hn, hname⟩,
          .inr ⟨?_, rfl, by rw [String.ofList_toList]⟩⟩⟩)
    exact parenthesized_isStuck (hopen '(' (by simp))
  · have hargs := derives_arguments_text (fun t ht => (h.args t ht).printed) rest
    rw [Atom.chars_of_ne hne] at hj
    have hcall : atom policy cs = .done ⟨String.ofList name.toList, args⟩ rest :=
      atom_of_call hj h.name hname hargs hr
    rwa [String.ofList_toList] at hcall

end

/-! ## Bodies as sequences of terms -/

theorem derives_append {ts us : List Term} {cs r s rest : List Char}
    (h : Derives (.sequence ts) cs r) (hj : Junk r (',' :: s))
    (h' : Derives (.sequence us) s rest) : Derives (.sequence (ts ++ us)) cs rest := by
  generalize hφ : Phrase.sequence ts = φ at h
  induction h generalizing ts with
  | one ht =>
    simp only [Phrase.sequence.injEq] at hφ
    rw [hφ]
    exact .more ht hj h'
  | more ht hc _ _ ih =>
    simp only [Phrase.sequence.injEq] at hφ
    rw [hφ]
    exact .more ht hc (ih hj rfl)
  | _ => cases hφ

theorem Atom.WellFormed.derives_term {a : Atom} (h : a.WellFormed) {rest : List Char}
    (hr : Follows rest) :
    ∃ t, Derives (.term t) (a.chars ++ rest) rest := by
  by_cases hne : a.args = []
  · have hchars : a.chars = a.name.toList := by unfold Atom.chars; rw [hne]
    rw [hchars]
    exact ⟨_, .token .none (longest_lower h.name (hr.stops rfl)) (meaning?_lower h.name)⟩
  · exact ⟨_, .compound (compound_of_atom_text h .none hne)⟩

theorem Body.neg_chars (inner : Body) (rest : List Char) :
    (Body.neg inner).chars ++ rest = ['n', 'o', 't'] ++ ('(' :: (inner.chars ++ ')' :: rest)) := by
  simp [Body.chars]

theorem Body.WellFormed.derives_sequence {b : Body} (h : b.WellFormed) :
    ∀ rest, Follows rest → ∃ ts, Derives (.sequence ts) (b.chars ++ rest) rest := by
  induction h with
  | atom ha =>
    intro rest hr
    obtain ⟨t, ht⟩ := ha.derives_term hr
    exact ⟨[t], .one ht⟩
  | @conj left right _ _ ihl ihr =>
    intro rest hr
    have hchars : (Body.conj left right).chars ++ rest =
        left.chars ++ ',' :: ' ' :: (right.chars ++ rest) := by
      simp [Body.chars]
    obtain ⟨ts, ht⟩ := ihl (',' :: ' ' :: (right.chars ++ rest)) (follows_cons (by simp) _)
    obtain ⟨us, hu⟩ := ihr rest hr
    rw [hchars]
    exact ⟨ts ++ us, derives_append ht .none (hu.of_junk (.blank rfl .none))⟩
  | @neg inner _ ih =>
    intro rest hr
    obtain ⟨ts, ht⟩ := ih (')' :: rest) (follows_cons (by simp) _)
    rw [Body.neg_chars]
    exact ⟨_, .one (.compound (.call .none (by decide) (.arguments (.group .none ht .none))))⟩

/-! ## Literals -/

theorem negationSign_of_text {inner : Body} {cs rest : List Char}
    (hj : Junk cs ((Body.neg inner).chars ++ rest)) :
    negationSign cs = .done () ('(' :: (inner.chars ++ ')' :: rest)) := by
  rw [Body.neg_chars] at hj
  exact negationSign_eq_done.mpr (.inl ⟨skipJunk_of_junk rfl hj, stops_cons.mpr rfl⟩)

section
variable {inner : Body} (h : inner.WellFormed) {cs rest : List Char} (hr : Ends rest)
include h hr

/-- A negated body in parentheses is a tuple, but no comparison stands behind it. -/
theorem atom_isStuck_in_parentheses :
    (atom policy ('(' :: (inner.chars ++ ')' :: rest))).IsStuck := by
  obtain ⟨ts, ht⟩ := h.derives_sequence (')' :: rest) (follows_cons (by simp) _)
  have hskip : skipJunk ('(' :: (inner.chars ++ ')' :: rest)) =
      '(' :: (inner.chars ++ ')' :: rest) :=
    skipJunk_solid rfl _
  have htuple : compound (term policy) ('(' :: (inner.chars ++ ')' :: rest)) =
      .done (.tuple ts) rest :=
    reads_of_derives (.tuple (.group .none ht .none)) (hr.avoids (by simp))
  refine orElse_isStuck.mpr
    ⟨relationalAtom_isStuck (operand_of_compound htuple) (hr.avoids (by simp)), ?_⟩
  exact typicalAtom_isStuck (predicateName_isStuck (lowerName_isStuck hskip rfl))

theorem atom_isStuck_of_neg_text (hj : Junk cs ((Body.neg inner).chars ++ rest)) :
    (atom policy cs).IsStuck := by
  obtain ⟨ts, ht⟩ := h.derives_sequence (')' :: rest) (follows_cons (by simp) _)
  rw [Body.neg_chars] at hj
  have hname := lowerName_of_junk hj (by decide) (stops_cons.mpr rfl)
  have hcall : compound (term policy) cs = .done ⟨String.ofList ['n', 'o', 't'], ts, []⟩ rest :=
    reads_of_derives (.call hj (by decide) (.arguments (.group .none ht .none)))
      (hr.avoids (by simp))
  refine orElse_isStuck.mpr
    ⟨relationalAtom_isStuck (operand_of_compound hcall) (hr.avoids (by simp)), ?_⟩
  exact typicalAtom_isStuck (predicateName_not hname)

end

theorem literal_of_atom {a : Atom} (h : a.WellFormed) {cs rest : List Char}
    (hj : Junk cs (a.chars ++ rest)) (hr : Ends rest) :
    literal (atom policy) (body policy) cs = .done (.atom a) rest := by
  have hatom : atom policy cs = .done a rest :=
    atom_of_text h hj (hr.stops rfl) (hr.avoids (by simp))
  obtain ⟨r, hn⟩ := lowerName_of_atom_text h hj (hr.stops rfl)
  refine literal_eq_done.mpr
    (.inr ⟨bind_of_stuck (plain_negationSign.isStuck_iff.mpr fun u s hu => ?_), a, hatom, rfl⟩)
  rcases negationSign_eq_done.mp hu with ⟨hs, hstop⟩ | hs
  · have hnot : lowerName cs = .done ['n', 'o', 't'] s := nameFrom_eq_done.mpr ⟨hs, rfl, hstop⟩
    rw [hn, Reply.done.injEq] at hnot
    exact h.name_ne (String.toList_injective hnot.1)
  · have hlead := leads?_of_lowerName hn
    rw [leads?_eq (w := ['+']) hs] at hlead
    cases hlead

/-! ## Bodies -/

namespace Body

/-- The literals of a body behind the first one, each behind a comma and a gap. -/
def moreChars (gap : List Char) (ls : List Body) : List Char :=
  ls.flatMap fun l => ',' :: (gap ++ l.chars)

theorem chars_of_literals {b l : Body} {ls : List Body} (h : b.literals = l :: ls) :
    b.chars = l.chars ++ moreChars [' '] ls := by
  unfold moreChars
  induction b generalizing l ls with
  | conj left right ihl ihr =>
    obtain ⟨k, ks, hk⟩ := left.exists_literals
    obtain ⟨m, ms, hm⟩ := right.exists_literals
    rw [literals, hk, hm, List.cons_append, List.cons.injEq] at h
    rw [chars, ihl hk, ihr hm, ← h.1, ← h.2]
    simp
  | _ =>
    simp only [literals, List.cons.injEq] at h
    rw [← h.1, ← h.2]
    simp

theorem ends_moreChars (gap : List Char) (ls : List Body) {rest : List Char} (hr : Ends rest) :
    Ends (moreChars gap ls ++ rest) := by
  cases ls with
  | nil => exact hr
  | cons l ls => exact ends_cons (by simp) _

end Body

/-- The literal is read where it stands. -/
def LiteralRead (policy : Policy) (l : Body) : Prop :=
  ∀ cs rest, Junk cs (l.chars ++ rest) → Ends rest →
  literal (atom policy) (body policy) cs = .done l.leftNested rest

section
variable {gap : List Char} (hg : ∀ c ∈ gap, isGap c = true) {rest : List Char} (hr : Ends rest)
  (hc : Avoids [','] rest)
include hg hr hc

theorem repeats_of_text {ls : List Body} (h : ∀ l ∈ ls, LiteralRead policy l) :
    Repeats (do mark ','; literal (atom policy) (body policy)) (ls.map Body.leftNested)
      (Body.moreChars gap ls ++ rest) rest := by
  induction ls with
  | nil => exact .nil (bind_of_stuck (mark_isStuck_of_avoids hc (by simp)))
  | cons l ls ih =>
    have hchars : Body.moreChars gap (l :: ls) ++ rest =
        ',' :: (gap ++ (l.chars ++ (Body.moreChars gap ls ++ rest))) := by
      simp [Body.moreChars]
    have hl :=
      h l (by simp) (gap ++ (l.chars ++ (Body.moreChars gap ls ++ rest))) _ (junk_of_gaps hg _)
      (Body.ends_moreChars gap ls hr)
    rw [hchars]
    refine .cons ?_ (ih fun m hm => h m (by simp [hm]))
    rw [bind_of_done (mark_of_skipJunk (skipJunk_solid rfl _))]
    exact hl

/-- Any gap may stand between the literals of a body. -/
theorem body_of_spread {b l : Body} {ls : List Body} (hl : b.literals = l :: ls)
    (h : ∀ m ∈ b.literals, LiteralRead policy m) {cs : List Char}
    (hj : Junk cs (l.chars ++ (Body.moreChars gap ls ++ rest))) :
    body policy cs = .done b.leftNested rest := by
  rw [hl] at h
  rw [body_apply, anyBody_eq_done (consumes_atom policy) (consumes_body policy)]
  exact ⟨l.leftNested, ls.map Body.leftNested, _,
    h l (by simp) cs _ hj (Body.ends_moreChars gap ls hr),
    repeats_of_text hg hr hc fun m hm => h m (by simp [hm]), Body.leftNested_of_literals hl⟩

end

theorem body_of_literalsRead {b : Body} (h : ∀ l ∈ b.literals, LiteralRead policy l)
    {cs rest : List Char} (hj : Junk cs (b.chars ++ rest)) (hr : Ends rest)
    (hc : Avoids [','] rest) :
    body policy cs = .done b.leftNested rest := by
  obtain ⟨l, ls, hl⟩ := b.exists_literals
  rw [Body.chars_of_literals hl, List.append_assoc] at hj
  exact body_of_spread (by decide) hr hc hl h hj

theorem parenthesized_atom_isStuck {b : Body} (h : b.WellFormed) (hb : ∀ a, b ≠ .atom a)
    (rest : List Char) :
    (parenthesized (atom policy) ('(' :: (b.chars ++ ')' :: rest))).IsStuck := by
  have hends : Ends (')' :: rest) := ends_cons (by simp) rest
  apply parenthesized_isStuck_of_inner (skipJunk_solid rfl _)
  obtain ⟨l, ls, hl⟩ := b.exists_literals
  have hw : l.WellFormed := h.of_mem (by simp [hl])
  have hends' := Body.ends_moreChars [' '] ls hends
  rw [Body.chars_of_literals hl, List.append_assoc]
  cases hw with
  | neg hi => exact .inl (atom_isStuck_of_neg_text hi hends' .none)
  | @atom a ha =>
    refine .inr ⟨a, _, atom_of_text ha .none (hends'.stops rfl) (hends'.avoids (by simp)), ?_⟩
    cases ls with
    | cons m ms => exact avoids_of_skipJunk (skipJunk_solid rfl _) (by decide)
    | nil =>
      -- a single literal that is an atom is the whole body
      exact absurd (Body.eq_of_literals hl) (hb a)
  | @conj left right _ _ =>
    have hliteral := Body.isLiteral_of_mem (b := b) (l := .conj left right) (by rw [hl]; simp)
    exact absurd hliteral (Body.literals_conj_ne left right _)

theorem Body.WellFormed.literalsRead {b : Body} (h : b.WellFormed) :
    ∀ l ∈ b.literals, LiteralRead policy l := by
  induction h with
  | atom ha =>
    intro l hl cs rest hj hr
    rw [List.mem_singleton.mp hl] at hj ⊢
    exact literal_of_atom ha hj hr
  | conj _ _ ihl ihr =>
    intro l hl
    rcases List.mem_append.mp hl with hl | hl
    · exact ihl l hl
    · exact ihr l hl
  | @neg inner hi ih =>
    intro l hl cs rest hj hr
    rw [List.mem_singleton.mp hl] at hj ⊢
    have hopen : skipJunk ('(' :: (inner.chars ++ ')' :: rest)) =
        '(' :: (inner.chars ++ ')' :: rest) :=
      skipJunk_solid rfl _
    have hclose : skipJunk (')' :: rest) = ')' :: rest := skipJunk_solid rfl rest
    have hends : Ends (')' :: rest) := ends_cons (by simp) rest
    -- an atom, then an atom in parentheses, is tried before the body in parentheses that was
    -- written
    refine literal_eq_done.mpr (.inl (negation_eq_done.mpr ⟨(), _, negationSign_of_text hj, .inr
      ⟨atom_isStuck_in_parentheses hi hr, ?_⟩⟩))
    by_cases ha : ∃ a, inner = .atom a
    · obtain ⟨a, ha⟩ := ha
      subst ha
      cases hi with
      | atom ha =>
        have hatom : Unbounded.atom policy (a.chars ++ ')' :: rest) = .done a (')' :: rest) :=
          atom_of_text ha .none (hends.stops rfl) (hends.avoids (by simp))
        exact .inl ⟨a, parenthesized_eq_done.mpr ⟨_, _, hopen, hatom, hclose⟩, rfl⟩
    · have hbody := body_of_literalsRead ih .none hends (avoids_of_skipJunk hclose (by decide))
      refine .inr ⟨parenthesized_atom_isStuck hi (fun a he => ha ⟨a, he⟩) rest,
        inner.leftNested, ?_, rfl⟩
      exact parenthesized_eq_done.mpr ⟨_, _, hopen, hbody, hclose⟩

/-- **Bodies.** The text of a well-formed body is read as the same literals, nested to the left. -/
theorem body_of_text {b : Body} (h : b.WellFormed) {cs rest : List Char}
    (hj : Junk cs (b.chars ++ rest)) (hr : Ends rest) (hc : Avoids [','] rest) :
    body policy cs = .done b.leftNested rest :=
  body_of_literalsRead h.literalsRead hj hr hc

end Clausal
