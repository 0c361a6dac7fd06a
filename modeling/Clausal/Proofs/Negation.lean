import Clausal.Proofs.FormulaReader
import Clausal.Proofs.GrammarSound

/-!
# Literals read as terms

The word of negation is also the name of a call, and what is negated may look like
its arguments. Where a literal is read as a term instead, either both end at the
same place, or the term ends where no comma and no parenthesis follows. Hence a
literal that is also read as an atom ends where that atom ends.
-/

namespace Clausal

open Lexeme Reader Reader.Unbounded

variable {policy : Policy} {cs rest : List Char}

/-! ## What atoms and names begin with -/

/-- Characters that no atom begins with. -/
def isForeign (c : Char) : Bool := (lead? c).isNone && c != '('

theorem avoids_of_atom {a : Atom} (h : atom policy cs = .done a rest) {marks : List Char}
    (hm : marks.all isForeign = true) : Avoids marks cs := by
  intro c hc r hr
  have hforeign := List.all_eq_true.mp hm c hc
  simp only [isForeign, Bool.and_eq_true, Option.isNone_iff_eq_none, bne_iff_ne] at hforeign
  exact (atom_isStuck hr hforeign.1 hforeign.2).ne_done a rest h

theorem arguments_isStuck_of_call {name r : List Char} (h : (call (term policy) cs).IsStuck)
    (hn : lowerName cs = .done name r) : (arguments (term policy) r).IsStuck := by
  unfold call at h
  rcases bind_isStuck.mp h with h | ⟨name', r', hn', h⟩
  · exact absurd hn (h.ne_done name r)
  · rw [hn, Reply.done.injEq] at hn'
    rw [← hn'.2] at h
    rcases bind_isStuck.mp h with h | ⟨args, s, -, h⟩
    · exact h
    · obtain ⟨q, hq⟩ := map_isStuck.mp h
      unfold Reader.optional at hq
      cases hv : values (term policy) s <;> simp [hv] at hq

/-- A term that begins with a name is a call of it or the name alone. -/
theorem term_of_lowerName {name r : List Char} {t : Term} (hn : lowerName cs = .done name r)
    (h : term policy cs = .done t rest) :
    (∃ args s, arguments (term policy) r = .done args s ∧
      ((∃ vs, values (term policy) s = .done vs rest) ∨
        (values (term policy) s).IsStuck ∧ rest = s)) ∨
    (arguments (term policy) r).IsStuck ∧ rest = r := by
  have havoid := avoids_of_lowerName hn not_mem_brackets
  rcases term_eq_done.mp h with ⟨f, hf, -⟩ | ⟨hs, ⟨items, hi, -⟩ | ⟨-, hx⟩⟩
  · rcases compound_eq_done.mp hf with hf | ⟨-, items, hi, -⟩
    · obtain ⟨name', args, r', s, hn', ha, h⟩ := call_eq_done.mp hf
      rw [hn, Reply.done.injEq] at hn'
      rw [← hn'.2] at ha
      rcases h with ⟨vs, hv, -⟩ | ⟨hv, hs, -⟩
      · exact .inl ⟨args, s, ha, .inl ⟨vs, hv⟩⟩
      · exact .inl ⟨args, s, ha, .inr ⟨hv, hs.symm⟩⟩
    · obtain ⟨q, -, hq, -⟩ := parenthesized_eq_done.mp hi
      exact absurd hq (havoid '(' (by simp) q)
  · rw [list_apply] at hi
    obtain ⟨q, hq, -⟩ := bracketed_cases hi
    exact absurd hq (havoid '[' (by simp) q)
  · obtain ⟨w, hj, hw, -⟩ := lexemes_eq_done.mp hx
    obtain ⟨hj', hw'⟩ := longest_of_lowerName hn
    exact .inr ⟨arguments_isStuck_of_call (orElse_isStuck.mp hs).1 hn,
      (hw.unique hw' (hj.symm.trans hj')).2⟩

/-! ## Atoms read as terms -/

theorem term_end_of_atom {a : Atom} {t : Term} {r : List Char} (ha : atom policy cs = .done a rest)
    (hv : Avoids ['='] rest) (ht : term policy cs = .done t r) :
    r = rest ∨ Avoids [',', ')'] r := by
  rcases orElse_eq_done.mp ha with h | ⟨-, h⟩
  · obtain ⟨left, c, right, s, q, hl, hc, -, -⟩ := relationalAtom_eq_done.mp h
    have hleft := term_of_operand hl
    rw [ht, Reply.done.injEq] at hleft
    rw [hleft.2]
    exact .inr (avoids_of_comparison hc (by simp))
  · obtain ⟨name, s, hn, h⟩ := typicalAtom_eq_done.mp h
    have hstuck : (values (term policy) rest).IsStuck := values_isStuck hv
    refine .inl ?_
    rcases term_of_lowerName (predicateName_eq_done.mp hn).1 ht with
      ⟨args, q, hargs, hend⟩ | ⟨hs, hr⟩
    · rcases h with ⟨args', ha, -⟩ | ⟨hs, -, -⟩
      · rw [hargs, Reply.done.injEq] at ha
        rw [ha.2] at hend
        rcases hend with ⟨vs, hvs⟩ | ⟨-, hr⟩
        · exact absurd hvs (hstuck.ne_done vs r)
        · exact hr
      · exact absurd hargs (hs.ne_done args q)
    · rcases h with ⟨args, ha, -⟩ | ⟨-, he, -⟩
      · exact absurd ha (hs.ne_done args rest)
      · rw [hr, he]

/-! ## What is negated -/

/-- What a negation reads behind its sign. -/
def Negated (policy : Policy) (cs rest : List Char) : Prop :=
  (∃ a, atom policy cs = .done a rest) ∨
  (atom policy cs).IsStuck ∧ ((∃ a, parenthesized (atom policy) cs = .done a rest) ∨
    ∃ b, parenthesized (body policy) cs = .done b rest)

theorem negated_of_negation {b : Body}
    (h : negation (atom policy) (body policy) cs = .done b rest) :
    ∃ u r, negationSign cs = .done u r ∧ Negated policy r rest := by
  obtain ⟨u, r, hu, h⟩ := negation_eq_done.mp h
  refine ⟨u, r, hu, ?_⟩
  rcases h with ⟨a, ha, -⟩ | ⟨hs, ⟨a, ha, -⟩ | ⟨-, c, hc, -⟩⟩
  · exact .inl ⟨a, ha⟩
  · exact .inr ⟨hs, .inl ⟨a, ha⟩⟩
  · exact .inr ⟨hs, .inr ⟨c, hc⟩⟩

theorem Negated.avoids (h : Negated policy cs rest) {marks : List Char}
    (hm : marks.all isForeign = true) :
    Avoids marks cs := by
  have hopen {s : List Char} (hs : skipJunk cs = '(' :: s) : Avoids marks cs :=
    avoids_of_skipJunk hs fun hc => absurd (List.all_eq_true.mp hm '(' hc) (by decide)
  rcases h with ⟨a, ha⟩ | ⟨-, ⟨a, ha⟩ | ⟨b, hb⟩⟩
  · exact avoids_of_atom ha hm
  · obtain ⟨s, t, hs, -⟩ := parenthesized_eq_done.mp ha
    exact hopen hs
  · obtain ⟨s, t, hs, -⟩ := parenthesized_eq_done.mp hb
    exact hopen hs

theorem avoids_of_literal {b : Body} (h : literal (atom policy) (body policy) cs = .done b rest) :
    Avoids [',', ')'] cs := by
  rcases literal_eq_done.mp h with h | ⟨-, a, ha, -⟩
  · obtain ⟨u, r, hu, -⟩ := negated_of_negation h
    rcases negationSign_eq_done.mp hu with ⟨hs, -⟩ | hs
    · exact avoids_of_skipJunk hs (by decide)
    · exact avoids_of_skipJunk hs (by decide)
  · exact avoids_of_atom ha rfl

theorem Negated.avoids_inside {s : List Char} (h : Negated policy cs rest)
    (hs : skipJunk cs = '(' :: s) :
    Avoids [')'] s := by
  have hinner {t : List Char} (ht : skipJunk cs = '(' :: t) : t = s := by
    rw [hs, List.cons.injEq] at ht
    exact ht.2.symm
  rcases h with ⟨a, ha⟩ | ⟨-, ⟨a, ha⟩ | ⟨b, hb⟩⟩
  · -- an atom here compares a compound, and `()` is none
    intro c hc r hr
    rw [List.mem_singleton.mp hc] at hr
    have hterm : (term policy s).IsStuck := term_isStuck hr rfl (by decide)
    have htuple : (tuple (term policy) cs).IsStuck :=
      parenthesized_isStuck_of_inner hs (.inl (commaList1_isStuck hterm))
    rcases orElse_eq_done.mp ha with h | ⟨-, h⟩
    · obtain ⟨left, c, right, q, t, hl, -⟩ := relationalAtom_eq_done.mp h
      exact not_open_of_tuple_isStuck htuple (term_of_operand hl) s (junk_of_skipJunk hs)
    · obtain ⟨name, q, hn, -⟩ := typicalAtom_eq_done.mp h
      exact (lowerName_isStuck hs rfl).ne_done name q (predicateName_eq_done.mp hn).1
  · obtain ⟨t, q, ht, ha, -⟩ := parenthesized_eq_done.mp ha
    rw [hinner ht] at ha
    exact avoids_of_atom ha rfl
  · obtain ⟨t, q, ht, hb, -⟩ := parenthesized_eq_done.mp hb
    rw [hinner ht, body_apply, anyBody_eq_done (consumes_atom policy) (consumes_body policy)] at hb
    obtain ⟨first, others, r, hf, -⟩ := hb
    exact (avoids_of_literal hf).mono (by simp)

theorem Negated.tuple_of_arguments {args : List Term} {r : List Char} (h : Negated policy cs rest)
    (ha : arguments (term policy) cs = .done args r) : tuple (term policy) cs = .done args r := by
  obtain ⟨s, t, hs, hargs, hc⟩ := parenthesized_eq_done.mp ha
  refine parenthesized_eq_done.mpr ⟨s, t, hs, ?_, hc⟩
  rcases commaList_eq_done.mp hargs with hargs | ⟨-, ht, -⟩
  · exact hargs
  · rw [ht] at hc
    exact absurd hc (h.avoids_inside hs ')' (by simp) r)

theorem arguments_of_tuple {args : List Term} {r : List Char}
    (h : tuple (term policy) cs = .done args r) :
    arguments (term policy) cs = .done args r := by
  obtain ⟨s, t, hs, hargs, hc⟩ := parenthesized_eq_done.mp h
  exact parenthesized_eq_done.mpr ⟨s, t, hs, commaList_eq_done.mpr (.inl hargs), hc⟩

theorem Negated.arguments_isStuck (h : Negated policy cs rest)
    (ht : (tuple (term policy) cs).IsStuck) :
    (arguments (term policy) cs).IsStuck := by
  rcases bind_isStuck.mp ht with hs | ⟨u, s, hs, ht⟩
  · exact bind_of_stuck hs
  · have hopen := mark_eq_done.mp hs
    rcases bind_isStuck.mp ht with ht | ⟨ts, t, hts, ht⟩
    · exact parenthesized_isStuck_of_inner hopen
        (.inr ⟨[], s, commaList_eq_done.mpr (.inr ⟨rfl, rfl, ht⟩),
          h.avoids_inside hopen⟩)
    · have hmark := map_isStuck.mp ht
      refine parenthesized_isStuck_of_inner hopen
        (.inr ⟨ts, t, commaList_eq_done.mpr (.inl hts), ?_⟩)
      intro c hc r hr
      rw [List.mem_singleton.mp hc] at hr
      exact mark_isStuck.mp hmark r hr

theorem Negated.tuple_settles (h : Negated policy cs rest) : (tuple (term policy) cs).Settles := by
  by_cases hopen : ∃ s, skipJunk cs = '(' :: s
  · -- the atom is tried first, and it begins with this tuple as its left operand
    obtain ⟨s, hs⟩ := hopen
    have hatom : (atom policy cs).Settles := by
      rcases h with ⟨a, ha⟩ | ⟨h, -⟩
      · exact .inl ⟨a, rest, ha⟩
      · exact .inr h
    have hcall : (call (term policy) cs).IsStuck := bind_of_stuck (lowerName_isStuck hs rfl)
    have hoperand := settles_of_bind (settles_of_orElse hatom)
    have hcompound := settles_of_bind (settles_of_orElse hoperand)
    exact settles_of_bind (settles_of_orElse_right hcall hcompound)
  · exact .inr (parenthesized_isStuck fun s hs => hopen ⟨s, hs⟩)

/-- No values are read behind a tuple that has been negated, whole or as the left side of a
comparison. -/
theorem values_isStuck_of_end {r : List Char} (h : r = rest ∨
      ∃ c s right, comparison r = .done c s ∧ operand (term policy) policy s = .done right rest)
    (hr : Closes rest) : (values (term policy) r).IsStuck := by
  rcases h with h | ⟨c, s, right, hc, -⟩
  · exact values_isStuck (h ▸ hr.avoids (by simp))
  · exact values_isStuck_of_comparison hc

theorem compound_of_not {items : List Term} {s r : List Char}
    (hn : lowerName cs = .done ['n', 'o', 't'] s) (ht : tuple (term policy) s = .done items r)
    (h : r = rest ∨ ∃ c q right, comparison r = .done c q ∧
      operand (term policy) policy q = .done right rest)
    (hr : Closes rest) :
    compound (term policy) cs = .done ⟨String.ofList ['n', 'o', 't'], items, []⟩ r :=
  compound_eq_done.mpr (.inl (call_eq_done.mpr ⟨_, items, s, r, hn, arguments_of_tuple ht,
    .inr ⟨values_isStuck_of_end h hr, rfl, rfl⟩⟩))

/-! ## Literals read as terms -/

/-- Where a literal is read as a term, both end alike or the term is followed by neither of these
marks. -/
def EndsAlike (policy : Policy) (cs : List Char) : Prop := ∀ b rest t r,
  literal (atom policy) (body policy) cs = .done b rest → Closes rest →
  term policy cs = .done t r →
    r = rest ∨ Avoids [',', ')'] r

section
variable {k : Nat} (he : ∀ cs : List Char, cs.length < k → EndsAlike policy cs)
include he

/-- The literals of a body and the terms of a sequence go side by side up to the same
parenthesis. -/
theorem end_of_literals {others : List Body} {v v' : List Char} {p q : List Char}
    (h : Repeats (do mark ','; literal (atom policy) (body policy)) others v v')
    (hv : skipJunk v' = ')' :: p) :
    ∀ {cs : List Char} {b : Body} {t : Term} {ts : List Term} {w w' : List Char},
      cs.length < k → literal (atom policy) (body policy) cs = .done b v →
        term policy cs = .done t w →
      Repeats (do mark ','; term policy) ts w w' → skipJunk w' = ')' :: q → w' = v' := by
  have hstop {c : Char} {x y : List Char} (hx : skipJunk x = c :: y) (hc : c ∈ [',', ')']) :
      ¬ Avoids [',', ')'] x :=
    fun h => h c hc y hx
  induction h with
  | nil _ =>
    intro cs b t ts w w' hk hb ht hw hw'
    have hend := he cs hk b _ t w hb (closes_of_skipJunk hv (by simp)) ht
    -- the last literal ends before the parenthesis, so no comma follows its term
    cases hw with
    | nil _ => exact hend.resolve_right (hstop hw' (by simp))
    | cons hx _ =>
      obtain ⟨u, r, hm, -⟩ := bind_eq_done.mp hx
      have hcomma := mark_eq_done.mp hm
      rw [hend.resolve_right (hstop hcomma (by simp)), hv, List.cons.injEq] at hcomma
      exact absurd hcomma.1 (by decide)
  | cons hx _ ih =>
    intro cs b t ts w w' hk hb ht hw hw'
    obtain ⟨u, r, hm, hx⟩ := bind_eq_done.mp hx
    have hcomma := mark_eq_done.mp hm
    have hend := he cs hk b _ t w hb (closes_of_skipJunk hcomma (by simp)) ht
    have hlen := consumes_literal (consumes_atom policy) (consumes_body policy) _ _ _ hb
    have hr := consumes_mark _ _ _ _ hm
    cases hw with
    | nil _ =>
      rw [hend.resolve_right (hstop hw' (by simp)), hcomma, List.cons.injEq] at hw'
      exact absurd hw'.1 (by decide)
    | cons hy hw =>
      obtain ⟨u', r', hm', hy⟩ := bind_eq_done.mp hy
      have hcomma' := mark_eq_done.mp hm'
      -- both have passed the same comma
      have hsame : r' = r := by
        rw [hend.resolve_right (hstop hcomma' (by simp)), hcomma, List.cons.injEq] at hcomma'
        exact hcomma'.2.symm
      rw [hsame] at hy
      exact ih hv (by omega) hx hy hw hw'

theorem end_of_parenthesized {items : List Term} {r : List Char} (hk : cs.length ≤ k)
    (h : (∃ a, parenthesized (atom policy) cs = .done a rest) ∨
      ∃ b, parenthesized (body policy) cs = .done b rest)
    (ht : tuple (term policy) cs = .done items r) : r = rest := by
  obtain ⟨s, w, hs, hw, hr⟩ := parenthesized_eq_done.mp ht
  have hlen := length_lt_of_skipJunk (w := ['(']) hs (by simp)
  obtain ⟨t, ts, q, -, hterm, hrep⟩ := (commaList1_eq_done (consumes_term policy)).mp hw
  rcases h with ⟨a, ha⟩ | ⟨b, hb⟩
  · obtain ⟨s', v, hs', ha, hv⟩ := parenthesized_eq_done.mp ha
    rw [hs, List.cons.injEq] at hs'
    rw [← hs'.2] at ha
    have hend := term_end_of_atom ha (avoids_of_skipJunk hv (by decide)) hterm
    cases hrep with
    | nil _ =>
      rw [hend.resolve_right fun h => h ')' (by simp) r hr, hv, List.cons.injEq] at hr
      exact hr.2.symm
    | cons hx _ =>
      obtain ⟨u, r', hm, -⟩ := bind_eq_done.mp hx
      have hcomma := mark_eq_done.mp hm
      rw [hend.resolve_right fun h => h ',' (by simp) r' hcomma, hv, List.cons.injEq] at hcomma
      exact absurd hcomma.1 (by decide)
  · obtain ⟨s', v, hs', hb, hv⟩ := parenthesized_eq_done.mp hb
    rw [hs, List.cons.injEq] at hs'
    rw [← hs'.2, body_apply, anyBody_eq_done (consumes_atom policy) (consumes_body policy)] at hb
    obtain ⟨first, others, q', hf, ho, -⟩ := hb
    have hend := end_of_literals he ho hv (by omega) hf hterm hrep hr
    rw [hend, hv, List.cons.injEq] at hr
    exact hr.2.symm

/-- A tuple behind the sign of a negation is all that is negated, or the left side of a
comparison. -/
theorem Negated.end_of_tuple {items : List Term} {r : List Char} (hk : cs.length ≤ k)
    (h : Negated policy cs rest) (ht : tuple (term policy) cs = .done items r) :
    r = rest ∨ ∃ c s right, comparison r = .done c s ∧
    operand (term policy) policy s = .done right rest := by
  rcases h with ⟨a, ha⟩ | ⟨-, h⟩
  · obtain ⟨s, w, hs, -⟩ := parenthesized_eq_done.mp ht
    have hcall : (call (term policy) cs).IsStuck := bind_of_stuck (lowerName_isStuck hs rfl)
    have htuple := operand_of_compound (compound_eq_done.mpr (.inr ⟨hcall, items, ht, rfl⟩))
    rcases orElse_eq_done.mp ha with h | ⟨-, h⟩
    · obtain ⟨left, c, right, q, s, hl, hc, hr, -⟩ := relationalAtom_eq_done.mp h
      rw [htuple, Reply.done.injEq] at hl
      rw [← hl.2] at hc
      exact .inr ⟨c, s, right, hc, hr⟩
    · obtain ⟨name, q, hn, -⟩ := typicalAtom_eq_done.mp h
      exact absurd (predicateName_eq_done.mp hn).1 ((lowerName_isStuck hs rfl).ne_done name q)
  · exact .inl (end_of_parenthesized he hk h ht)

theorem endsAlike_step (hk : cs.length ≤ k) : EndsAlike policy cs := by
  intro b rest t w hb hrest ht
  rcases literal_eq_done.mp hb with h | ⟨-, a, ha, -⟩
  · obtain ⟨u, s, hu, hneg⟩ := negated_of_negation h
    have hlen := consumes_negationSign _ _ _ hu
    rcases negationSign_eq_done.mp hu with ⟨hs, hstop⟩ | hs
    · have hname : lowerName cs = .done ['n', 'o', 't'] s :=
        nameFrom_eq_done.mpr ⟨hs, rfl, hstop⟩
      -- the term calls the word of negation, or it is that word alone
      rcases term_of_lowerName hname ht with ⟨args, r, ha, hvalues⟩ | ⟨-, hw⟩
      · have hend := hneg.end_of_tuple he (by omega) (hneg.tuple_of_arguments ha)
        have hw : w = r := by
          rcases hvalues with ⟨vs, hvs⟩ | ⟨-, hw⟩
          · exact absurd hvs ((values_isStuck_of_end hend hrest).ne_done vs w)
          · exact hw
        rw [hw]
        rcases hend with hr | ⟨c, q, right, hc, -⟩
        · exact .inl hr
        · exact .inr (avoids_of_comparison hc (by simp))
      · exact .inr (hw ▸ hneg.avoids rfl)
    · exact absurd ht ((term_isStuck hs rfl (by decide)).ne_done t w)
  · exact term_end_of_atom ha (hrest.avoids (by simp)) ht

end

theorem endsAlike_below (policy : Policy) (k : Nat) :
    ∀ cs : List Char, cs.length < k → EndsAlike policy cs := by
  induction k with
  | zero => exact fun _ hk => absurd hk (Nat.not_lt_zero _)
  | succ k ih => exact fun cs hk => endsAlike_step ih (Nat.le_of_lt_succ hk)

/-! ## Literals read as atoms -/

theorem atom_isStuck_of_not {s : List Char} (hn : lowerName cs = .done ['n', 'o', 't'] s)
    (hs : (arguments (term policy) s).IsStuck) (hc : Avoids ['=', '<', '>'] s) :
    (atom policy cs).IsStuck := by
  have hcall : (call (term policy) cs).IsStuck := by
    unfold call
    rw [bind_of_done hn]
    exact bind_of_stuck hs
  have htuple : (tuple (term policy) cs).IsStuck :=
    parenthesized_isStuck ((avoids_of_lowerName hn not_mem_brackets) '(' (by simp))
  obtain ⟨t, ht⟩ := operand_of_name (orElse_isStuck.mpr ⟨hcall, bind_of_stuck htuple⟩) hn
  exact orElse_isStuck.mpr
    ⟨relationalAtom_isStuck ht hc, typicalAtom_isStuck (predicateName_not hn)⟩

/-- **Literals and atoms.** Where a literal stands, an atom is read up to the same place or not at
all. -/
theorem atom_of_literal {b : Body} (h : literal (atom policy) (body policy) cs = .done b rest)
    (hr : Closes rest) :
    (atom policy cs).IsStuck ∨ ∃ a, atom policy cs = .done a rest := by
  rcases literal_eq_done.mp h with h | ⟨-, a, ha, -⟩
  · obtain ⟨u, s, hu, hneg⟩ := negated_of_negation h
    rcases negationSign_eq_done.mp hu with ⟨hs, hstop⟩ | hs
    · have hname : lowerName cs = .done ['n', 'o', 't'] s :=
        nameFrom_eq_done.mpr ⟨hs, rfl, hstop⟩
      rcases hneg.tuple_settles with ⟨items, r, ht⟩ | ht
      · have hend := hneg.end_of_tuple (endsAlike_below policy s.length) (Nat.le_refl _) ht
        have hoperand := operand_of_compound (compound_of_not hname ht hend hr)
        rcases hend with hend | ⟨c, q, right, hc, hright⟩
        · -- the call is the whole literal, and no atom is named by the word of negation
          rw [hend] at hoperand
          exact .inl (orElse_isStuck.mpr ⟨relationalAtom_isStuck hoperand (hr.avoids (by simp)),
            typicalAtom_isStuck (predicateName_not hname)⟩)
        · -- the call is the left side of the comparison whose left side the negation took to be
          -- a tuple
          exact .inr ⟨_, orElse_of_done
            (relationalAtom_eq_done.mpr ⟨_, c, right, r, q, hoperand, hc, hright, rfl⟩)⟩
      · exact .inl (atom_isStuck_of_not hname (hneg.arguments_isStuck ht) (hneg.avoids rfl))
    · exact .inl (atom_isStuck hs rfl (by decide))
  · exact .inr ⟨a, ha⟩

end Clausal
