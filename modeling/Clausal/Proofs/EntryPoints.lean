import Clausal.Proofs.Negation
import Clausal.Proofs.Parse

/-!
# The entry points agree

Each construct that is also a case of a larger one is parsed as that case. For
bodies this is so since reading a rule is stuck where a body stands, and never
ends the whole reading there.
-/

namespace Clausal

open Lexeme Reader

variable {policy : Policy} {cs : List Char}

/-! ## Terms -/

theorem meaning?_cases {w : List Char} {t : Term} (h : meaning? w = some t) :
    (∃ name, t = .var name) ∨ ∃ c, t = .const c := by
  unfold meaning? at h
  split at h
  · obtain ⟨c, -, hc⟩ := Option.map_eq_some_iff.mp h
    exact .inr ⟨c, hc.symm⟩
  · split at h
    · split at h
      all_goals exact .inr ⟨_, (Option.some.inj h).symm⟩
    · split at h
      · exact .inl ⟨_, (Option.some.inj h).symm⟩
      · obtain ⟨c, -, hc⟩ := Option.map_eq_some_iff.mp h
        exact .inr ⟨c, hc.symm⟩

theorem leaf_of_lexemes {rest : List Char} {t : Term} (h : lexemes policy cs = .done t rest) :
    (∃ name, t = .var name) ∨ ∃ c, t = .const c := by
  obtain ⟨w, -, -, hm⟩ := lexemes_eq_done.mp h
  exact meaning?_cases hm

theorem takes_compound {f : Compound} :
    Takes (compound (Unbounded.term policy)) f cs ↔
      Takes (Unbounded.term policy) f.toTerm cs := by
  constructor
  · intro h
    obtain ⟨rest, hf, hr⟩ := h
    exact ⟨rest, Unbounded.term_eq_done.mpr (.inl ⟨f, hf, rfl⟩), hr⟩
  · intro h
    obtain ⟨rest, ht, hr⟩ := h
    refine ⟨rest, ?_, hr⟩
    rcases Unbounded.term_eq_done.mp ht with
      ⟨g, hg, he⟩ | ⟨-, ⟨items, -, he⟩ | ⟨-, hx⟩⟩
    · obtain ⟨name, args, values⟩ := f
      simp only [Compound.toTerm, Term.compound.injEq] at he
      rw [he.1, he.2.1, he.2.2]
      exact hg
    · cases he
    · rcases leaf_of_lexemes hx with ⟨name, he⟩ | ⟨c, he⟩
      all_goals cases he

theorem takes_list {items : List Term} :
    Takes (Unbounded.list policy) items cs ↔ Takes (Unbounded.term policy) (.list items) cs := by
  constructor
  · intro h
    obtain ⟨rest, hi, hr⟩ := h
    exact ⟨rest, reads_of_derives (.list (derives_of_list hi)) (avoids_of_nil hr), hr⟩
  · intro h
    obtain ⟨rest, ht, hr⟩ := h
    refine ⟨rest, ?_, hr⟩
    rcases Unbounded.term_eq_done.mp ht with
      ⟨g, hg, he⟩ | ⟨-, ⟨items', hi, he⟩ | ⟨-, hx⟩⟩
    · cases he
    · rw [Term.list.injEq] at he
      rw [he]
      exact hi
    · rcases leaf_of_lexemes hx with ⟨name, he⟩ | ⟨c, he⟩
      all_goals cases he

/-! ## Formulas -/

theorem takes_closedBody {b : Body} : Takes (Unbounded.closedBody policy) b cs ↔
    ∃ r, Unbounded.body policy cs = .done b r ∧ AtEnd r := by
  constructor
  · intro h
    obtain ⟨rest, h, hrest⟩ := h
    simp only [Unbounded.closedBody, bind_eq_done, pure_eq_done] at h
    obtain ⟨c, r, hb, o, s, hperiod, hc, hs⟩ := h
    subst hc hs
    exact ⟨r, hb, takes_period.mp ⟨o, s, hperiod, hrest⟩⟩
  · intro h
    obtain ⟨r, hb, hend⟩ := h
    obtain ⟨o, rest, hperiod, hrest⟩ := takes_period.mpr hend
    refine ⟨rest, ?_, hrest⟩
    simp only [Unbounded.closedBody, bind_eq_done, pure_eq_done]
    exact ⟨b, r, hb, o, rest, hperiod, rfl, rfl⟩

/-- A literal that takes the whole text is a body. -/
theorem takes_closedBody_of_literal {l : Body}
    (h : Takes (literal (Unbounded.atom policy) (Unbounded.body policy)) l cs) :
    Takes (Unbounded.closedBody policy) l cs := by
  obtain ⟨rest, hl, hr⟩ := h
  have hcomma : (mark ',' rest).IsStuck :=
    mark_isStuck_of_avoids (avoids_of_nil hr) (List.mem_singleton.mpr rfl)
  refine takes_closedBody.mpr ⟨rest, ?_, .inl hr⟩
  rw [Unbounded.body_apply,
    anyBody_eq_done (Unbounded.consumes_atom policy) (Unbounded.consumes_body policy)]
  exact ⟨l, [], rest, hl, .nil (bind_of_stuck hcomma), rfl⟩

/-- Where a body takes the whole text no rule stands, and the attempt to read one is stuck. -/
theorem rule_isStuck {b : Body} (h : Takes (Unbounded.closedBody policy) b cs) :
    (Unbounded.rule policy cs).IsStuck := by
  obtain ⟨r, hb, hr⟩ := takes_closedBody.mp h
  rw [Unbounded.body_apply,
    anyBody_eq_done (Unbounded.consumes_atom policy) (Unbounded.consumes_body policy)] at hb
  obtain ⟨first, others, s, hf, ho, -⟩ := hb
  -- a comma, a period or nothing stands behind the first literal, and no neck
  have hs : Closes s := by
    cases ho with
    | nil _ =>
      rcases hr with hr | ⟨q, hq, -⟩
      · exact closes_of_nil hr
      · exact closes_of_skipJunk hq (by simp)
    | cons hx _ =>
      obtain ⟨u, q, hm, -⟩ := bind_eq_done.mp hx
      exact closes_of_skipJunk (mark_eq_done.mp hm) (by simp)
  rcases atom_of_literal hf hs with ha | ⟨a, ha⟩
  · exact bind_of_stuck ha
  · unfold Unbounded.rule
    rw [bind_of_done ha]
    refine bind_of_stuck ((plain_symbol _).isStuck_iff.mpr fun u q hq => ?_)
    have havoid : Avoids [':'] s := hs.avoids (by simp)
    exact havoid ':' (by simp) ('-' :: q) (symbol_eq_done.mp hq)

theorem takes_formula_rule {r : Rule} :
    Takes (Unbounded.formula policy) (.rule r) cs ↔ Takes (Unbounded.rule policy) r cs := by
  simp only [Takes, Unbounded.formula, orElse_eq_done, bind_eq_done, pure_eq_done]
  constructor
  · intro h
    obtain ⟨rest, ⟨q, s, hq, he, hs⟩ | ⟨-, b, s, -, he, -⟩, hr⟩ := h
    · rw [Formula.rule.injEq] at he
      subst he hs
      exact ⟨s, hq, hr⟩
    · cases he
  · intro h
    obtain ⟨rest, hq, hr⟩ := h
    exact ⟨rest, .inl ⟨r, rest, hq, rfl, rfl⟩, hr⟩

theorem takes_formula_body {b : Body} :
    Takes (Unbounded.formula policy) (.body b) cs ↔ Takes (Unbounded.closedBody policy) b cs := by
  constructor
  · intro h
    simp only [Takes, Unbounded.formula, orElse_eq_done, bind_eq_done, pure_eq_done] at h
    obtain ⟨rest, ⟨q, s, -, he, -⟩ | ⟨-, c, s, hc, he, hs⟩, hr⟩ := h
    · cases he
    · rw [Formula.body.injEq] at he
      subst he hs
      exact ⟨s, hc, hr⟩
  · intro h
    have hstuck := rule_isStuck h
    obtain ⟨rest, hb, hr⟩ := h
    refine ⟨rest, orElse_eq_done.mpr (.inr ⟨map_isStuck.mpr hstuck, ?_⟩), hr⟩
    rw [bind_of_done hb]
    rfl

def FirstToken (w cs : List Char) : Prop := ∃ rest, Junk cs (w ++ rest) ∧ Longest w rest

theorem takes_body_of_atom {a : Atom} (h : Takes (Unbounded.atom policy) a cs)
    (hn : ¬ FirstToken ['n', 'o', 't'] cs) : Takes (Unbounded.closedBody policy) (.atom a) cs := by
  obtain ⟨rest, ha, hr⟩ := h
  have hsign : (negationSign cs).IsStuck := by
    apply plain_negationSign.isStuck_iff.mpr
    intro u s hu
    rcases negationSign_eq_done.mp hu with ⟨hs, hstop⟩ | hs
    · exact hn ⟨s, junk_of_skipJunk hs, longest_lower rfl hstop⟩
    · exact (Unbounded.atom_isStuck hs rfl (by decide)).ne_done a rest ha
  exact takes_closedBody_of_literal
    ⟨rest, literal_eq_done.mpr (.inr ⟨bind_of_stuck hsign, a, ha, rfl⟩), hr⟩

/-- **Agreement.** On every text the entry points of smaller constructs do what those of larger ones
do: functions and lists are terms, rules and bodies are formulas, and an atom is a body unless the
word of negation is its first token. -/
theorem entry_points_agree (text : String) :
    (∀ f, Compound.parse text = .ok f ↔ Term.parse text = .ok f.toTerm) ∧
    (∀ items, Term.parseList text = .ok items ↔ Term.parse text = .ok (.list items)) ∧
    (∀ r, Rule.parse text = .ok r ↔ Formula.parse text = .ok (.rule r)) ∧
    (∀ b, Body.parse text = .ok b ↔ Formula.parse text = .ok (.body b)) ∧
    ∀ a, Atom.parse text = .ok a → ¬ FirstToken ['n', 'o', 't'] text.toList →
      Body.parse text = .ok (.atom a) := by
  refine ⟨fun f => ?_, fun items => ?_, fun r => ?_, fun b => ?_, fun a ha hn => ?_⟩
  · rw [Compound.parse_iff, Term.parse_iff, takes_compound]
  · rw [Term.parseList_iff, Term.parse_iff, takes_list]
  · rw [Rule.parse_iff, Formula.parse_iff, takes_formula_rule]
  · rw [Body.parse_iff, Formula.parse_iff, takes_formula_body]
  · rw [Body.parse_iff]
    exact takes_body_of_atom (Atom.parse_iff.mp ha) hn

theorem comparison_text_is_body :
    Body.parse "X =< 1" = .ok (.atom ⟨"lessThanEq", [.var "X", .const (.int 1)]⟩) := by
  have hatom : Atom.parse "X =< 1" = .ok ⟨"lessThanEq", [.var "X", .const (.int 1)]⟩ := by rfl
  refine (entry_points_agree "X =< 1").2.2.2.2 _ hatom fun h => ?_
  obtain ⟨rest, hj, -⟩ := h
  have hchars : skipJunk "X =< 1".toList = ['X', ' ', '=', '<', ' ', '1'] := by decide
  have hnot := skipJunk_of_junk rfl hj
  rw [hchars] at hnot
  exact absurd (List.cons.inj hnot).1 (by decide)

end Clausal
