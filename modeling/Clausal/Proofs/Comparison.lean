import Mathlib
import Clausal.Proofs.Continuation
import Clausal.Proofs.EntryPoints
import Clausal.Proofs.FormulaShape
import Clausal.Proofs.FormulaText

/-!
# Comparisons

A comparison is another way to write an atom of two arguments. Half of the signs
begin like the values of a call, and the left operand may end in a call. But what
follows the first character of such a sign begins no value, so the call ends there.
-/

namespace Clausal

open Lexeme Reader Reader.Unbounded

variable {policy : Policy}

/-! ## Operands -/

/-- The terms that may stand beside a comparison, with the text they are read from: no lists and no
quoted literals. -/
inductive IsOperand : List Char → Term → Prop
  | function {cs} (f : Compound) : IsOperand cs f.toTerm
  | var {cs name} : IsOperand cs (.var name)
  | int {cs n} : IsOperand cs (.const (.int n))
  | float {cs x} : IsOperand cs (.const (.float x))
  | name {cs name t} : isLowerName name = true → FirstToken name cs → IsOperand cs t

section
variable {cs rest : List Char} {t : Term}

theorem leads?_of_firstToken {name : List Char} (hn : isLowerName name = true)
    (h : FirstToken name cs) :
    leads? cs = some .lower := by
  obtain ⟨r, hj, hw⟩ := h
  exact leads?_of_lowerName (lowerName_of_junk hj hn (hw.stops_name hn .lower))

theorem quotedMeaning?_eq_str {literal inner : List Char} {c : Constant}
    (h : quotedMeaning? literal inner = some c) :
    ∃ s, c = .str s := by
  unfold quotedMeaning? at h
  split at h
  · cases h
  · split at h
    · exact ⟨_, (Option.some.inj h).symm⟩
    · split at h
      · exact ⟨_, (Option.some.inj h).symm⟩
      · cases h

theorem str_of_quote (h : lexemes policy cs = .done t rest) (hq : leads? cs = some .quote) :
    ∃ s, t = .const (.str s) := by
  obtain ⟨w, hj, hw, hm⟩ := lexemes_eq_done.mp h
  obtain ⟨c, v, l, he, -⟩ := hw.isToken.exists_lead
  subst he
  rw [leads?_eq hj] at hq
  rcases hw.isToken.of_lead with
    ⟨hl, -⟩ | ⟨hl, -⟩ | ⟨hl, -⟩ | ⟨-, inner, hquote, hi, hv⟩
  · rw [hq] at hl; cases hl
  · rw [hq] at hl; cases hl
  · rw [hq] at hl; cases hl
  · have hliteral := meaning?_literal hquote hi
    rw [List.cons_append, ← hv, hm] at hliteral
    obtain ⟨k, hk, hkt⟩ := Option.map_eq_some_iff.mp hliteral.symm
    obtain ⟨s, hs⟩ := quotedMeaning?_eq_str hk
    exact ⟨s, by rw [← hkt, hs]⟩

theorem operand_of_term (h : term policy cs = .done t rest) (ho : IsOperand cs t) :
    operand (term policy) policy cs = .done t rest := by
  rcases term_eq_done.mp h with ⟨f, hf, he⟩ | ⟨hc, ⟨items, hi, he⟩ | ⟨-, hx⟩⟩
  · rw [he]
    exact operand_of_compound hf
  · cases ho with
    | name hn hfirst =>
      -- a list does not begin with a name
      have hlist : (list policy cs).IsStuck := list_isStuck fun c hc r hr => by
        have hlead := leads?_of_firstToken hn hfirst
        rw [List.mem_singleton.mp hc] at hr
        rw [leads?_eq_none hr rfl] at hlead
        cases hlead
      exact absurd hi (hlist.ne_done items rest)
    | _ => cases he
  · have hquote : leads? cs ≠ some .quote := by
      intro hq
      obtain ⟨s, hs⟩ := str_of_quote hx hq
      cases ho with
      | name hn hfirst =>
        rw [leads?_of_firstToken hn hfirst] at hq
        cases hq
      | _ => cases hs
    exact (orElse_eq_done_of_stuck (map_isStuck.mpr hc)).mpr
      (operandLexemes_eq_done.mpr ⟨hx, hquote⟩)

theorem IsOperand.append_feed (h : IsOperand cs t) (tail : List Char) :
    IsOperand (cs ++ '\n' :: tail) t := by
  cases h with
  | function f => exact .function f
  | var => exact .var
  | int => exact .int
  | float => exact .float
  | name hn hfirst =>
    obtain ⟨r, hj, hw⟩ := hfirst
    have hj' := hj.append_feed tail
    rw [List.append_assoc] at hj'
    exact .name hn ⟨_, hj', hw.append_feed tail⟩

/-! ## Signs -/

theorem head?_ne_of_term {c : Char} (h : term policy cs = .done t rest) (hs : isSolid c = true)
    (hl : lead? c = none) (hc : c ∉ ['(', '[']) : cs.head? ≠ some c := by
  intro he
  cases cs with
  | nil => cases he
  | cons d cs =>
    rw [List.head?_cons, Option.some.injEq] at he
    subst he
    exact (term_isStuck (skipJunk_solid hs cs) hl hc).ne_done t rest h

theorem comparison_of_sign {c : Comparison} (hj : Junk cs (c.sign ++ rest))
    (hr : rest.head? ≠ some '=') :
    comparison cs = .done c rest := by
  have hskip : skipJunk cs = c.sign ++ rest := by
    cases c
    all_goals exact skipJunk_of_junk rfl hj
  refine comparison_eq_done.mpr ⟨hskip, fun hc hpre => ?_⟩
  -- the sign would be another one if its first character were followed by that of an equation
  subst hc
  rw [hskip] at hpre
  obtain ⟨s, hs⟩ := hpre
  simp only [Comparison.sign, List.cons_append, List.nil_append, List.cons.injEq, true_and] at hs
  exact hr (by rw [← hs]; rfl)

/-- No sign of a comparison is part of the term in front of it. -/
theorem halts_of_comparison {c : Comparison} (h : comparison cs = .done c rest) : Halts policy cs :=
  ⟨avoids_of_comparison h (by decide), values_isStuck_of_comparison h⟩

end

/-! ## Atoms -/

section
variable {l r : Term} {left right : String} (hl : Term.parse left = .ok l)
  (hr : Term.parse right = .ok r)
include hl hr

theorem parse_with_sign (c : Comparison) (hleft : IsOperand left.toList l)
    (hright : IsOperand right.toList r) :
    Atom.parse (left ++ "\n" ++ String.ofList c.sign ++ right) = .ok (.compare c l r) := by
  obtain ⟨rest, hr, hnil⟩ := Term.parse_iff.mp hr
  obtain ⟨s, hl, hs⟩ := derives_of_parse (c.sign ++ right.toList) hl
  have hsign : comparison s = .done c right.toList :=
    comparison_of_sign hs (head?_ne_of_term hr rfl rfl (by decide))
  have hterm : term .commit (left.toList ++ '\n' :: (c.sign ++ right.toList)) = .done l s :=
    readsHalting_of_derives hl (halts_of_comparison hsign)
  have hatom : atom .commit (left.toList ++ '\n' :: (c.sign ++ right.toList)) =
      .done (.compare c l r) rest := by
    apply orElse_of_done
    exact relationalAtom_eq_done.mpr
      ⟨l, c, r, s, right.toList, operand_of_term hterm (hleft.append_feed _), hsign,
        operand_of_term hr hright, rfl⟩
  rw [Atom.parse_iff]
  exact ⟨rest, by simpa using hatom, hnil⟩

theorem parse_call_of_two {name : String} (hn : isLowerName name.toList = true)
    (hne : name ≠ "not") :
    Atom.parse (name ++ "(" ++ left ++ "\n," ++ right ++ "\n)") = .ok ⟨name, [l, r]⟩ := by
  obtain ⟨q, hr, hq⟩ := derives_of_parse [')'] hr
  obtain ⟨s, hl, hs⟩ := derives_of_parse (',' :: (right.toList ++ '\n' :: [')'])) hl
  have hargs : Derives (.arguments [l, r])
      ('(' :: (left.toList ++ '\n' :: ',' :: (right.toList ++ '\n' :: [')']))) [] :=
    .arguments (.group .none (.more hl hs (.one hr)) hq)
  have hnot : name.toList ≠ ['n', 'o', 't'] := fun he => hne (String.toList_injective he)
  have hatom : atom .commit
      (name.toList ++ ('(' :: (left.toList ++ '\n' :: ',' :: (right.toList ++ '\n' :: [')'])))) =
        .done ⟨String.ofList name.toList, [l, r]⟩ [] :=
    atom_of_call .none hn hnot hargs (avoids_of_nil rfl)
  rw [String.ofList_toList] at hatom
  rw [Atom.parse_iff]
  exact ⟨[], by simpa using hatom, rfl⟩

end

/-- **Comparisons.** An operand, the sign of a comparison and another operand are parsed as the atom
that the predicate of the comparison makes of both. -/
theorem parse_comparison (c : Comparison) {l r : Term} {left right : String}
    (hl : Term.parse left = .ok l) (hr : Term.parse right = .ok r) (hleft : IsOperand left.toList l)
    (hright : IsOperand right.toList r) :
    Atom.parse (left ++ "\n" ++ String.ofList c.sign ++ right) = .ok ⟨c.predicate, [l, r]⟩ ∧
    Atom.parse (c.predicate ++ "(" ++ left ++ "\n," ++ right ++ "\n)") =
      .ok ⟨c.predicate, [l, r]⟩ := by
  obtain ⟨hname, hne⟩ := predicate_wellFormed c
  exact ⟨parse_with_sign hl hr c hleft hright, parse_call_of_two hl hr hname hne⟩

theorem parse_comparison_of_sample :
    Term.parse "f(X) = g() = 1 % f" =
      .ok (.compound "f" [.var "X"] [.compound "g" [] [.const (.int 1)]]) ∧
    Term.parse "true" = .ok (.const (.bool true)) ∧
    IsOperand "true".toList (.const (.bool true)) ∧
    Atom.parse "f(X) = g() = 1 % f\n=<true" = .ok
      ⟨"lessThanEq",
        [.compound "f" [.var "X"] [.compound "g" [] [.const (.int 1)]], .const (.bool true)]⟩ ∧
    Atom.parse "lessThanEq(f(X) = g() = 1 % f\n,true\n)" = .ok
      ⟨"lessThanEq", [.compound "f" [.var "X"] [.compound "g" [] [.const (.int 1)]],
        .const (.bool true)]⟩ := by
  have hleft : Term.parse "f(X) = g() = 1 % f" =
      .ok (.compound "f" [.var "X"] [.compound "g" [] [.const (.int 1)]]) := by cbv
  have hright : Term.parse "true" = .ok (.const (.bool true)) := by cbv
  have hfirst : FirstToken ['t', 'r', 'u', 'e'] "true".toList :=
    ⟨[], .none, longest_lower (by decide) (stops_nil _)⟩
  have hname : IsOperand "true".toList (.const (.bool true)) := .name (by decide) hfirst
  obtain ⟨hsign, hcall⟩ :=
    parse_comparison .lessOrEqual hleft hright (.function ⟨"f", [.var "X"], _⟩) hname
  exact ⟨hleft, hright, hname, hsign, hcall⟩

end Clausal
