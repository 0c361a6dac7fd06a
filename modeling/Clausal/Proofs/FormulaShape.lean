import Clausal.Proofs.FormulaReader
import Clausal.Proofs.GrammarSound
import Clausal.Proofs.TermShape

/-!
# What is read as a formula is well formed and left-nested

Comparisons become atoms under names of their own. By induction on the length of
the text, infinite floats aside.
-/

namespace Clausal

open Lexeme Reader Reader.Unbounded

variable {policy : Policy}

/-! ## Atoms -/

theorem predicate_wellFormed (c : Comparison) :
    isLowerName c.predicate.toList = true ∧ c.predicate ≠ "not" := by
  cases c
  all_goals exact ⟨by decide, by decide⟩

theorem operand_shaped {t : Term} {cs rest : List Char}
    (h : operand (term policy) policy cs = .done t rest) (hf : NoInfinity t.constants) :
    t.WellFormed :=
  (derives_of_term (term_of_operand h)).shaped hf

theorem atom_shaped {a : Atom} {cs rest : List Char} (h : atom policy cs = .done a rest)
    (hf : NoInfinity a.constants) : a.WellFormed := by
  have hargs := noInfinity_constantsOf.mp hf
  rcases orElse_eq_done.mp h with h | ⟨-, h⟩
  · obtain ⟨left, c, right, r, s, hl, -, hr, ha⟩ := relationalAtom_eq_done.mp h
    subst ha
    have ⟨hname, hne⟩ := predicate_wellFormed c
    have hleft := operand_shaped hl (hargs left (by simp [Atom.compare]))
    have hright := operand_shaped hr (hargs right (by simp [Atom.compare]))
    refine ⟨hname, hne, ?_⟩
    simp [Atom.compare, hleft, hright]
  · obtain ⟨name, r, hn, h⟩ := typicalAtom_eq_done.mp h
    obtain ⟨hlower, hne⟩ := predicateName_eq_done.mp hn
    have hname : isLowerName (String.ofList name).toList = true := by
      rw [String.toList_ofList]
      exact (nameFrom_eq_done.mp hlower).2.1
    have hnot : String.ofList name ≠ "not" :=
      fun he => hne (by rw [← String.toList_ofList (l := name), he]; rfl)
    rcases h with ⟨args, ha, he⟩ | ⟨-, -, he⟩
    · subst he
      exact ⟨hname, hnot, (derives_of_arguments ha).shaped.wellFormed hf⟩
    · subst he
      exact ⟨hname, hnot, by simp⟩

/-! ## Literals and bodies -/

structure Body.Shaped (b : Body) : Prop where
  wellFormed : NoInfinity b.constants → b.WellFormed
  leftNested : b.leftNested = b

theorem shaped_atom {a : Atom} {cs rest : List Char} (h : atom policy cs = .done a rest) :
    (Body.atom a).Shaped :=
  ⟨fun hf => .atom (atom_shaped h hf), rfl⟩

theorem Body.Shaped.neg {b : Body} (h : b.Shaped) : (Body.neg b).Shaped := by
  refine ⟨fun hf => .neg (h.wellFormed hf), ?_⟩
  unfold Body.leftNested
  rw [h.leftNested]

theorem wellFormed_join {first : Body} {others : List Body}
    (h : ∀ b ∈ first :: others, NoInfinity b.constants → b.WellFormed)
    (hf : NoInfinity (first.join others).constants) : (first.join others).WellFormed := by
  induction others generalizing first with
  | nil => exact h first (by simp) hf
  | cons b others ih =>
    refine ih (fun c hc => ?_) hf
    rcases List.mem_cons.mp hc with hc | hc
    · subst hc
      intro hf
      obtain ⟨hfirst, hb⟩ := noInfinity_union.mp hf
      exact .conj (h first (by simp) hfirst) (h b (by simp) hb)
    · exact h c (by simp [hc])

theorem Body.Shaped.join {first : Body} {others : List Body}
    (h : ∀ b ∈ first :: others, b.Shaped) (hl : ∀ b ∈ first :: others, b.IsLiteral) :
    (first.join others).Shaped := by
  refine ⟨wellFormed_join fun b hb => (h b hb).wellFormed, ?_⟩
  have hfirst : first.literals = [first] := hl first (by simp)
  have hlits : (first.join others).literals = first :: others := by
    rw [literals_join, hfirst, flatMap_literals fun b hb => hl b (by simp [hb])]
    rfl
  have hmap : others.map Body.leftNested = others :=
    (List.map_congr_left fun b hb => (h b (by simp [hb])).leftNested).trans (List.map_id _)
  rw [leftNested_of_literals hlits, (h first (by simp)).leftNested, hmap]

section
variable {k : Nat} (hb : ∀ (cs : List Char) b rest, cs.length < k →
  body policy cs = .done b rest → b.Shaped)
include hb

theorem literal_shaped {l : Body} {cs rest : List Char} (hk : cs.length ≤ k)
    (h : literal (atom policy) (body policy) cs = .done l rest) : l.Shaped ∧ l.IsLiteral := by
  rcases literal_eq_done.mp h with h | ⟨-, a, ha, he⟩
  · obtain ⟨u, r, hu, h⟩ := negation_eq_done.mp h
    have hr := consumes_negationSign _ _ _ hu
    rcases h with ⟨a, ha, he⟩ | ⟨-, ⟨a, ha, he⟩ | ⟨-, c, hc, he⟩⟩
    · subst he
      exact ⟨(shaped_atom ha).neg, rfl⟩
    · obtain ⟨s, t, -, ha, -⟩ := parenthesized_eq_done.mp ha
      subst he
      exact ⟨(shaped_atom ha).neg, rfl⟩
    · obtain ⟨s, t, hs, hc, -⟩ := parenthesized_eq_done.mp hc
      have hlen := length_lt_of_skipJunk (w := ['(']) hs (by simp)
      subst he
      exact ⟨(hb s c t (by omega) hc).neg, rfl⟩
  · subst he
    exact ⟨shaped_atom ha, rfl⟩

theorem literals_shaped {ls : List Body} {cs rest : List Char} (hk : cs.length ≤ k)
    (h : Repeats (do mark ','; literal (atom policy) (body policy)) ls cs rest) :
    ∀ l ∈ ls, l.Shaped ∧ l.IsLiteral := by
  induction h with
  | nil _ => simp
  | cons hx _ ih =>
    obtain ⟨u, s, hm, hx⟩ := bind_eq_done.mp hx
    have hs := consumes_mark _ _ _ _ hm
    have hr := consumes_literal (consumes_atom policy) (consumes_body policy) _ _ _ hx
    exact List.forall_mem_cons.mpr ⟨literal_shaped hb (by omega) hx, ih (by omega)⟩

end

theorem body_shaped_below (k : Nat) : ∀ (cs : List Char) b rest, cs.length < k →
    body policy cs = .done b rest → b.Shaped := by
  induction k with
  | zero => exact fun _ _ _ hk => absurd hk (Nat.not_lt_zero _)
  | succ k ih =>
    intro cs b rest hk h
    rw [body_apply, anyBody_eq_done (consumes_atom policy) (consumes_body policy)] at h
    obtain ⟨first, others, r, hf, ho, he⟩ := h
    have hr := consumes_literal (consumes_atom policy) (consumes_body policy) _ _ _ hf
    have hall : ∀ l ∈ first :: others, l.Shaped ∧ l.IsLiteral :=
      List.forall_mem_cons.mpr
        ⟨literal_shaped ih (by omega) hf, literals_shaped ih (by omega) ho⟩
    subst he
    exact .join (fun l hl => (hall l hl).1) fun l hl => (hall l hl).2

/-- **Shape of bodies.** A body that is read is well formed, infinite floats aside, and
left-nested. -/
theorem body_shaped {b : Body} {cs rest : List Char} (h : body policy cs = .done b rest) :
    b.Shaped :=
  body_shaped_below (cs.length + 1) cs b rest (Nat.lt_succ_self _) h

end Clausal
