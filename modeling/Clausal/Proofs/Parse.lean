import Clausal.Parse
import Clausal.Proofs.GrammarComplete

/-!
# Whole texts

A text is parsed if its reader takes all of it but junk. The length of a text
bounds what nests in it, so parsing does what the readers without a bound do.
-/

namespace Clausal

open Reader

variable {α : Type} {policy : Policy}

/-- The reader takes the whole text, up to junk at its end. -/
def Takes (p : Reader α) (x : α) (cs : List Char) : Prop :=
  ∃ rest, p cs = .done x rest ∧ skipJunk rest = []

namespace Reader

theorem complete_eq_ok {target : Kind} {p : Reader α} {cs : List Char} {x : α} :
    complete target p cs = .ok x ↔ Takes p x cs := by
  unfold complete Takes
  cases hp : p cs with
  | done y rest =>
    simp only [Reply.done.injEq]
    cases hr : skipJunk rest with
    | nil =>
      simp only [Except.ok.injEq]
      constructor
      · intro h; exact ⟨rest, ⟨h, rfl⟩, hr⟩
      · intro h
        obtain ⟨_, ⟨h, -⟩, -⟩ := h
        exact h
    | cons c cs =>
      simp only [reduceCtorEq, false_iff]
      intro h
      obtain ⟨r, ⟨-, hr'⟩, hj⟩ := h
      rw [hr', hj] at hr; cases hr
  | _ => simp

/-- What stands here is at most a period, up to junk. -/
def AtEnd (cs : List Char) : Prop :=
  skipJunk cs = [] ∨ ∃ rest, skipJunk cs = '.' :: rest ∧ skipJunk rest = []

theorem takes_period {cs : List Char} : (∃ o, Takes (optional period) o cs) ↔ AtEnd cs := by
  unfold Takes AtEnd period
  simp only [optional_eq_done, mark_eq_done]
  constructor
  · intro h
    obtain ⟨o, rest, ⟨u, -, hp⟩ | ⟨-, he, -⟩, hrest⟩ := h
    · exact .inr ⟨rest, hp, hrest⟩
    · exact .inl (he ▸ hrest)
  · intro h
    rcases h with h | ⟨rest, hp, hrest⟩
    · exact ⟨none, cs, .inr
        ⟨rfl, rfl, mark_isStuck_of_avoids (avoids_of_nil h) (List.mem_singleton.mpr rfl)⟩, h⟩
    · exact ⟨some (), rest, .inl ⟨(), rfl, hp⟩, hrest⟩

/-- A bound that makes no difference to a text can be left out. -/
theorem parseUnder_eq_ok {target : Kind} {p : Nat → Reader α} {q : Reader α} {text : String}
    {x : α} (h : ∀ n cs, cs.length < n → p n cs = q cs) :
    parseUnder target p text = .ok x ↔ Takes q x text.toList := by
  unfold parseUnder
  rw [complete_eq_ok]
  unfold Takes
  rw [h (boundFor text.toList) text.toList (Nat.lt_succ_self _)]

namespace Unbounded

variable (policy)

def rule : Reader Rule := do
  let head ← atom policy
  neck
  let b ← body policy
  period
  return ⟨head, b⟩

def closedBody : Reader Body := do
  let b ← body policy
  let _ ← optional period
  return b

def formula : Reader Formula :=
  (do let r ← rule policy; return .rule r) <|>
  (do let b ← closedBody policy; return .body b)

variable {n : Nat} {cs : List Char} (hn : cs.length < n)
include hn

theorem rule_eq : Reader.rule policy n cs = rule policy cs := by
  apply bind_congr (atom_eq policy (Nat.le_of_lt hn))
  intro head r hr
  rw [atom_eq policy (Nat.le_of_lt hn)] at hr
  have hlen := consumes_atom policy _ _ _ hr
  apply bind_congr rfl
  intro u s hs
  have hlen' := consumes_symbol (by simp) _ _ _ hs
  exact bind_congr (body_eq policy (by omega)) fun _ _ _ => rfl

theorem closedBody_eq : Reader.closedBody policy n cs = closedBody policy cs :=
  bind_congr (body_eq policy hn) fun _ _ _ => rfl

theorem formula_eq : Reader.formula policy n cs = formula policy cs :=
  orElse_congr (bind_congr (rule_eq policy hn) fun _ _ _ => rfl)
    (bind_congr (closedBody_eq policy hn) fun _ _ _ => rfl)

end Unbounded

end Reader

variable {text : String}

theorem Term.parse_iff {t : Term} :
    Term.parse text = .ok t ↔ Takes (Unbounded.term .commit) t text.toList :=
  parseUnder_eq_ok fun _ _ hn => Unbounded.term_eq .commit hn

theorem Term.parseList_iff {items : List Term} :
    Term.parseList text = .ok items ↔ Takes (Unbounded.list .commit) items text.toList :=
  parseUnder_eq_ok fun _ _ hn => Unbounded.list_eq .commit hn

theorem parseList_of_derives {items : List Term} {rest : List Char}
    (h : Derives (.list items) text.toList rest) (hr : Junk rest []) :
    Term.parseList text = .ok items :=
  Term.parseList_iff.mpr ⟨rest, reads_of_derives h, junk_nil_iff.mp hr⟩

theorem Compound.parse_iff {f : Compound} :
    Compound.parse text = .ok f ↔ Takes (compound (Unbounded.term .commit)) f text.toList :=
  parseUnder_eq_ok (p := fun n => compound (Reader.term .commit n)) fun _ _ hn =>
    Unbounded.compound_eq .commit (Nat.le_of_lt hn)

theorem Atom.parse_iff {a : Atom} :
    Atom.parse text = .ok a ↔ Takes (Unbounded.atom .commit) a text.toList :=
  parseUnder_eq_ok fun _ _ hn => Unbounded.atom_eq .commit (Nat.le_of_lt hn)

theorem Body.parse_iff {b : Body} :
    Body.parse text = .ok b ↔ Takes (Unbounded.closedBody .commit) b text.toList :=
  parseUnder_eq_ok fun _ _ hn => Unbounded.closedBody_eq .commit hn

theorem Rule.parse_iff {r : Rule} :
    Rule.parse text = .ok r ↔ Takes (Unbounded.rule .commit) r text.toList :=
  parseUnder_eq_ok fun _ _ hn => Unbounded.rule_eq .commit hn

theorem Formula.parse_iff {φ : Formula} :
    Formula.parse text = .ok φ ↔ Takes (Unbounded.formula .commit) φ text.toList :=
  parseUnder_eq_ok fun _ _ hn => Unbounded.formula_eq .commit hn

/-- **The term grammar.** A text is parsed as a term if and only if the term derives from the
grammar, with only junk behind it. -/
theorem Term.parse_eq_ok_iff_derives (text : String) (t : Term) :
    Term.parse text = .ok t ↔ ∃ rest, Derives (.term t) text.toList rest ∧ Junk rest [] := by
  rw [Term.parse_iff]
  constructor
  · intro h
    obtain ⟨rest, hd, hr⟩ := h
    exact ⟨rest, derives_of_term hd, junk_nil_iff.mpr hr⟩
  · intro h
    obtain ⟨rest, hd, hr⟩ := h
    have hnil := junk_nil_iff.mp hr
    exact ⟨rest, reads_of_derives hd (avoids_of_nil hnil), hnil⟩

end Clausal
