import Mathlib
import Clausal.Construct
import Clausal.Fragment
import Clausal.Proofs.Faithful

/-!
# Failures

Why a text is not parsed: the reader has got stuck before an end of it, or a
lexeme in it has no meaning. No failure is owed to a bound on nesting or on
repetition.
-/

namespace Clausal

open Lexeme Reader

variable {α : Type} {policy : Policy}

theorem complete_eq_error {target : Kind} {p : Reader α} {cs : List Char} {e : ReadError}
    (hp : (p cs).Faithful policy cs) (h : complete target p cs = .error e) :
    (∃ rest, e = .unexpected target rest ∧ rest.toList <:+ cs) ∨
    policy = .commit ∧ ∃ w, e = .unclassified w ∧ w.toList <:+: cs ∧
    meaning? w.toList = none ∧
      Unclassifiable w.toList := by
  simp only [complete] at h
  cases hr : p cs with
  | done x rest =>
    simp only [hr] at h hp
    cases hj : skipJunk rest with
    | nil => simp [hj] at h
    | cons c ds =>
      simp only [hj, Except.error.injEq] at h
      have hsuffix : c :: ds <:+ rest := hj ▸ skipJunk_suffix rest
      exact .inl ⟨_, h.symm, by rw [String.toList_ofList]; exact hsuffix.trans hp⟩
  | stuck rest =>
    simp only [hr, Except.error.injEq] at h hp
    exact .inl ⟨_, h.symm, by rw [String.toList_ofList]; exact hp⟩
  | rejected w =>
    simp only [hr, Except.error.injEq] at h hp
    exact .inr ⟨hp.1, _, h.symm, by rw [String.toList_ofList]; exact hp.2⟩
  | exhausted =>
    rw [hr] at hp
    cases hp

/-- The bound of the entry point for this kind runs out on the text. -/
def RunsOut (cs : List Char) : Kind → Prop
  | .term => term .commit (boundFor cs) cs = .exhausted
  | .list => list .commit (boundFor cs) cs = .exhausted
  | .compound => compound (term .commit (boundFor cs)) cs = .exhausted
  | .atom => atom .commit (boundFor cs) cs = .exhausted
  | .body => closedBody .commit (boundFor cs) cs = .exhausted
  | .rule => rule .commit (boundFor cs) cs = .exhausted
  | .formula => formula .commit (boundFor cs) cs = .exhausted
  | .directive => directive cs = .exhausted
  | .signature => False

theorem construct_error {target : Kind} {p : Reader α} {f : α → Construct} {cs : List Char}
    {e : Error} (hp : (p cs).Faithful policy cs) (hd : policy = .commit → target ≠ .directive)
    (h : ((complete target p cs).map f).mapError .read = .error e) :
    (∃ rest, e = .read (.unexpected target rest) ∧ rest.toList <:+ cs) ∨
    target ≠ .directive ∧ ∃ w, e = .read (.unclassified w) ∧ w.toList <:+: cs ∧
      (Fragment.lexeme w).classify = .error (.unclassified w) ∧ Unclassifiable w.toList := by
  cases hr : complete target p cs with
  | ok x =>
    rw [hr] at h
    cases h
  | error e' =>
    rw [hr] at h
    cases h
    rcases complete_eq_error hp hr with ⟨rest, he, hrest⟩ | ⟨hc, w, he, hw, hm, hu⟩
    · subst he
      exact .inl ⟨rest, rfl, hrest⟩
    · subst he
      exact .inr ⟨hd hc, w, rfl, hw, by simp only [Fragment.classify, hm], hu⟩

/-- **Failures are faithful to the text.** A text of any kind but a signature that is not parsed has
an end that the kind does not fit, or a part that is a lexeme without meaning: a quoted literal or a
large number. No bound runs out. -/
theorem parse_error_faithful {kind : Kind} (hk : kind ≠ .signature) (text : String) :
    ¬ RunsOut text.toList kind ∧
    ∀ e, Construct.parse kind text = .error e →
      (∃ rest, e = .read (.unexpected kind rest) ∧ rest.toList <:+ text.toList) ∨
      kind ≠ .directive ∧ ∃ w, e = .read (.unclassified w) ∧ w.toList <:+: text.toList ∧
        (Fragment.lexeme w).classify = .error (.unclassified w) ∧ Unclassifiable w.toList := by
  have hn : text.toList.length < boundFor text.toList := Nat.lt_succ_self _
  have ht := faithful_term_list .commit (boundFor text.toList)
  cases kind with
  | term =>
    have h := ht.1 text.toList hn
    exact ⟨h.ne_exhausted, fun e => construct_error h (by simp)⟩
  | list =>
    have h := ht.2 text.toList hn
    exact ⟨h.ne_exhausted, fun e => construct_error h (by simp)⟩
  | compound =>
    have h := faithful_compound (consumes_term_list .commit _).1 ht.1 (Nat.le_of_lt hn)
    exact ⟨h.ne_exhausted, fun e => construct_error h (by simp)⟩
  | atom =>
    have h := faithful_atom .commit (Nat.le_of_lt hn)
    exact ⟨h.ne_exhausted, fun e => construct_error h (by simp)⟩
  | body =>
    have h := faithful_closedBody .commit hn
    exact ⟨h.ne_exhausted, fun e => construct_error h (by simp)⟩
  | rule =>
    have h := faithful_rule .commit hn
    exact ⟨h.ne_exhausted, fun e => construct_error h (by simp)⟩
  | formula =>
    have h := faithful_formula .commit hn
    exact ⟨h.ne_exhausted, fun e => construct_error h (by simp)⟩
  | directive =>
    have h : (directive text.toList).Faithful .backtrack text.toList := faithful_directive _
    exact ⟨h.ne_exhausted, fun e => construct_error h (by simp)⟩
  | signature => exact absurd rfl hk

theorem parse_error_faithful_of_sample :
    Construct.parse .term "[1, -9223372036854775809]" =
      .error (.read (.unclassified "-9223372036854775809")) ∧
    ¬ RunsOut "[1, -9223372036854775809]".toList .term ∧
    "-9223372036854775809".toList <:+: "[1, -9223372036854775809]".toList ∧
    Unclassifiable "-9223372036854775809".toList := by
  have hparse : Construct.parse .term "[1, -9223372036854775809]" =
      .error (.read (.unclassified "-9223372036854775809")) := by cbv
  have hkind : Kind.term ≠ .signature := by decide
  obtain ⟨hbound, hfaithful⟩ := parse_error_faithful hkind "[1, -9223372036854775809]"
  refine ⟨hparse, hbound, ?_⟩
  rcases hfaithful _ hparse with ⟨rest, he, -⟩ | ⟨-, w, he, hw, -, hu⟩
  · cases he
  · cases he
    exact ⟨hw, hu⟩

end Clausal
