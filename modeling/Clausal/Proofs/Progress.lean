import Clausal.Proofs.Lexeme
import Clausal.Reader.Formula

/-!
# Progress

What the readers of terms and formulas take off a text is never empty, as long
as this holds of the readers of what they nest.
-/

namespace Clausal.Reader

variable {α β : Type}

/-- A reader that does not make the text longer. -/
def Shrinks (p : Reader α) : Prop :=
  ∀ cs x rest, p cs = .done x rest → rest.length ≤ cs.length

theorem Consumes.shrinks {p : Reader α} (h : Consumes p) : Shrinks p :=
  fun cs x rest hp => Nat.le_of_lt (h cs x rest hp)

/-! ## Composed readers -/

theorem shrinks_pure (x : α) : Shrinks (Pure.pure x : Reader α) := by
  intro cs y rest h
  obtain ⟨-, h⟩ := pure_eq_done.mp h
  exact Nat.le_of_eq (congrArg List.length h.symm)

theorem shrinks_bind {p : Reader α} {f : α → Reader β} (hp : Shrinks p)
    (hf : ∀ x, Shrinks (f x)) :
    Shrinks (p >>= f) := by
  intro cs y rest h
  obtain ⟨x, r, h₁, h₂⟩ := bind_eq_done.mp h
  exact Nat.le_trans (hf x r y rest h₂) (hp cs x r h₁)

theorem consumes_bind {p : Reader α} {f : α → Reader β} (hp : Consumes p)
    (hf : ∀ x, Shrinks (f x)) :
    Consumes (p >>= f) := by
  intro cs y rest h
  obtain ⟨x, r, h₁, h₂⟩ := bind_eq_done.mp h
  exact Nat.lt_of_le_of_lt (hf x r y rest h₂) (hp cs x r h₁)

theorem consumes_orElse {p q : Reader α} (hp : Consumes p) (hq : Consumes q) :
    Consumes (p <|> q) := by
  intro cs x rest h
  rcases orElse_eq_done.mp h with h | ⟨-, h⟩
  · exact hp cs x rest h
  · exact hq cs x rest h

theorem shrinks_orElse {p q : Reader α} (hp : Shrinks p) (hq : Shrinks q) : Shrinks (p <|> q) := by
  intro cs x rest h
  rcases orElse_eq_done.mp h with h | ⟨-, h⟩
  · exact hp cs x rest h
  · exact hq cs x rest h

theorem shrinks_optional {p : Reader α} (hp : Shrinks p) : Shrinks (optional p) := by
  intro cs o rest h
  rcases optional_eq_done.mp h with ⟨x, -, h⟩ | ⟨-, h, -⟩
  · exact hp cs x rest h
  · exact Nat.le_of_eq (congrArg List.length h)

theorem Repeats.length_le {p : Reader α} (hp : Shrinks p) {xs : List α} {cs rest : List Char}
    (h : Repeats p xs cs rest) : rest.length ≤ cs.length := by
  induction h with
  | nil _ => exact Nat.le_refl _
  | cons hx _ ih => exact Nat.le_trans ih (hp _ _ _ hx)

theorem shrinks_many {p : Reader α} (hp : Shrinks p) : Shrinks (many p) :=
  fun _ _ _ h => (repeats_of_many h).length_le hp

theorem length_lt_of_skipJunk {cs w rest : List Char} (h : skipJunk cs = w ++ rest)
    (hw : w ≠ []) :
    rest.length < cs.length := by
  have hle := (junk_of_skipJunk h).length_le
  have hpos := List.length_pos_iff.mpr hw
  simp only [List.length_append] at hle
  omega

/-! ## Tokens -/

theorem consumes_symbol {word : List Char} (hw : word ≠ []) : Consumes (symbol word) :=
  fun _ _ _ h => length_lt_of_skipJunk (symbol_eq_done.mp h) hw

theorem consumes_nameFrom (initial : Char → Bool) : Consumes (nameFrom initial) := by
  intro cs w rest h
  obtain ⟨hj, hw, -⟩ := nameFrom_eq_done.mp h
  apply length_lt_of_skipJunk hj
  intro hnil
  rw [hnil] at hw; cases hw

theorem consumes_decimalNumeral : Consumes decimalNumeral :=
  fun _ _ _ h => length_lt_of_skipJunk (longest_of_decimalNumeral h).1
    (longest_of_decimalNumeral h).2.isToken.ne_nil

theorem consumes_wholeNumeral : Consumes wholeNumeral := by
  intro cs w rest h
  obtain ⟨hj, -, sign, whole, -, hw, he⟩ := wholeNumeral_eq_done.mp h
  apply length_lt_of_skipJunk hj
  intro hnil
  rw [he, List.append_eq_nil_iff] at hnil
  exact hw.1 hnil.2

theorem consumes_lexeme {policy : Policy} {p : Reader (List Char)} (hp : Consumes p) :
    Consumes (lexeme policy p) := by
  intro cs t rest h
  obtain ⟨w, hw, -⟩ := lexeme_eq_done.mp h
  exact hp cs w rest hw

theorem consumes_lexemes (policy : Policy) : Consumes (lexemes policy) := by
  intro cs t rest h
  obtain ⟨w, hj, hl, -⟩ := lexemes_eq_done.mp h
  exact length_lt_of_skipJunk hj hl.isToken.ne_nil

/-! ## Terms -/

theorem consumes_parenthesized {p : Reader α} (hp : Shrinks p) : Consumes (parenthesized p) :=
  consumes_bind (consumes_mark '(') fun _ => shrinks_bind hp fun _ =>
    shrinks_bind (consumes_mark ')').shrinks fun _ => shrinks_pure _

theorem consumes_comma {p : Reader α} (hp : Shrinks p) :
    Consumes (do mark ','; p) :=
  consumes_bind (consumes_mark ',') fun _ => hp

theorem consumes_commaList1 {p : Reader α} (hp : Consumes p) : Consumes (commaList1 p) :=
  consumes_bind hp fun _ => shrinks_bind (shrinks_many (consumes_comma hp.shrinks).shrinks) fun _ =>
    shrinks_pure _

theorem shrinks_commaList {p : Reader α} (hp : Consumes p) : Shrinks (commaList p) :=
  shrinks_bind (shrinks_optional (consumes_commaList1 hp).shrinks) fun _ => shrinks_pure _

section
variable {term : Reader Term} (ht : Consumes term)
include ht

theorem consumes_arguments : Consumes (arguments term) :=
  consumes_parenthesized (shrinks_commaList ht)

theorem consumes_tuple : Consumes (tuple term) :=
  consumes_parenthesized (consumes_commaList1 ht).shrinks

theorem consumes_values : Consumes (values term) :=
  consumes_bind (consumes_mark '=') fun _ => shrinks_orElse (consumes_tuple ht).shrinks
    (shrinks_bind ht.shrinks fun _ => shrinks_pure _)

theorem consumes_call : Consumes (call term) :=
  consumes_bind (consumes_nameFrom _) fun _ => shrinks_bind (consumes_arguments ht).shrinks fun _ =>
    shrinks_bind (shrinks_optional (consumes_values ht).shrinks) fun _ => shrinks_pure _

theorem consumes_compound : Consumes (compound term) :=
  consumes_orElse (consumes_call ht) (consumes_bind (consumes_tuple ht) fun _ => shrinks_pure _)

variable {list : Reader (List Term)} (hl : Consumes list) (policy : Policy)
include hl

omit ht in
theorem shrinks_listEnd : Shrinks (listEnd policy list) :=
  shrinks_orElse
    (shrinks_bind (consumes_mark '|').shrinks fun _ => shrinks_bind
      (shrinks_orElse
        (shrinks_bind (consumes_lexeme (consumes_nameFrom _)).shrinks fun _ => shrinks_pure _)
        hl.shrinks) fun _ => shrinks_bind (consumes_mark ']').shrinks fun _ => shrinks_pure _)
    (shrinks_bind (consumes_mark ']').shrinks fun _ => shrinks_pure _)

theorem consumes_bracketed : Consumes (bracketed term policy list) :=
  consumes_bind (consumes_mark '[') fun _ => shrinks_orElse
    (shrinks_bind (consumes_commaList1 ht).shrinks fun _ =>
      shrinks_bind (shrinks_listEnd hl policy) fun _ => shrinks_pure _)
    (shrinks_bind (consumes_mark ']').shrinks fun _ => shrinks_pure _)

theorem consumes_anyTerm : Consumes (anyTerm term policy list) :=
  consumes_orElse (consumes_bind (consumes_compound ht) fun _ => shrinks_pure _)
    (consumes_orElse (consumes_bind (consumes_bracketed ht hl policy) fun _ => shrinks_pure _)
      (consumes_lexemes policy))

end

theorem consumes_term_list (policy : Policy) (n : Nat) :
    Consumes (term policy n) ∧ Consumes (list policy n) := by
  induction n with
  | zero =>
    refine ⟨fun cs t rest h => ?_, fun cs items rest h => ?_⟩
    · simp [term, exhausted] at h
    · simp [list, exhausted] at h
  | succ n ih =>
    obtain ⟨ht, hl⟩ := ih
    refine ⟨fun cs t rest h => ?_, fun cs items rest h => ?_⟩
    · simp only [term] at h
      exact consumes_anyTerm ht hl policy cs t rest h
    · simp only [list] at h
      exact consumes_bracketed ht hl policy cs items rest h

/-! ## Formulas -/

theorem comparisonSign_eq_done {c d : Comparison} {cs rest : List Char} :
    comparisonSign c cs = .done d rest ↔ c = d ∧ cs = c.sign ++ rest := by
  simp only [comparisonSign, bind_eq_done, exactly_eq_done, pure_eq_done]
  constructor
  · intro h
    obtain ⟨u, r, h, hc, hr⟩ := h
    exact ⟨hc, hr ▸ h⟩
  · intro h
    exact ⟨(), rest, h.2, h.1, rfl⟩

theorem sign_of_comparison {c : Comparison} {cs rest : List Char}
    (h : comparison cs = .done c rest) :
    skipJunk cs = c.sign ++ rest := by
  simp only [comparison, token, orElse_eq_done, comparisonSign_eq_done] at h
  rcases h with
    ⟨hc, h⟩ | ⟨-, ⟨hc, h⟩ | ⟨-,
      ⟨hc, h⟩ | ⟨-, ⟨hc, h⟩ | ⟨-, ⟨hc, h⟩ | ⟨-, hc, h⟩⟩⟩⟩⟩
  all_goals exact hc ▸ h

theorem consumes_comparison : Consumes comparison := by
  intro cs c rest h
  apply length_lt_of_skipJunk (sign_of_comparison h)
  cases c <;> simp [Comparison.sign]

theorem predicateName_eq_done {cs name rest : List Char} :
    predicateName cs = .done name rest ↔
      lowerName cs = .done name rest ∧ name ≠ ['n', 'o', 't'] := by
  unfold predicateName
  cases lowerName cs with
  | done w r =>
    by_cases hw : w = ['n', 'o', 't']
    · simp only [hw, ite_true, reduceCtorEq, Reply.done.injEq, false_iff, not_and]
      intro h hne
      exact hne h.1.symm
    · simp only [hw, ite_false, Reply.done.injEq]
      exact ⟨fun h => ⟨h, h.1 ▸ hw⟩, fun h => h.1⟩
  | _ => simp

theorem consumes_predicateName : Consumes predicateName := by
  intro cs name rest h
  exact consumes_nameFrom _ cs name rest (predicateName_eq_done.mp h).1

theorem consumes_negationSign : Consumes negationSign := by
  refine consumes_orElse (fun cs u rest h => ?_) (consumes_symbol (by simp))
  exact length_lt_of_skipJunk (keyword_eq_done.mp h).1 (by simp)

section
variable {term : Reader Term} (ht : Consumes term) (policy : Policy)
include ht

theorem consumes_operand : Consumes (operand term policy) :=
  consumes_orElse (consumes_bind (consumes_compound ht) fun _ => shrinks_pure _)
    (consumes_orElse (consumes_lexeme (consumes_nameFrom _))
      (consumes_orElse (consumes_lexeme (consumes_nameFrom _))
        (consumes_orElse (consumes_lexeme consumes_decimalNumeral)
          (consumes_lexeme consumes_wholeNumeral))))

theorem consumes_relationalAtom : Consumes (relationalAtom term policy) :=
  consumes_bind (consumes_operand ht policy) fun _ =>
    shrinks_bind consumes_comparison.shrinks fun _ =>
      shrinks_bind (consumes_operand ht policy).shrinks fun _ => shrinks_pure _

theorem consumes_typicalAtom : Consumes (typicalAtom term) :=
  consumes_bind consumes_predicateName fun _ =>
    shrinks_bind (shrinks_optional (consumes_arguments ht).shrinks) fun _ => shrinks_pure _

theorem consumes_anyAtom : Consumes (anyAtom term policy) :=
  consumes_orElse (consumes_relationalAtom ht policy) (consumes_typicalAtom ht)

end

section
variable {atom : Reader Atom} {body : Reader Body} (ha : Consumes atom) (hb : Consumes body)
include ha hb

theorem consumes_negation : Consumes (negation atom body) :=
  consumes_bind consumes_negationSign fun _ => shrinks_orElse
    (shrinks_bind ha.shrinks fun _ => shrinks_pure _)
    (shrinks_orElse
      (shrinks_bind (consumes_parenthesized ha.shrinks).shrinks fun _ => shrinks_pure _)
      (shrinks_bind (consumes_parenthesized hb.shrinks).shrinks fun _ => shrinks_pure _))

theorem consumes_literal : Consumes (literal atom body) :=
  consumes_orElse (consumes_negation ha hb) (consumes_bind ha fun _ => shrinks_pure _)

theorem consumes_anyBody : Consumes (anyBody atom body) :=
  consumes_bind (consumes_literal ha hb) fun _ => shrinks_bind
    (shrinks_many (consumes_comma (consumes_literal ha hb).shrinks).shrinks) fun _ => shrinks_pure _

end

end Clausal.Reader
