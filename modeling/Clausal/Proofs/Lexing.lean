import Clausal.Proofs.FormulaReader

/-!
# Texts as tokens

A text falls into tokens in one way, whichever reader goes over it: the longest
lexeme where a lexeme can begin, the neck, and single characters elsewhere.
`Lexed` are the texts in which every lexeme has a meaning.
-/

namespace Clausal

open Lexeme Reader

/-- `Lexes cs rest`: the text `cs` is some tokens and then `rest`. A sign of several characters
counts as several tokens, but the dash of a neck begins no numeral. -/
inductive Lexes : List Char → List Char → Prop
  | none {cs} : Lexes cs cs
  | lexeme {w cs r rest} : skipJunk cs = w ++ r → Longest w r → meaning? w ≠ none →
      Lexes r rest → Lexes cs rest
  | neck {cs r rest} : skipJunk cs = ':' :: '-' :: r → Lexes r rest → Lexes cs rest
  | mark {c cs r rest} : skipJunk cs = c :: r → lead? c = none →
      (c = ':' → r.head? ≠ some '-') →
      Lexes r rest → Lexes cs rest

def Lexed (cs : List Char) : Prop := ∃ rest, Lexes cs rest ∧ skipJunk rest = []

theorem Lexes.trans {cs ds rest : List Char} (h : Lexes cs ds) (h' : Lexes ds rest) :
    Lexes cs rest := by
  induction h with
  | none => exact h'
  | lexeme hj hw hm _ ih => exact .lexeme hj hw hm (ih h')
  | neck hj _ ih => exact .neck hj (ih h')
  | mark hj hc hn _ ih => exact .mark hj hc hn (ih h')

/-! ## Tokens are unique -/

section
variable {cs r : List Char}

theorem Longest.front_ne {w v : List Char} {c : Char} (h : Longest w r) (hc : lead? c = none) :
    w ++ r ≠ c :: v := by
  obtain ⟨d, u, l, hw, hl⟩ := h.isToken.exists_lead
  intro he
  rw [hw, List.cons_append, List.cons.injEq] at he
  rw [he.1, hc] at hl
  cases hl

theorem Lexed.lexeme {w : List Char} (h : Lexed cs) (hj : skipJunk cs = w ++ r) (hw : Longest w r) :
    meaning? w ≠ none ∧ Lexed r := by
  obtain ⟨rest, h, hr⟩ := h
  cases h with
  | none =>
    rw [hj, List.append_eq_nil_iff] at hr
    exact absurd hr.1 hw.isToken.ne_nil
  | lexeme hj' hv hm h' =>
    obtain ⟨he, hs⟩ := hv.unique hw (hj'.symm.trans hj)
    subst he hs
    exact ⟨hm, rest, h', hr⟩
  | neck hj' _ => exact absurd (hj.symm.trans hj') (hw.front_ne rfl)
  | mark hj' hc _ _ => exact absurd (hj.symm.trans hj') (hw.front_ne hc)

theorem Lexed.neck (h : Lexed cs) (hj : skipJunk cs = ':' :: '-' :: r) : Lexed r := by
  obtain ⟨rest, h, hr⟩ := h
  cases h with
  | none => rw [hj] at hr; cases hr
  | lexeme hj' hv _ _ => exact absurd (hj'.symm.trans hj) (hv.front_ne rfl)
  | neck hj' h' =>
    rw [hj] at hj'
    simp only [List.cons.injEq, true_and] at hj'
    exact ⟨rest, hj' ▸ h', hr⟩
  | mark hj' _ hn _ =>
    rw [hj, List.cons.injEq] at hj'
    exact absurd (by rw [← hj'.2]; rfl) (hn hj'.1.symm)

theorem Lexed.mark {c : Char} (h : Lexed cs) (hj : skipJunk cs = c :: r) (hc : lead? c = none)
    (hn : c = ':' → r.head? ≠ some '-') : Lexed r := by
  obtain ⟨rest, h, hr⟩ := h
  cases h with
  | none => rw [hj] at hr; cases hr
  | lexeme hj' hv _ _ => exact absurd (hj'.symm.trans hj) (hv.front_ne hc)
  | neck hj' _ =>
    rw [hj, List.cons.injEq] at hj'
    exact absurd (by rw [hj'.2]; rfl) (hn hj'.1)
  | mark hj' _ _ h' =>
    rw [hj, List.cons.injEq] at hj'
    exact ⟨rest, hj'.2 ▸ h', hr⟩

end

/-- Where one reading has come to, every other reading of the text passes. -/
theorem Lexed.of_lexes {cs rest : List Char} (h : Lexed cs) (hl : Lexes cs rest) : Lexed rest := by
  induction hl with
  | none => exact h
  | lexeme hj hw _ _ ih => exact ih (h.lexeme hj hw).2
  | neck hj _ ih => exact ih (h.neck hj)
  | mark hj hc hn _ ih => exact ih (h.mark hj hc hn)

namespace Reader

variable {α β : Type}

/-- A reader that goes from token to token. -/
def Lexical (p : Reader α) : Prop := ∀ cs x rest, p cs = .done x rest → Lexes cs rest

/-! ## Composed readers -/

theorem lexical_pure (x : α) : Lexical (Pure.pure x : Reader α) := by
  intro cs y rest h
  obtain ⟨-, h⟩ := pure_eq_done.mp h
  exact h ▸ .none

theorem lexical_bind {p : Reader α} {f : α → Reader β} (hp : Lexical p)
    (hf : ∀ x, Lexical (f x)) :
    Lexical (p >>= f) := by
  intro cs y rest h
  obtain ⟨x, r, h₁, h₂⟩ := bind_eq_done.mp h
  exact (hp cs x r h₁).trans (hf x r y rest h₂)

theorem lexical_map {p : Reader α} (hp : Lexical p) (f : α → β) :
    Lexical (do let x ← p; return f x) :=
  lexical_bind hp fun _ => lexical_pure _

theorem lexical_orElse {p q : Reader α} (hp : Lexical p) (hq : Lexical q) : Lexical (p <|> q) := by
  intro cs x rest h
  rcases orElse_eq_done.mp h with h | ⟨-, h⟩
  · exact hp cs x rest h
  · exact hq cs x rest h

theorem lexical_optional {p : Reader α} (hp : Lexical p) : Lexical (optional p) := by
  intro cs o rest h
  rcases optional_eq_done.mp h with ⟨x, -, h⟩ | ⟨-, h, -⟩
  · exact hp cs x rest h
  · exact h ▸ .none

theorem lexical_many {p : Reader α} (hp : Lexical p) : Lexical (many p) := by
  intro cs xs rest h
  have hr := repeats_of_many h
  clear h
  induction hr with
  | nil _ => exact .none
  | cons hx _ ih => exact (hp _ _ _ hx).trans ih

/-! ## Tokens -/

theorem lexical_mark {c : Char} (hc : lead? c = none) (hn : c ≠ ':') : Lexical (mark c) :=
  fun _ _ _ h => .mark (mark_eq_done.mp h) hc (fun he => absurd he hn) .none

theorem lexical_neck : Lexical neck := fun _ _ _ h => .neck (symbol_eq_done.mp h) .none

theorem lexes_sign {c : Char} (hc : lead? c = none) (hs : isSolid c = true) (hn : c ≠ ':')
    (rest : List Char) :
    Lexes (c :: rest) rest :=
  .mark (skipJunk_solid hs rest) hc (fun he => absurd he hn) .none

theorem lexical_comparison : Lexical comparison := by
  intro cs c rest h
  have hs := sign_of_comparison h
  have hequals := lexes_sign (c := '=') rfl rfl (by decide) rest
  have hless := lexes_sign (c := '<') rfl rfl (by decide) rest
  cases c with
  | equal =>
    have hcolon : Lexes (':' :: '=' :: rest) rest :=
      .mark (skipJunk_solid rfl _) rfl (fun _ => by simp) hequals
    exact .mark hs rfl (fun he => absurd he (by decide)) hcolon
  | notEqual =>
    exact .mark hs rfl (fun he => absurd he (by decide))
      ((lexes_sign rfl rfl (by decide) _).trans hequals)
  | less => exact .mark hs rfl (fun he => absurd he (by decide)) .none
  | greater => exact .mark hs rfl (fun he => absurd he (by decide)) .none
  | lessOrEqual => exact .mark hs rfl (fun he => absurd he (by decide)) hless
  | greaterOrEqual => exact .mark hs rfl (fun he => absurd he (by decide)) hequals

theorem lexical_lowerName : Lexical lowerName := by
  intro cs w rest h
  obtain ⟨hj, hl⟩ := longest_of_lowerName h
  exact .lexeme hj hl (by rw [meaning?_lower (nameFrom_eq_done.mp h).2.1]; simp) .none

theorem lexical_negationSign : Lexical negationSign := by
  intro cs u rest h
  rcases negationSign_eq_done.mp h with ⟨hj, hs⟩ | hj
  · exact lexical_lowerName cs ['n', 'o', 't'] rest (nameFrom_eq_done.mpr ⟨hj, rfl, hs⟩)
  · exact .mark hj rfl (fun he => absurd he (by decide))
      (lexes_sign (c := '+') rfl rfl (by decide) rest)

theorem lexical_predicateName : Lexical predicateName :=
  fun cs w rest h => lexical_lowerName cs w rest (predicateName_eq_done.mp h).1

theorem lexes_of_meaning {w cs rest : List Char} {t : Term} (hj : skipJunk cs = w ++ rest)
    (hl : Longest w rest) (hm : meaning? w = some t) : Lexes cs rest :=
  .lexeme hj hl (by rw [hm]; simp) .none

section
variable (policy : Policy)

theorem lexical_lexeme_upperName : Lexical (lexeme policy upperName) := by
  intro cs t rest h
  obtain ⟨w, hw, hm⟩ := lexeme_eq_done.mp h
  obtain ⟨hj, hl⟩ := longest_of_upperName hw
  exact lexes_of_meaning hj hl hm

theorem lexical_lexemes : Lexical (lexemes policy) := by
  intro cs t rest h
  obtain ⟨w, hj, hl, hm⟩ := lexemes_eq_done.mp h
  exact lexes_of_meaning hj hl hm

end

/-! ## Terms -/

theorem lexical_parenthesized {p : Reader α} (hp : Lexical p) : Lexical (parenthesized p) :=
  lexical_bind (lexical_mark rfl (by decide)) fun _ => lexical_bind hp fun _ =>
    lexical_map (lexical_mark rfl (by decide)) _

theorem lexical_comma {p : Reader α} (hp : Lexical p) : Lexical (do mark ','; p) :=
  lexical_bind (lexical_mark rfl (by decide)) fun _ => hp

theorem lexical_commaList1 {p : Reader α} (hp : Lexical p) : Lexical (commaList1 p) :=
  lexical_bind hp fun _ => lexical_map (lexical_many (lexical_comma hp)) _

theorem lexical_commaList {p : Reader α} (hp : Lexical p) : Lexical (commaList p) :=
  lexical_map (lexical_optional (lexical_commaList1 hp)) _

section
variable {term : Reader Term} (ht : Lexical term)
include ht

theorem lexical_arguments : Lexical (arguments term) := lexical_parenthesized (lexical_commaList ht)

theorem lexical_tuple : Lexical (tuple term) := lexical_parenthesized (lexical_commaList1 ht)

theorem lexical_values : Lexical (values term) :=
  lexical_bind (lexical_mark rfl (by decide)) fun _ =>
    lexical_orElse (lexical_tuple ht) (lexical_map ht _)

theorem lexical_call : Lexical (call term) :=
  lexical_bind lexical_lowerName fun _ => lexical_bind (lexical_arguments ht) fun _ =>
    lexical_map (lexical_optional (lexical_values ht)) _

theorem lexical_compound : Lexical (compound term) :=
  lexical_orElse (lexical_call ht) (lexical_map (lexical_tuple ht) _)

variable {list : Reader (List Term)} (hl : Lexical list) (policy : Policy)
include hl

omit ht in
theorem lexical_listTail : Lexical ((do let v ← lexeme policy upperName; return [v]) <|> list) :=
  lexical_orElse (lexical_map (lexical_lexeme_upperName policy) _) hl

omit ht in
theorem lexical_listEnd : Lexical (listEnd policy list) :=
  lexical_orElse
    (lexical_bind (lexical_mark rfl (by decide)) fun _ =>
      lexical_bind (lexical_listTail hl policy) fun _ => lexical_map (lexical_mark rfl (by decide)) _)
    (lexical_map (lexical_mark rfl (by decide)) _)

theorem lexical_bracketed : Lexical (bracketed term policy list) :=
  lexical_bind (lexical_mark rfl (by decide)) fun _ => lexical_orElse
    (lexical_bind (lexical_commaList1 ht) fun _ => lexical_map (lexical_listEnd hl policy) _)
    (lexical_map (lexical_mark rfl (by decide)) _)

theorem lexical_anyTerm : Lexical (anyTerm term policy list) :=
  lexical_orElse (lexical_map (lexical_compound ht) _)
    (lexical_orElse (lexical_map (lexical_bracketed ht hl policy) _) (lexical_lexemes policy))

end

theorem lexical_term_list (policy : Policy) (n : Nat) :
    Lexical (term policy n) ∧ Lexical (list policy n) := by
  induction n with
  | zero =>
    refine ⟨fun cs t rest h => ?_, fun cs items rest h => ?_⟩
    · simp [term, exhausted] at h
    · simp [list, exhausted] at h
  | succ n ih =>
    obtain ⟨ht, hl⟩ := ih
    refine ⟨fun cs t rest h => ?_, fun cs items rest h => ?_⟩
    · simp only [term] at h
      exact lexical_anyTerm ht hl policy cs t rest h
    · simp only [list] at h
      exact lexical_bracketed ht hl policy cs items rest h

/-! ## Formulas -/

section
variable {term : Reader Term} (ht : Lexical term) (policy : Policy)
include ht

theorem lexical_operand : Lexical (operand term policy) := by
  intro cs t rest h
  rcases operand_cases h with ⟨f, hf, -⟩ | ⟨-, w, hj, hl, hm⟩
  · exact lexical_compound ht cs f rest hf
  · exact lexes_of_meaning hj hl hm

theorem lexical_relationalAtom : Lexical (relationalAtom term policy) :=
  lexical_bind (lexical_operand ht policy) fun _ => lexical_bind lexical_comparison fun _ =>
    lexical_map (lexical_operand ht policy) _

theorem lexical_typicalAtom : Lexical (typicalAtom term) :=
  lexical_bind lexical_predicateName fun _ =>
    lexical_map (lexical_optional (lexical_arguments ht)) _

theorem lexical_anyAtom : Lexical (anyAtom term policy) :=
  lexical_orElse (lexical_relationalAtom ht policy) (lexical_typicalAtom ht)

end

section
variable {atom : Reader Atom} {body : Reader Body} (ha : Lexical atom) (hb : Lexical body)
include ha hb

theorem lexical_negation : Lexical (negation atom body) :=
  lexical_bind lexical_negationSign fun _ => lexical_orElse (lexical_map ha _)
    (lexical_orElse (lexical_map (lexical_parenthesized ha) _)
      (lexical_map (lexical_parenthesized hb) _))

theorem lexical_literal : Lexical (literal atom body) :=
  lexical_orElse (lexical_negation ha hb) (lexical_map ha _)

theorem lexical_anyBody : Lexical (anyBody atom body) :=
  lexical_bind (lexical_literal ha hb) fun _ =>
    lexical_map (lexical_many (lexical_comma (lexical_literal ha hb))) _

end

theorem lexical_atom (policy : Policy) (n : Nat) : Lexical (atom policy n) :=
  lexical_anyAtom (lexical_term_list policy n).1 policy

theorem lexical_body (policy : Policy) (n : Nat) : Lexical (body policy n) := by
  induction n with
  | zero =>
    intro cs b rest h
    simp [body, exhausted] at h
  | succ n ih =>
    intro cs b rest h
    simp only [body] at h
    exact lexical_anyBody (lexical_atom policy n) ih cs b rest h

theorem lexical_closedBody (policy : Policy) (n : Nat) : Lexical (closedBody policy n) :=
  lexical_bind (lexical_body policy n) fun _ =>
    lexical_map (lexical_optional (lexical_mark rfl (by decide))) _

theorem lexical_rule (policy : Policy) (n : Nat) : Lexical (rule policy n) :=
  lexical_bind (lexical_atom policy n) fun _ => lexical_bind lexical_neck fun _ =>
    lexical_bind (lexical_body policy n) fun _ => lexical_map (lexical_mark rfl (by decide)) _

theorem lexical_formula (policy : Policy) (n : Nat) : Lexical (formula policy n) :=
  lexical_orElse (lexical_map (lexical_rule policy n) _)
    (lexical_map (lexical_closedBody policy n) _)

end Reader

end Clausal
