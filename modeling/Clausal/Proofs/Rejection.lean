import Clausal.Proofs.Lexing
import Clausal.Proofs.Parse

/-!
# Rejected lexemes

To reject a lexeme ends the whole reading, where being stuck lets another
alternative try. On a text whose lexemes all have a meaning nothing is rejected,
and no alternative gets past any other lexeme, so both policies accept the same.
-/

namespace Clausal

open Lexeme Reader

namespace Reader

variable {α β : Type}

/-- Readers that do the same where every lexeme has a meaning. -/
def Agree (p q : Reader α) : Prop := ∀ cs, Lexed cs → p cs = q cs

/-! ## Composed readers -/

theorem Agree.refl (p : Reader α) : Agree p p := fun _ _ => rfl

theorem agree_bind {p q : Reader α} {f g : α → Reader β} (hp : Lexical p) (h : Agree p q)
    (hf : ∀ x, Agree (f x) (g x)) : Agree (p >>= f) (q >>= g) :=
  fun cs hcs => bind_congr (h cs hcs) fun x rest hx => hf x rest (hcs.of_lexes (hp cs x rest hx))

theorem agree_map {p q : Reader α} (h : Agree p q) (f : α → β) :
    Agree (do let x ← p; return f x) (do let x ← q; return f x) :=
  fun cs hcs => bind_congr (h cs hcs) fun _ _ _ => rfl

theorem agree_orElse {p p' q q' : Reader α} (hp : Agree p p') (hq : Agree q q') :
    Agree (p <|> q) (p' <|> q') :=
  fun cs hcs => orElse_congr (hp cs hcs) (hq cs hcs)

theorem agree_optional {p q : Reader α} (h : Agree p q) : Agree (optional p) (optional q) :=
  fun cs hcs => optional_congr (h cs hcs)

theorem agree_repeated {p q : Reader α} (hp : Lexical p) (h : Agree p q) (n : Nat) :
    Agree (repeated p n) (repeated q n) := by
  induction n with
  | zero => exact .refl _
  | succ n ih =>
    intro cs hcs
    simp only [repeated]
    rw [← h cs hcs]
    cases hx : p cs with
    | done x rest => exact bind_congr (ih rest (hcs.of_lexes (hp cs x rest hx))) fun _ _ _ => rfl
    | _ => rfl

theorem agree_many {p q : Reader α} (hp : Lexical p) (h : Agree p q) : Agree (many p) (many q) :=
  fun cs hcs => agree_repeated hp h (cs.length + 1) cs hcs

/-! ## Lexemes -/

/-- The policies differ at a longest token without meaning only. -/
theorem lexeme_congr {p : Reader (List Char)} {cs : List Char} (hcs : Lexed cs)
    (hp : ∀ w rest, p cs = .done w rest → skipJunk cs = w ++ rest ∧ Longest w rest) :
    lexeme .commit p cs = lexeme .backtrack p cs := by
  simp only [lexeme]
  cases h : p cs with
  | done w rest =>
    obtain ⟨hj, hw⟩ := hp w rest h
    cases hm : meaning? w with
    | some t => simp only [hm]
    | none => exact absurd hm (hcs.lexeme hj hw).1
  | _ => rfl

theorem orElse_congr_of_stuck {p p' q q' : Reader α} {cs : List Char} (hp : p cs = p' cs)
    (hq : (p cs).IsStuck → q cs = q' cs) : (p <|> q) cs = (p' <|> q') cs := by
  simp only [orElse_apply, Reader.orElse]
  rw [← hp]
  cases h : p cs with
  | stuck rest => simp only [hq ⟨rest, h⟩]
  | _ => rfl

theorem agree_lowerName : Agree (lexeme .commit lowerName) (lexeme .backtrack lowerName) :=
  fun _ hcs => lexeme_congr hcs fun _ _ => longest_of_lowerName

theorem agree_upperName : Agree (lexeme .commit upperName) (lexeme .backtrack upperName) :=
  fun _ hcs => lexeme_congr hcs fun _ _ => longest_of_upperName

theorem agree_quotedLiteral {quote : Char} (hq : isQuote quote = true) :
    Agree (lexeme .commit (quotedLiteral quote)) (lexeme .backtrack (quotedLiteral quote)) :=
  fun _ hcs => lexeme_congr hcs fun _ _ => longest_of_quotedLiteral hq

theorem agree_decimalNumeral :
    Agree (lexeme .commit decimalNumeral) (lexeme .backtrack decimalNumeral) :=
  fun _ hcs => lexeme_congr hcs fun _ _ => longest_of_decimalNumeral

/-- A whole numeral is a longest token where no decimal one stands. -/
theorem wholeNumeral_congr {cs : List Char} (hcs : Lexed cs)
    (hd : (lexeme .commit decimalNumeral cs).IsStuck) :
    lexeme .commit wholeNumeral cs = lexeme .backtrack wholeNumeral cs :=
  lexeme_congr hcs fun _ _ => longest_of_wholeNumeral (decimalNumeral_isStuck hd)

theorem agree_lexemes : Agree (lexemes .commit) (lexemes .backtrack) := by
  refine agree_orElse agree_lowerName (agree_orElse agree_upperName fun cs hcs => ?_)
  refine orElse_congr_of_stuck (agree_decimalNumeral cs hcs) fun hd => ?_
  exact orElse_congr (wholeNumeral_congr hcs hd)
    (agree_orElse (agree_quotedLiteral rfl) (agree_quotedLiteral rfl) cs hcs)

/-! ## Terms -/

theorem agree_parenthesized {p q : Reader α} (hp : Lexical p) (h : Agree p q) :
    Agree (parenthesized p) (parenthesized q) :=
  agree_bind (lexical_mark rfl (by decide)) (.refl _) fun _ => agree_bind hp h fun _ => .refl _

theorem agree_comma {p q : Reader α} (h : Agree p q) :
    Agree (do mark ','; p) (do mark ','; q) :=
  agree_bind (lexical_mark rfl (by decide)) (.refl _) fun _ => h

theorem agree_commaList1 {p q : Reader α} (hp : Lexical p) (h : Agree p q) :
    Agree (commaList1 p) (commaList1 q) :=
  agree_bind hp h fun _ => agree_map (agree_many (lexical_comma hp) (agree_comma h)) _

theorem agree_commaList {p q : Reader α} (hp : Lexical p) (h : Agree p q) :
    Agree (commaList p) (commaList q) :=
  agree_map (agree_optional (agree_commaList1 hp h)) _

section
variable {term term' : Reader Term} (ht : Lexical term) (h : Agree term term')
include ht h

theorem agree_arguments : Agree (arguments term) (arguments term') :=
  agree_parenthesized (lexical_commaList ht) (agree_commaList ht h)

theorem agree_tuple : Agree (tuple term) (tuple term') :=
  agree_parenthesized (lexical_commaList1 ht) (agree_commaList1 ht h)

theorem agree_values : Agree (values term) (values term') :=
  agree_bind (lexical_mark rfl (by decide)) (.refl _) fun _ =>
    agree_orElse (agree_tuple ht h) (agree_map h _)

theorem agree_call : Agree (call term) (call term') :=
  agree_bind lexical_lowerName (.refl _) fun _ =>
    agree_bind (lexical_arguments ht) (agree_arguments ht h) fun _ =>
      agree_map (agree_optional (agree_values ht h)) _

theorem agree_compound : Agree (compound term) (compound term') :=
  agree_orElse (agree_call ht h) (agree_map (agree_tuple ht h) _)

variable {list list' : Reader (List Term)} (hl : Lexical list) (h' : Agree list list')
include hl h'

omit ht h in
theorem agree_listEnd : Agree (listEnd .commit list) (listEnd .backtrack list') :=
  agree_orElse
    (agree_bind (lexical_mark rfl (by decide)) (.refl _) fun _ =>
      agree_bind (lexical_listTail hl .commit)
        (agree_orElse (agree_map agree_upperName _) h') fun _ => .refl _)
    (.refl _)

theorem agree_bracketed : Agree (bracketed term .commit list) (bracketed term' .backtrack list') :=
  agree_bind (lexical_mark rfl (by decide)) (.refl _) fun _ => agree_orElse
    (agree_bind (lexical_commaList1 ht) (agree_commaList1 ht h) fun _ =>
      agree_map (agree_listEnd hl h') _)
    (.refl _)

theorem agree_anyTerm : Agree (anyTerm term .commit list) (anyTerm term' .backtrack list') :=
  agree_orElse (agree_map (agree_compound ht h) _)
    (agree_orElse (agree_map (agree_bracketed ht h hl h') _) agree_lexemes)

end

theorem agree_term_list (n : Nat) :
    Agree (term .commit n) (term .backtrack n) ∧ Agree (list .commit n) (list .backtrack n) := by
  induction n with
  | zero => exact ⟨fun _ _ => by simp only [term], fun _ _ => by simp only [list]⟩
  | succ n ih =>
    obtain ⟨ht, hl⟩ := lexical_term_list .commit n
    refine ⟨fun cs hcs => ?_, fun cs hcs => ?_⟩
    · simp only [term]
      exact agree_anyTerm ht ih.1 hl ih.2 cs hcs
    · simp only [list]
      exact agree_bracketed ht ih.1 hl ih.2 cs hcs

/-! ## Formulas -/

section
variable {term term' : Reader Term} (ht : Lexical term) (h : Agree term term')
include ht h

theorem agree_operand : Agree (operand term .commit) (operand term' .backtrack) := by
  refine agree_orElse (agree_map (agree_compound ht h) _) (agree_orElse agree_upperName
    (agree_orElse agree_lowerName fun cs hcs => ?_))
  exact orElse_congr_of_stuck (agree_decimalNumeral cs hcs) (wholeNumeral_congr hcs)

theorem agree_relationalAtom :
    Agree (relationalAtom term .commit) (relationalAtom term' .backtrack) :=
  agree_bind (lexical_operand ht .commit) (agree_operand ht h) fun _ =>
    agree_bind lexical_comparison (.refl _) fun _ => agree_map (agree_operand ht h) _

theorem agree_typicalAtom : Agree (typicalAtom term) (typicalAtom term') :=
  agree_bind lexical_predicateName (.refl _) fun _ =>
    agree_map (agree_optional (agree_arguments ht h)) _

theorem agree_anyAtom : Agree (anyAtom term .commit) (anyAtom term' .backtrack) :=
  agree_orElse (agree_relationalAtom ht h) (agree_typicalAtom ht h)

end

section
variable {atom atom' : Reader Atom} {body body' : Reader Body} (la : Lexical atom)
  (lb : Lexical body)
  (ha : Agree atom atom') (hb : Agree body body')
include la lb ha hb

theorem agree_negation : Agree (negation atom body) (negation atom' body') :=
  agree_bind lexical_negationSign (.refl _) fun _ => agree_orElse (agree_map ha _)
    (agree_orElse (agree_map (agree_parenthesized la ha) _)
      (agree_map (agree_parenthesized lb hb) _))

theorem agree_literal : Agree (literal atom body) (literal atom' body') :=
  agree_orElse (agree_negation la lb ha hb) (agree_map ha _)

theorem agree_anyBody : Agree (anyBody atom body) (anyBody atom' body') :=
  agree_bind (lexical_literal la lb) (agree_literal la lb ha hb) fun _ =>
    agree_map (agree_many (lexical_comma (lexical_literal la lb))
      (agree_comma (agree_literal la lb ha hb))) _

end

theorem agree_atom (n : Nat) : Agree (atom .commit n) (atom .backtrack n) :=
  agree_anyAtom (lexical_term_list .commit n).1 (agree_term_list n).1

theorem agree_body (n : Nat) : Agree (body .commit n) (body .backtrack n) := by
  induction n with
  | zero => exact fun _ _ => by simp only [body]
  | succ n ih =>
    intro cs hcs
    simp only [body]
    exact agree_anyBody (lexical_atom .commit n) (lexical_body .commit n) (agree_atom n) ih cs hcs

theorem agree_closedBody (n : Nat) : Agree (closedBody .commit n) (closedBody .backtrack n) :=
  agree_bind (lexical_body .commit n) (agree_body n) fun _ => .refl _

theorem agree_rule (n : Nat) : Agree (rule .commit n) (rule .backtrack n) :=
  agree_bind (lexical_atom .commit n) (agree_atom n) fun _ =>
    agree_bind lexical_neck (.refl _) fun _ =>
      agree_bind (lexical_body .commit n) (agree_body n) fun _ => .refl _

theorem agree_formula (n : Nat) : Agree (formula .commit n) (formula .backtrack n) :=
  agree_orElse (agree_map (agree_rule n) _) (agree_map (agree_closedBody n) _)

/-! ## Whole texts -/

theorem Lexical.lexed {p : Reader α} (hp : Lexical p) {x : α} {cs : List Char}
    (h : Takes p x cs) : Lexed cs := by
  obtain ⟨rest, h, hr⟩ := h
  exact ⟨rest, hp cs x rest h, hr⟩

theorem parseUnder_congr {target : Kind} {p q : Nat → Reader α} (hp : ∀ n, Lexical (p n))
    (hq : ∀ n, Lexical (q n)) (h : ∀ n, Agree (p n) (q n)) (text : String) (x : α) :
    parseUnder target p text = .ok x ↔ parseUnder target q text = .ok x := by
  simp only [parseUnder, complete_eq_ok]
  -- a text that either reader takes whole has no lexeme without meaning
  have hlexed : Lexed text.toList → (Takes (p (boundFor text.toList)) x text.toList ↔
      Takes (q (boundFor text.toList)) x text.toList) := by
    intro hl
    unfold Takes
    rw [h _ _ hl]
  exact ⟨fun ht => (hlexed ((hp _).lexed ht)).mp ht,
    fun ht => (hlexed ((hq _).lexed ht)).mpr ht⟩

end Reader

/-! ## Texts taken whole -/

section
variable {text : String}

theorem Atom.parse_iff_backtrack {a : Atom} :
    Atom.parse text = .ok a ↔ Takes (Unbounded.atom .backtrack) a text.toList := by
  have hiff : parseAtom .backtrack text = .ok a ↔
      Takes (Unbounded.atom .backtrack) a text.toList :=
    parseUnder_eq_ok fun _ _ hn => Unbounded.atom_eq .backtrack (Nat.le_of_lt hn)
  exact (parseUnder_congr (lexical_atom .commit) (lexical_atom .backtrack) agree_atom text a).trans
    hiff

theorem Body.parse_iff_backtrack {b : Body} :
    Body.parse text = .ok b ↔ Takes (Unbounded.closedBody .backtrack) b text.toList := by
  have hiff : parseBody .backtrack text = .ok b ↔
      Takes (Unbounded.closedBody .backtrack) b text.toList :=
    parseUnder_eq_ok fun _ _ hn => Unbounded.closedBody_eq .backtrack hn
  exact (parseUnder_congr (lexical_closedBody .commit) (lexical_closedBody .backtrack)
    agree_closedBody text b).trans
    hiff

theorem Rule.parse_iff_backtrack {r : Rule} :
    Rule.parse text = .ok r ↔ Takes (Unbounded.rule .backtrack) r text.toList := by
  have hiff : parseRule .backtrack text = .ok r ↔
      Takes (Unbounded.rule .backtrack) r text.toList :=
    parseUnder_eq_ok fun _ _ hn => Unbounded.rule_eq .backtrack hn
  exact (parseUnder_congr (lexical_rule .commit) (lexical_rule .backtrack) agree_rule text r).trans
    hiff

end

/-- **No parse is lost** to a rejected lexeme: every text is parsed alike where such a lexeme ends
the reading and where another alternative may try. -/
theorem parse_eq_ok_iff_backtrack (text : String) :
    (∀ t, Term.parse text = .ok t ↔ parseTerm .backtrack text = .ok t) ∧
    (∀ items, Term.parseList text = .ok items ↔
      Reader.parseList .backtrack text = .ok items) ∧
    (∀ f, Compound.parse text = .ok f ↔ parseCompound .backtrack text = .ok f) ∧
    (∀ a, Atom.parse text = .ok a ↔ parseAtom .backtrack text = .ok a) ∧
    (∀ b, Body.parse text = .ok b ↔ parseBody .backtrack text = .ok b) ∧
    (∀ r, Rule.parse text = .ok r ↔ parseRule .backtrack text = .ok r) ∧
    ∀ φ, Formula.parse text = .ok φ ↔ parseFormula .backtrack text = .ok φ := by
  have hterm (policy : Policy) (n : Nat) := lexical_term_list policy n
  refine ⟨?_, ?_, ?_, ?_, ?_, ?_, ?_⟩
  · exact parseUnder_congr (fun n => (hterm .commit n).1) (fun n => (hterm .backtrack n).1)
      (fun n => (agree_term_list n).1) text
  · exact parseUnder_congr (fun n => (hterm .commit n).2) (fun n => (hterm .backtrack n).2)
      (fun n => (agree_term_list n).2) text
  · exact parseUnder_congr (fun n => lexical_compound (hterm .commit n).1)
      (fun n => lexical_compound (hterm .backtrack n).1)
      (fun n => agree_compound (hterm .commit n).1 (agree_term_list n).1) text
  · exact parseUnder_congr (lexical_atom .commit) (lexical_atom .backtrack) agree_atom text
  · exact parseUnder_congr (lexical_closedBody .commit) (lexical_closedBody .backtrack)
      agree_closedBody text
  · exact parseUnder_congr (lexical_rule .commit) (lexical_rule .backtrack) agree_rule text
  · exact parseUnder_congr (lexical_formula .commit) (lexical_formula .backtrack)
      agree_formula text

end Clausal
