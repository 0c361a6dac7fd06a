import Clausal.Proofs.FormulaReader

/-!
# Faithful replies

What a reader may say of a text. Every rest it speaks of is an end of the text,
and a lexeme that it rejects is a part of the text, shaped like a quoted literal
or a whole number of more than 64 bits. No bound ever runs out, and nothing is
rejected with backtracking: then every reader is done or stuck.
-/

namespace Clausal

open Lexeme Reader

/-- The tokens that may have no meaning. -/
inductive Unclassifiable : List Char → Prop
  | literal {quote inner} : isQuote quote = true → (∀ c ∈ inner, isInside quote c = true) →
      Unclassifiable (quote :: inner ++ [quote])
  | large {sign digits} : IsSign sign → IsDigits digits →
      ¬ (-2 ^ 63 ≤ Numeral.signed (!sign.isEmpty) digits ∧
        Numeral.signed (!sign.isEmpty) digits < 2 ^ 63) →
      Unclassifiable (sign ++ digits)

/-- What a reader may reply about the text `cs`. -/
def Reply.Faithful {α : Type} (policy : Policy) (cs : List Char) : Reply α → Prop
  | done _ rest => rest <:+ cs
  | stuck rest => rest <:+ cs
  | rejected w => policy = .commit ∧ w <:+: cs ∧ meaning? w = none ∧ Unclassifiable w
  | exhausted => False

theorem Reply.Faithful.mono {α : Type} {policy : Policy} {cs ds : List Char} {reply : Reply α}
    (h : reply.Faithful policy ds) (hs : ds <:+ cs) : reply.Faithful policy cs := by
  cases reply with
  | done x rest => exact List.IsSuffix.trans h hs
  | stuck rest => exact List.IsSuffix.trans h hs
  | rejected w => exact ⟨h.1, h.2.1.trans hs.isInfix, h.2.2⟩
  | exhausted => exact h

theorem Reply.Faithful.ne_exhausted {α : Type} {policy : Policy} {cs : List Char}
    {reply : Reply α} (h : reply.Faithful policy cs) : reply ≠ .exhausted := by
  intro he
  rw [he] at h
  exact h

/-- With backtracking the reading goes on. -/
theorem Reply.Faithful.settles {α : Type} {cs : List Char} {reply : Reply α}
    (h : reply.Faithful .backtrack cs) : reply.Settles := by
  cases reply with
  | done x rest => exact settles_done x rest
  | stuck rest => exact settles_stuck rest
  | rejected w => cases h.1
  | exhausted => cases h

namespace Reader

variable {α β : Type} {policy : Policy}

/-! ## Composed readers -/

section
variable {p q : Reader α} {f : α → Reader β} {cs : List Char} (hp : (p cs).Faithful policy cs)
include hp

theorem faithful_bind (hf : ∀ x rest, p cs = .done x rest → (f x rest).Faithful policy rest) :
    ((p >>= f) cs).Faithful policy cs := by
  simp only [bind_apply, Reader.bind]
  cases h : p cs with
  | done x rest =>
    rw [h] at hp
    exact (hf x rest h).mono hp
  | _ =>
    rw [h] at hp
    exact hp

theorem faithful_map (g : α → β) :
    ((do let x ← p; return g x : Reader β) cs).Faithful policy cs :=
  faithful_bind hp fun _ rest _ => List.suffix_refl rest

theorem faithful_orElse (hq : (q cs).Faithful policy cs) : ((p <|> q) cs).Faithful policy cs := by
  simp only [orElse_apply, Reader.orElse]
  cases h : p cs with
  | stuck r =>
    rw [h] at hp
    cases h' : q cs with
    | stuck s =>
      rw [h'] at hq
      -- whichever got further, both are ends of the text
      simp only [further]
      split
      · exact hq
      · exact hp
    | _ =>
      rw [h'] at hq
      exact hq
  | _ =>
    rw [h] at hp
    exact hp

theorem faithful_optional : (optional p cs).Faithful policy cs := by
  simp only [optional]
  cases h : p cs with
  | stuck rest => exact List.suffix_refl cs
  | _ =>
    rw [h] at hp
    exact hp

end

/-- A reader that is faithful to all texts below some length. -/
def FaithfulBelow (policy : Policy) (k : Nat) (p : Reader α) : Prop :=
  ∀ cs : List Char, cs.length < k → (p cs).Faithful policy cs

/-- A reader that takes a character each time never reaches the bound on its repetition. -/
theorem faithful_many {p : Reader α} (hc : Consumes p) {k : Nat} (h : FaithfulBelow policy k p) :
    FaithfulBelow policy k (many p) := by
  have hrepeats (n : Nat) : ∀ cs : List Char, cs.length < k → cs.length < n →
      (repeated p n cs).Faithful policy cs := by
    induction n with
    | zero => exact fun _ _ hn => absurd hn (Nat.not_lt_zero _)
    | succ n ih =>
      intro cs hk hn
      have hp := h cs hk
      simp only [repeated]
      cases hx : p cs with
      | done x rest =>
        rw [hx] at hp
        have hlen := hc cs x rest hx
        exact (faithful_map (ih rest (by omega) (by omega)) _).mono hp
      | stuck rest => exact List.suffix_refl cs
      | _ =>
        rw [hx] at hp
        exact hp
  exact fun cs hk => hrepeats (cs.length + 1) cs hk (Nat.lt_succ_self _)

/-! ## Tokens -/

/-- A reader that is faithful to every text. -/
def Faithful (policy : Policy) (p : Reader α) : Prop := ∀ cs, (p cs).Faithful policy cs

theorem Faithful.below {p : Reader α} (h : Faithful policy p) (k : Nat) :
    FaithfulBelow policy k p :=
  fun cs _ => h cs

theorem skipJunk_suffix (cs : List Char) : skipJunk cs <:+ cs := (junk_skipJunk cs).suffix

theorem faithful_token {p : Reader α} (hp : Faithful policy p) : Faithful policy (token p) :=
  fun cs => (hp (skipJunk cs)).mono (skipJunk_suffix cs)

theorem faithful_exactly (word : List Char) : Faithful policy (exactly word) := by
  intro cs
  simp only [exactly]
  cases h : dropWord? word cs with
  | some rest => exact ⟨word, (dropWord?_eq_some.mp h).symm⟩
  | none => exact List.suffix_refl cs

theorem faithful_run (inside : Char → Bool) : Faithful policy (run inside) :=
  fun _ => List.dropWhile_suffix inside

theorem faithful_run1 (inside : Char → Bool) : Faithful policy (run1 inside) := by
  intro cs
  simp only [run1]
  cases cs.takeWhile inside with
  | nil => exact List.suffix_refl cs
  | cons c w => exact List.dropWhile_suffix inside

theorem faithful_one (inside : Char → Bool) : Faithful policy (one inside) := by
  intro cs
  cases cs with
  | nil => exact List.suffix_refl _
  | cons c cs =>
    simp only [one]
    split
    · exact List.suffix_cons c cs
    · exact List.suffix_refl _

theorem faithful_nameEnd : Faithful policy nameEnd := by
  intro cs
  cases cs with
  | nil => exact List.suffix_refl _
  | cons c cs =>
    simp only [nameEnd]
    split
    · exact List.suffix_refl _
    · exact List.suffix_refl _

theorem faithful_minus : Faithful policy minus := by
  intro cs
  unfold minus
  split
  · exact List.suffix_cons _ _
  · exact List.suffix_refl _

theorem faithful_symbol (word : List Char) : Faithful policy (symbol word) :=
  faithful_token (faithful_exactly word)

theorem faithful_keyword (word : List Char) : Faithful policy (keyword word) :=
  faithful_token fun cs => faithful_bind (faithful_exactly word cs) fun _ r _ => faithful_nameEnd r

theorem faithful_nameFrom (initial : Char → Bool) : Faithful policy (nameFrom initial) :=
  faithful_token fun cs => faithful_bind (faithful_one initial cs) fun _ r _ =>
    faithful_map (faithful_run _ r) _

theorem faithful_wholeNumeral : Faithful policy wholeNumeral :=
  faithful_token fun cs => faithful_bind (faithful_minus cs) fun _ r _ =>
    faithful_map (faithful_run1 _ r) _

theorem faithful_decimalNumeral : Faithful policy decimalNumeral :=
  faithful_token fun cs => faithful_bind (faithful_minus cs) fun _ r _ =>
    faithful_bind (faithful_run1 _ r) fun _ s _ =>
      faithful_bind (faithful_exactly _ s) fun _ t _ => faithful_map (faithful_run1 _ t) _

theorem faithful_quotedInner (quote : Char) : Faithful policy (quotedInner quote) :=
  faithful_token fun cs => faithful_bind (faithful_exactly _ cs) fun _ r _ =>
    faithful_bind (faithful_run _ r)
    fun _ s _ => faithful_map (faithful_exactly _ s) _

theorem faithful_quotedLiteral (quote : Char) : Faithful policy (quotedLiteral quote) :=
  fun cs => faithful_map (faithful_quotedInner quote cs) _

/-! ## Lexemes -/

/-- Of the lexemes that a reader takes, those without a meaning have one of two shapes. -/
def Classified (p : Reader (List Char)) : Prop :=
  ∀ {cs w rest}, p cs = .done w rest →
    skipJunk cs = w ++ rest ∧ (meaning? w = none → Unclassifiable w)

theorem classified_lowerName : Classified lowerName := by
  intro cs w rest h
  obtain ⟨hj, hw, -⟩ := nameFrom_eq_done.mp h
  exact ⟨hj, fun hm => by rw [meaning?_lower hw] at hm; cases hm⟩

theorem classified_upperName : Classified upperName := by
  intro cs w rest h
  obtain ⟨hj, hw, -⟩ := nameFrom_eq_done.mp h
  exact ⟨hj, fun hm => by rw [meaning?_upper hw] at hm; cases hm⟩

theorem classified_decimalNumeral : Classified decimalNumeral := by
  intro cs w rest h
  obtain ⟨hj, -, sign, whole, ds, hs, hw, hd, he⟩ := decimalNumeral_eq_done.mp h
  exact ⟨hj, fun hm => by rw [he, meaning?_decimal hs hw hd] at hm; cases hm⟩

theorem classified_wholeNumeral : Classified wholeNumeral := by
  intro cs w rest h
  obtain ⟨hj, -, sign, whole, hs, hw, he⟩ := wholeNumeral_eq_done.mp h
  subst he
  refine ⟨hj, fun hm => .large hs hw fun hrange => ?_⟩
  rw [meaning?_whole hs hw, Numeral.int64?, if_pos hrange] at hm
  cases hm

theorem classified_quotedLiteral {quote : Char} (hq : isQuote quote = true) :
    Classified (quotedLiteral quote) := by
  intro cs w rest h
  obtain ⟨hj, inner, hi, he⟩ := quotedLiteral_eq_done.mp h
  subst he
  exact ⟨hj, fun _ => .literal hq hi⟩

theorem faithful_lexeme {p : Reader (List Char)} (hp : Faithful policy p) (hc : Classified p) :
    Faithful policy (lexeme policy p) := by
  intro cs
  have h := hp cs
  simp only [lexeme]
  cases hw : p cs with
  | done w rest =>
    obtain ⟨hj, hu⟩ := hc hw
    rw [hw] at h
    cases hm : meaning? w with
    | some t =>
      simp only [hm]
      exact h
    | none =>
      simp only [hm]
      cases policy with
      | commit =>
        exact ⟨rfl, (List.infix_append' [] w rest).trans (hj ▸ (skipJunk_suffix cs).isInfix),
          hm, hu hm⟩
      | backtrack => exact List.suffix_refl cs
  | _ =>
    rw [hw] at h
    exact h

theorem faithful_lexemes : Faithful policy (lexemes policy) := fun cs =>
  faithful_orElse (faithful_lexeme (faithful_nameFrom _) classified_lowerName cs)
    (faithful_orElse (faithful_lexeme (faithful_nameFrom _) classified_upperName cs)
      (faithful_orElse (faithful_lexeme faithful_decimalNumeral classified_decimalNumeral cs)
        (faithful_orElse (faithful_lexeme faithful_wholeNumeral classified_wholeNumeral cs)
          (faithful_orElse
            (faithful_lexeme (faithful_quotedLiteral _) (classified_quotedLiteral rfl) cs)
            (faithful_lexeme (faithful_quotedLiteral _) (classified_quotedLiteral rfl) cs)))))

/-! ## Terms -/

section
variable {p : Reader α} {k : Nat} (h : FaithfulBelow policy k p) {cs : List Char}
include h

theorem faithful_parenthesized (hk : cs.length ≤ k) :
    (parenthesized p cs).Faithful policy cs := by
  refine faithful_bind (faithful_symbol _ cs) fun _ r hm => ?_
  have hr := consumes_mark _ _ _ _ hm
  exact faithful_bind (h r (by omega)) fun _ s _ => faithful_map (faithful_symbol _ s) _

theorem faithful_comma : FaithfulBelow policy k (do mark ','; p) := by
  intro s hs
  refine faithful_bind (faithful_symbol _ s) fun _ t hm => ?_
  have ht := consumes_mark _ _ _ _ hm
  exact h t (by omega)

theorem faithful_commaList1 (hp : Consumes p) (hk : cs.length < k) :
    (commaList1 p cs).Faithful policy cs := by
  refine faithful_bind (h cs hk) fun _ r hx => ?_
  have hr := hp _ _ _ hx
  exact faithful_map (faithful_many (consumes_comma hp.shrinks) (faithful_comma h) r (by omega)) _

end

section
variable {term : Reader Term} {k : Nat} (ht : Consumes term) (h : FaithfulBelow policy k term)
variable {cs : List Char} (hk : cs.length ≤ k)
include ht h hk

theorem faithful_arguments : (arguments term cs).Faithful policy cs :=
  faithful_parenthesized
    (fun _ hr => faithful_map (faithful_optional (faithful_commaList1 h ht hr)) _) hk

theorem faithful_tuple : (tuple term cs).Faithful policy cs :=
  faithful_parenthesized (fun _ hr => faithful_commaList1 h ht hr) hk

theorem faithful_values : (values term cs).Faithful policy cs := by
  refine faithful_bind (faithful_symbol _ cs) fun _ r hm => ?_
  have hr := consumes_mark _ _ _ _ hm
  exact faithful_orElse (faithful_tuple ht h (by omega)) (faithful_map (h r (by omega)) _)

theorem faithful_call : (call term cs).Faithful policy cs := by
  refine faithful_bind (faithful_nameFrom _ cs) fun _ r hn => ?_
  have hr := consumes_nameFrom _ _ _ _ hn
  refine faithful_bind (faithful_arguments ht h (by omega)) fun _ s ha => ?_
  have hs := consumes_arguments ht _ _ _ ha
  exact faithful_map (faithful_optional (faithful_values ht h (by omega))) _

theorem faithful_compound : (compound term cs).Faithful policy cs :=
  faithful_orElse (faithful_call ht h hk) (faithful_map (faithful_tuple ht h hk) _)

theorem faithful_operand : (operand term policy cs).Faithful policy cs :=
  faithful_orElse (faithful_map (faithful_compound ht h hk) _)
    (faithful_orElse (faithful_lexeme (faithful_nameFrom _) classified_upperName cs)
      (faithful_orElse (faithful_lexeme (faithful_nameFrom _) classified_lowerName cs)
        (faithful_orElse (faithful_lexeme faithful_decimalNumeral classified_decimalNumeral cs)
          (faithful_lexeme faithful_wholeNumeral classified_wholeNumeral cs))))

variable {list : Reader (List Term)} (hl : FaithfulBelow policy k list)
include hl

omit ht h in
theorem faithful_listEnd : (listEnd policy list cs).Faithful policy cs := by
  refine faithful_orElse (faithful_bind (faithful_symbol _ cs) fun _ r hm => ?_)
    (faithful_map (faithful_symbol _ cs) _)
  have hr := consumes_mark _ _ _ _ hm
  exact faithful_bind (faithful_orElse
      (faithful_map (faithful_lexeme (faithful_nameFrom _) classified_upperName r) _)
      (hl r (by omega)))
    fun _ s _ => faithful_map (faithful_symbol _ s) _

theorem faithful_bracketed : (bracketed term policy list cs).Faithful policy cs := by
  refine faithful_bind (faithful_symbol _ cs) fun _ r hm => ?_
  have hr := consumes_mark _ _ _ _ hm
  refine faithful_orElse (faithful_bind (faithful_commaList1 h ht (by omega)) fun _ s hs => ?_)
    (faithful_map (faithful_symbol _ r) _)
  have hlen := consumes_commaList1 ht _ _ _ hs
  exact faithful_map (faithful_listEnd (by omega) hl) _

theorem faithful_anyTerm : (anyTerm term policy list cs).Faithful policy cs :=
  faithful_orElse (faithful_map (faithful_compound ht h hk) _)
    (faithful_orElse (faithful_map (faithful_bracketed ht h hk hl) _) (faithful_lexemes cs))

end

theorem faithful_term_list (policy : Policy) (n : Nat) :
    FaithfulBelow policy n (term policy n) ∧ FaithfulBelow policy n (list policy n) := by
  induction n with
  | zero =>
    exact ⟨fun _ hk => absurd hk (Nat.not_lt_zero _), fun _ hk => absurd hk (Nat.not_lt_zero _)⟩
  | succ n ih =>
    obtain ⟨ht, hl⟩ := consumes_term_list policy n
    refine ⟨fun cs hk => ?_, fun cs hk => ?_⟩
    · simp only [term]
      exact faithful_anyTerm ht ih.1 (by omega) ih.2
    · simp only [list]
      exact faithful_bracketed ht ih.1 (by omega) ih.2

/-! ## Formulas -/

theorem faithful_comparison : Faithful policy comparison := by
  have hsign (c : Comparison) (cs : List Char) : (comparisonSign c cs).Faithful policy cs :=
    faithful_map (faithful_exactly _ cs) _
  exact faithful_token fun cs =>
    faithful_orElse (hsign _ cs) (faithful_orElse (hsign _ cs) (faithful_orElse (hsign _ cs)
      (faithful_orElse (hsign _ cs) (faithful_orElse (hsign _ cs) (hsign _ cs)))))

theorem faithful_predicateName : Faithful policy predicateName := by
  intro cs
  have h : (lowerName cs).Faithful policy cs := faithful_nameFrom _ cs
  simp only [predicateName]
  cases hn : lowerName cs with
  | done name rest =>
    rw [hn] at h
    by_cases hne : name = ['n', 'o', 't']
    · simp only [if_pos hne]
      exact List.suffix_refl cs
    · simp only [if_neg hne]
      exact h
  | _ =>
    rw [hn] at h
    exact h

theorem faithful_negationSign : Faithful policy negationSign :=
  fun cs => faithful_orElse (faithful_keyword _ cs) (faithful_symbol _ cs)

theorem faithful_atom (policy : Policy) {n : Nat} {cs : List Char} (hn : cs.length ≤ n) :
    (atom policy n cs).Faithful policy cs := by
  have ht := (consumes_term_list policy n).1
  have h := (faithful_term_list policy n).1
  refine faithful_orElse (faithful_bind (faithful_operand ht h hn) fun _ r hl => ?_)
    (faithful_bind (faithful_predicateName cs) fun _ r hp => ?_)
  · have hr := consumes_operand ht policy _ _ _ hl
    refine faithful_bind (faithful_comparison r) fun _ s hc => ?_
    have hs := consumes_comparison _ _ _ hc
    exact faithful_map (faithful_operand ht h (by omega)) _
  · have hr := consumes_predicateName _ _ _ hp
    exact faithful_map (faithful_optional (faithful_arguments ht h (by omega))) _

section
variable {atom : Reader Atom} {body : Reader Body} {k : Nat}
  (ha : FaithfulBelow policy (k + 1) atom)
  (hb : FaithfulBelow policy k body) {cs : List Char} (hk : cs.length ≤ k)
include ha hb hk

theorem faithful_negation : (negation atom body cs).Faithful policy cs := by
  refine faithful_bind (faithful_negationSign cs) fun _ r hs => ?_
  have hr := consumes_negationSign _ _ _ hs
  exact faithful_orElse (faithful_map (ha r (by omega)) _)
    (faithful_orElse (faithful_map (faithful_parenthesized ha (by omega)) _)
      (faithful_map (faithful_parenthesized hb (by omega)) _))

theorem faithful_literal : (literal atom body cs).Faithful policy cs :=
  faithful_orElse (faithful_negation ha hb hk) (faithful_map (ha cs (by omega)) _)

theorem faithful_anyBody (la : Consumes atom) (lb : Consumes body) :
    (anyBody atom body cs).Faithful policy cs := by
  have hc := consumes_literal la lb
  have hliteral : FaithfulBelow policy (k + 1) (literal atom body) :=
    fun s hs => faithful_literal ha hb (Nat.le_of_lt_succ hs)
  refine faithful_bind (faithful_literal ha hb hk) fun _ r hx => ?_
  have hr := hc _ _ _ hx
  exact faithful_map
    (faithful_many (consumes_comma hc.shrinks) (faithful_comma hliteral) r (by omega)) _

end

theorem faithful_body (policy : Policy) (n : Nat) : FaithfulBelow policy n (body policy n) := by
  induction n with
  | zero => exact fun _ hk => absurd hk (Nat.not_lt_zero _)
  | succ n ih =>
    intro cs hk
    simp only [body]
    exact faithful_anyBody (fun s hs => faithful_atom policy (by omega)) ih (by omega)
      (consumes_atom policy n)
      (consumes_body policy n)

section
variable (policy : Policy) {n : Nat} {cs : List Char} (hn : cs.length < n)
include hn

theorem faithful_rule : (rule policy n cs).Faithful policy cs := by
  refine faithful_bind (faithful_atom policy (Nat.le_of_lt hn)) fun _ r ha => ?_
  have hr := consumes_atom policy n _ _ _ ha
  refine faithful_bind (faithful_symbol _ r) fun _ s hs => ?_
  have hlen := consumes_symbol (by simp) _ _ _ hs
  exact faithful_bind (faithful_body policy n s (by omega)) fun _ t _ =>
    faithful_map (faithful_symbol _ t) _

theorem faithful_closedBody : (closedBody policy n cs).Faithful policy cs :=
  faithful_bind (faithful_body policy n cs hn) fun _ r _ =>
    faithful_map (faithful_optional (faithful_symbol _ r)) _

theorem faithful_formula : (formula policy n cs).Faithful policy cs :=
  faithful_orElse (faithful_map (faithful_rule policy hn) _)
    (faithful_map (faithful_closedBody policy hn) _)

end

/-- A path is taken as it is, so that a directive rejects nothing. -/
theorem faithful_directive : Faithful policy directive := by
  have hpath : Faithful policy path := fun cs =>
    faithful_orElse (faithful_quotedInner _ cs) (faithful_orElse (faithful_quotedInner _ cs)
      (faithful_token (faithful_run1 _) cs))
  intro cs
  exact faithful_bind (faithful_optional (faithful_symbol _ cs)) fun _ r _ =>
    faithful_bind (faithful_keyword _ r) fun _ s _ =>
      faithful_bind (faithful_parenthesized (hpath.below s.length.succ) (Nat.le_succ _))
        fun _ t _ => faithful_map (faithful_optional (faithful_symbol _ t)) _

/-! ## Readings that go on -/

namespace Unbounded

theorem faithful_term : Faithful policy (term policy) :=
  fun cs => (faithful_term_list policy (cs.length + 1)).1 cs (Nat.lt_succ_self _)

theorem plain_tuple : Plain (tuple (term .backtrack)) := fun cs =>
  (faithful_tuple (consumes_term .backtrack) (faithful_term.below cs.length)
    (Nat.le_refl _)).settles

end Unbounded

end Reader

end Clausal
