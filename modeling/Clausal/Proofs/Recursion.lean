import Clausal.Proofs.Parse
import Clausal.Proofs.Faithful

/-!
# The recursion of the grammar

A production asks for others: about what it nests, which stands behind at least
one character, or about an alternative that it tries in front of the same text.
The length of the rest counts for the former, the rank of the production for the
latter, so no chain of calls goes on for ever. Every bound above the length of a
text then reads it alike, be it a bound on nesting or on the depth of the calls.
-/

namespace Clausal.Reader

inductive Production
  | term
  | list
  | tuple
  | compound
  | operand
  | atom
  | negation
  | literal
  | body
  | rule
  | closedBody
  | formula
deriving DecidableEq

namespace Production

abbrev Value : Production → Type
  | term | operand => Term
  | list | tuple => List Term
  | compound => Compound
  | atom => Atom
  | negation | literal | body | closedBody => Body
  | rule => Rule
  | formula => Formula

/-- What a production may ask for in front of the very text it reads. -/
def alternatives : Production → List Production
  | term => [compound, list]
  | compound => [tuple]
  | operand => [compound]
  | atom => [operand]
  | literal => [negation, atom]
  | rule => [atom]
  | body => [literal]
  | closedBody => [body]
  | formula => [rule, closedBody]
  | list | tuple | negation => []

/-- How many alternatives can follow each other in front of one text. -/
def rank : Production → Nat
  | list | tuple | negation => 0
  | compound => 1
  | term | operand => 2
  | atom => 3
  | literal | rule => 4
  | body => 5
  | closedBody => 6
  | formula => 7

theorem rank_descends {p q : Production} (h : q ∈ p.alternatives) : q.rank < p.rank := by
  revert q
  cases p <;> decide

theorem rank_lt_eight (p : Production) : p.rank < 8 := by
  cases p <;> decide

/-- The length of the rest comes first, then the rank. -/
def weight (p : Production) (cs : List Char) : Nat := 8 * cs.length + p.rank

end Production

abbrev Readers := (p : Production) → Reader p.Value

namespace Readers

variable (policy : Policy)

/-- The grammar under a bound on nesting. -/
def level (n : Nat) : Readers
  | .term => Reader.term policy n
  | .list => Reader.list policy n
  | .tuple => Reader.tuple (Reader.term policy n)
  | .compound => Reader.compound (Reader.term policy n)
  | .operand => Reader.operand (Reader.term policy n) policy
  | .atom => Reader.atom policy n
  | .negation => Reader.negation (Reader.atom policy n) (Reader.body policy n)
  | .literal => Reader.literal (Reader.atom policy n) (Reader.body policy n)
  | .body => Reader.body policy n
  | .rule => Reader.rule policy n
  | .closedBody => Reader.closedBody policy n
  | .formula => Reader.formula policy n

/-- The grammar without a bound. -/
def unbounded : Readers
  | .term => Unbounded.term policy
  | .list => Unbounded.list policy
  | .tuple => Reader.tuple (Unbounded.term policy)
  | .compound => Reader.compound (Unbounded.term policy)
  | .operand => Reader.operand (Unbounded.term policy) policy
  | .atom => Unbounded.atom policy
  | .negation => Reader.negation (Unbounded.atom policy) (Unbounded.body policy)
  | .literal => Reader.literal (Unbounded.atom policy) (Unbounded.body policy)
  | .body => Unbounded.body policy
  | .rule => Unbounded.rule policy
  | .closedBody => Unbounded.closedBody policy
  | .formula => Unbounded.formula policy

/-- What each production does itself, with given readers for all that it asks for. -/
def step (x : Readers) : Readers
  | .term =>
    (do let f ← x .compound; return f.toTerm) <|>
    (do let items ← x .list; return .list items) <|>
    lexemes policy
  | .list => bracketed (x .term) policy (x .list)
  | .tuple => Reader.tuple (x .term)
  | .compound => call (x .term) <|> (do let args ← x .tuple; return Compound.tuple args)
  | .operand =>
    (do let f ← x .compound; return f.toTerm) <|>
    lexeme policy upperName <|>
    lexeme policy lowerName <|>
    lexeme policy decimalNumeral <|>
    lexeme policy wholeNumeral
  | .atom =>
    (do
      let left ← x .operand
      let c ← comparison
      let right ← x .operand
      return Atom.compare c left right) <|>
    typicalAtom (x .term)
  | .negation => Reader.negation (x .atom) (x .body)
  | .literal => x .negation <|> (do let a ← x .atom; return .atom a)
  | .body => do
    let first ← x .literal
    let others ← many do
      mark ','
      x .literal
    return first.join others
  | .rule => do
    let head ← x .atom
    neck
    let b ← x .body
    period
    return ⟨head, b⟩
  | .closedBody => do
    let b ← x .body
    let _ ← optional period
    return b
  | .formula =>
    (do let r ← x .rule; return .rule r) <|>
    (do let b ← x .closedBody; return .body b)

/-- The grammar under a bound on the depth of calls, each of which costs one. -/
def within : Nat → Readers
  | 0 => fun _ => exhausted
  | n + 1 => step policy (within n)

/-! ## The step of a production -/

section
variable {x y : Readers} (hx : ∀ q, Consumes (x q)) {p : Production} {cs : List Char}
  (h : ∀ q, SameBelow cs.length (x q) (y q)) (h' : ∀ q ∈ p.alternatives, x q cs = y q cs)
include hx h h'

/-- A production asks about shorter texts, and for its alternatives. -/
theorem step_congr : step policy x p cs = step policy y p cs := by
  cases p with
  | term =>
    exact orElse_congr (bind_congr (h' .compound (by decide)) fun _ _ _ => rfl)
      (orElse_congr (bind_congr (h' .list (by decide)) fun _ _ _ => rfl) rfl)
  | list => exact bracketed_congr (hx .term) (h .term) (Nat.le_refl _) (h .list) policy
  | tuple => exact tuple_congr (hx .term) (h .term) (Nat.le_refl _)
  | compound =>
    exact orElse_congr (call_congr (hx .term) (h .term) (Nat.le_refl _))
      (bind_congr (h' .tuple (by decide)) fun _ _ _ => rfl)
  | operand => exact orElse_congr (bind_congr (h' .compound (by decide)) fun _ _ _ => rfl) rfl
  | atom =>
    refine orElse_congr (bind_congr (h' .operand (by decide)) fun _ r hl =>
      bind_congr rfl fun _ s hc => ?_)
      (typicalAtom_congr (hx .term) (h .term) (Nat.le_refl _))
    have hr := hx .operand _ _ _ hl
    have hs := consumes_comparison _ _ _ hc
    exact bind_congr (h .operand s (by omega)) fun _ _ _ => rfl
  | negation => exact negation_congr (h .atom) (h .body) (Nat.le_refl _)
  | literal =>
    exact orElse_congr (h' .negation (by decide))
      (bind_congr (h' .atom (by decide)) fun _ _ _ => rfl)
  | body =>
    apply bind_congr (h' .literal (by decide))
    intro _ r hl
    have hr := hx .literal _ _ _ hl
    refine bind_congr (many_congr (consumes_comma (hx .literal).shrinks) fun s hs => ?_)
      fun _ _ _ => rfl
    apply bind_congr rfl
    intro _ t hm
    have ht := consumes_mark _ _ _ _ hm
    exact h .literal t (by omega)
  | rule =>
    apply bind_congr (h' .atom (by decide))
    intro _ r ha
    have hr := hx .atom _ _ _ ha
    apply bind_congr rfl
    intro _ s hn
    have hs := consumes_symbol (by simp) _ _ _ hn
    exact bind_congr (h .body s (by omega)) fun _ _ _ => rfl
  | closedBody => exact bind_congr (h' .body (by decide)) fun _ _ _ => rfl
  | formula =>
    exact orElse_congr (bind_congr (h' .rule (by decide)) fun _ _ _ => rfl)
      (bind_congr (h' .closedBody (by decide)) fun _ _ _ => rfl)

end

/-- Without a bound, the grammar is made of itself. -/
theorem unbounded_eq_step (p : Production) (cs : List Char) :
    unbounded policy p cs = step policy (unbounded policy) p cs := by
  cases p with
  | term =>
    refine (Unbounded.term_apply policy cs).trans (orElse_congr rfl (orElse_congr ?_ rfl))
    exact bind_congr (Unbounded.list_apply policy cs).symm fun _ _ _ => rfl
  | list => exact Unbounded.list_apply policy cs
  | body => exact Unbounded.body_apply policy cs
  | _ => rfl

/-! ## Bounds on nesting -/

/-- **Every success takes a character**, whatever the bound. -/
theorem consumes_level (n : Nat) (p : Production) : Consumes (level policy n p) := by
  have ht := (consumes_term_list policy n).1
  have ha := Reader.consumes_atom policy n
  have hb := Reader.consumes_body policy n
  have hrule : Consumes (Reader.rule policy n) :=
    consumes_bind ha fun _ => shrinks_bind (consumes_symbol (by simp)).shrinks fun _ =>
      shrinks_bind hb.shrinks fun _ => shrinks_bind (consumes_mark '.').shrinks fun _ =>
        shrinks_pure _
  have hclosed : Consumes (Reader.closedBody policy n) :=
    consumes_bind hb fun _ => shrinks_bind (shrinks_optional (consumes_mark '.').shrinks) fun _ =>
      shrinks_pure _
  cases p with
  | term => exact ht
  | list => exact (consumes_term_list policy n).2
  | tuple => exact consumes_tuple ht
  | compound => exact consumes_compound ht
  | operand => exact consumes_operand ht policy
  | atom => exact ha
  | negation => exact consumes_negation ha hb
  | literal => exact consumes_literal ha hb
  | body => exact hb
  | rule => exact hrule
  | closedBody => exact hclosed
  | formula =>
    exact consumes_orElse (consumes_bind hrule fun _ => shrinks_pure _)
      (consumes_bind hclosed fun _ => shrinks_pure _)

section
variable {n : Nat} {cs : List Char} (hn : cs.length < n)
include hn

/-- Bounds above the length of a text make no difference to it. -/
theorem level_eq (p : Production) : level policy n p cs = unbounded policy p cs := by
  have ht := (consumes_term_list policy n).1
  have h : SameBelow n (Reader.term policy n) (Unbounded.term policy) :=
    fun _ hr => Unbounded.term_eq policy hr
  have ha : SameBelow (cs.length + 1) (Reader.atom policy n) (Unbounded.atom policy) :=
    fun r hr => Unbounded.atom_eq policy (by omega)
  have hb : SameBelow cs.length (Reader.body policy n) (Unbounded.body policy) :=
    fun r hr => Unbounded.body_eq policy (by omega)
  cases p with
  | term => exact Unbounded.term_eq policy hn
  | list => exact Unbounded.list_eq policy hn
  | tuple => exact tuple_congr ht h (Nat.le_of_lt hn)
  | compound => exact compound_congr ht h (Nat.le_of_lt hn)
  | operand => exact operand_congr ht h (Nat.le_of_lt hn) policy
  | atom => exact Unbounded.atom_eq policy (Nat.le_of_lt hn)
  | negation => exact negation_congr (fun r hr => ha r (by omega)) hb (Nat.le_refl _)
  | literal => exact literal_congr ha hb (Nat.le_refl _)
  | body => exact Unbounded.body_eq policy hn
  | rule => exact Unbounded.rule_eq policy hn
  | closedBody => exact Unbounded.closedBody_eq policy hn
  | formula => exact Unbounded.formula_eq policy hn

theorem faithful_level (p : Production) : (level policy n p cs).Faithful policy cs := by
  have ht := consumes_term_list policy n
  have hf := faithful_term_list policy n
  have ha : FaithfulBelow policy (cs.length + 1) (Reader.atom policy n) :=
    fun r hr => faithful_atom policy (by omega)
  have hb : FaithfulBelow policy cs.length (Reader.body policy n) :=
    fun r hr => faithful_body policy n r (by omega)
  cases p with
  | term => exact hf.1 cs hn
  | list => exact hf.2 cs hn
  | tuple => exact faithful_tuple ht.1 hf.1 (Nat.le_of_lt hn)
  | compound => exact faithful_compound ht.1 hf.1 (Nat.le_of_lt hn)
  | operand => exact faithful_operand ht.1 hf.1 (Nat.le_of_lt hn)
  | atom => exact faithful_atom policy (Nat.le_of_lt hn)
  | negation => exact faithful_negation ha hb (Nat.le_refl _)
  | literal => exact faithful_literal ha hb (Nat.le_refl _)
  | body => exact faithful_body policy n cs hn
  | rule => exact faithful_rule policy hn
  | closedBody => exact faithful_closedBody policy hn
  | formula => exact faithful_formula policy hn

end

theorem consumes_unbounded (p : Production) : Consumes (unbounded policy p) := by
  intro cs v rest h
  rw [← level_eq policy (Nat.lt_succ_self cs.length)] at h
  exact consumes_level policy _ p cs v rest h

theorem unbounded_ne_exhausted (p : Production) (cs : List Char) :
    unbounded policy p cs ≠ .exhausted := by
  rw [← level_eq policy (Nat.lt_succ_self cs.length)]
  exact (faithful_level policy (Nat.lt_succ_self _) p).ne_exhausted

/-! ## Calls -/

/-- Reading `cs` as `p` takes a call of `q` at `s`: with some other reply to it, the reading comes
out differently. Every call that is made shows in this way, since exhaustion ends the whole
reading. -/
def Calls (p : Production) (cs : List Char) (q : Production) (s : List Char) : Prop :=
  ∃ x : Readers, (∀ r t, ¬ (r = q ∧ t = s) → x r t = unbounded policy r t) ∧
    step policy x p cs ≠ unbounded policy p cs

section
variable {policy} {p q : Production} {cs s : List Char}

/-- A call is made if the reading ends where the call does. -/
theorem calls_of_cut
    (h : step policy (fun r t => if r = q ∧ t = s then .exhausted else unbounded policy r t) p cs =
      .exhausted) :
    Calls policy p cs q s :=
  ⟨_, fun _ _ hn => if_neg hn, h ▸ (unbounded_ne_exhausted policy p cs).symm⟩

/-- **A nested call** is about a shorter text, or it is for an alternative in front of the same
one. -/
theorem Calls.descends (h : Calls policy p cs q s) :
    s.length < cs.length ∨ s = cs ∧ q ∈ p.alternatives := by
  obtain ⟨x, hx, hne⟩ := h
  by_cases hs : s.length < cs.length
  · exact .inl hs
  by_cases hq : s = cs ∧ q ∈ p.alternatives
  · exact .inr hq
  -- the step depends on other replies only, and those are what they were
  rw [unbounded_eq_step] at hne
  refine absurd (step_congr policy (consumes_unbounded policy) (fun r t ht => ?_) fun r hr =>
    ?_).symm hne
  · refine (hx r t fun he => hs ?_).symm
    exact he.2 ▸ ht
  · refine (hx r cs fun he => hq ?_).symm
    exact ⟨he.2.symm, he.1 ▸ hr⟩

theorem Calls.weight_lt (h : Calls policy p cs q s) : q.weight s < p.weight cs := by
  have hq := q.rank_lt_eight
  unfold Production.weight
  rcases h.descends with hs | ⟨rfl, hr⟩
  · omega
  · have := Production.rank_descends hr
    omega

end

theorem calls_wellFounded :
    WellFounded fun b a : Production × List Char => Calls policy a.1 a.2 b.1 b.2 :=
  Subrelation.wf (fun h => h.weight_lt)
    (InvImage.wf (fun a : Production × List Char => a.1.weight a.2) Nat.lt_wfRel.wf)

/-- Calls that cost one each end before a bound above the weight is used up. -/
theorem within_eq (n : Nat) : ∀ (p : Production) (cs : List Char), p.weight cs < n →
    within policy n p cs = unbounded policy p cs := by
  induction n with
  | zero => exact fun _ _ h => absurd h (Nat.not_lt_zero _)
  | succ n ih =>
    intro p cs hn
    unfold Production.weight at ih hn
    rw [unbounded_eq_step]
    refine (step_congr policy (consumes_unbounded policy) (fun q s hs => ?_) fun q hq => ?_).symm
    · have := q.rank_lt_eight
      exact (ih q s (by omega)).symm
    · have := Production.rank_descends hq
      exact (ih q cs (by omega)).symm

/-- **The recursion of the grammar is well founded.** Every success takes a character, every call is
about a shorter text or for one of the few alternatives in front of the same one, and so no calls go
on for ever. What a production replies satisfies its own equation and is the same under every bound
above a linear function of the length of the text, on the nesting as on the depth of calls. -/
theorem grammar_wellFounded :
    (∀ p, Consumes (unbounded policy p) ∧ ∀ n, Consumes (level policy n p)) ∧
    (∀ p cs q s, Calls policy p cs q s →
      s.length < cs.length ∨ s = cs ∧ q ∈ p.alternatives) ∧
    (WellFounded fun b a : Production × List Char => Calls policy a.1 a.2 b.1 b.2) ∧
    ∀ p cs,
      unbounded policy p cs ≠ .exhausted ∧
      unbounded policy p cs = step policy (unbounded policy) p cs ∧
      (∀ n, cs.length < n → level policy n p cs = unbounded policy p cs) ∧
      ∀ n, 8 * (cs.length + 1) ≤ n → within policy n p cs = unbounded policy p cs := by
  refine ⟨fun p => ⟨consumes_unbounded policy p, fun n => consumes_level policy n p⟩,
    fun _ _ _ _ h => h.descends, calls_wellFounded policy, fun p cs => ?_⟩
  refine ⟨unbounded_ne_exhausted policy p cs, unbounded_eq_step policy p cs,
    fun n hn => level_eq policy hn p,
    fun n hn => within_eq policy n p cs ?_⟩
  have := p.rank_lt_eight
  unfold Production.weight
  omega

theorem grammar_wellFounded_of_list :
    Calls .commit .term "[a]".toList .list "[a]".toList ∧
    Calls .commit .list "[a]".toList .term "a]".toList ∧
    ("a]".toList.length < "[a]".toList.length ∨ "a]".toList = "[a]".toList ∧
      .term ∈ Production.list.alternatives) ∧
    level .commit 4 .term "[a]".toList = .done (.list [.const (.str "a")]) [] ∧
    within .commit 32 .term "[a]".toList = .done (.list [.const (.str "a")]) [] := by
  obtain ⟨-, hcalls, -, hreplies⟩ := grammar_wellFounded .commit
  have hlist : Calls .commit .term "[a]".toList .list "[a]".toList := calls_of_cut (by decide)
  have hterm : Calls .commit .list "[a]".toList .term "a]".toList := calls_of_cut (by decide)
  have hlevel : level .commit 4 .term "[a]".toList = .done (.list [.const (.str "a")]) [] := by
    decide
  obtain ⟨-, -, hlevels, hwithin⟩ := hreplies .term "[a]".toList
  refine ⟨hlist, hterm, hcalls _ _ _ _ hterm, hlevel, ?_⟩
  exact (hwithin 32 (by decide)).trans ((hlevels 4 (by decide)).symm.trans hlevel)

end Readers

end Clausal.Reader
