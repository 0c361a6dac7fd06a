import Clausal.Proofs.Progress

/-!
# The bound on nesting

A reader asks the readers of what it nests about shorter texts only, so it is
settled by what they do there. Hence all bounds above the length of a text read
it alike, and the readers in `Unbounded` are made of themselves, without a bound.
-/

namespace Clausal.Reader

variable {α : Type}

/-- Readers that do the same on all texts below some length. -/
def SameBelow (k : Nat) (p q : Reader α) : Prop :=
  ∀ cs : List Char, cs.length < k → p cs = q cs

theorem parenthesized_congr {p q : Reader α} {k : Nat} (h : SameBelow k p q) {cs : List Char}
    (hk : cs.length ≤ k) : parenthesized p cs = parenthesized q cs := by
  apply bind_congr rfl
  intro _ r hm
  have hr := consumes_mark _ _ _ _ hm
  exact bind_congr (h r (by omega)) fun _ _ _ => rfl

theorem commaList1_congr {p q : Reader α} {k : Nat} (hp : Consumes p) (h : SameBelow k p q) :
    SameBelow k (commaList1 p) (commaList1 q) := by
  intro cs hk
  apply bind_congr (h cs hk)
  intro x r hx
  have hr := hp _ _ _ hx
  refine bind_congr (many_congr (consumes_comma hp.shrinks) fun s hs => ?_) fun _ _ _ => rfl
  apply bind_congr rfl
  intro _ t hm
  have ht := consumes_mark _ _ _ _ hm
  exact h t (by omega)

theorem commaList_congr {p q : Reader α} {k : Nat} (hp : Consumes p) (h : SameBelow k p q) :
    SameBelow k (commaList p) (commaList q) := fun cs hk =>
  bind_congr (optional_congr (commaList1_congr hp h cs hk)) fun _ _ _ => rfl

section
variable {term term' : Reader Term} {k : Nat} (ht : Consumes term) (h : SameBelow k term term')
variable {cs : List Char} (hk : cs.length ≤ k)
include ht h hk

theorem arguments_congr : arguments term cs = arguments term' cs :=
  parenthesized_congr (commaList_congr ht h) hk

theorem tuple_congr : tuple term cs = tuple term' cs :=
  parenthesized_congr (commaList1_congr ht h) hk

theorem values_congr : values term cs = values term' cs := by
  apply bind_congr rfl
  intro _ r hm
  have hr := consumes_mark _ _ _ _ hm
  exact orElse_congr (tuple_congr ht h (by omega)) (bind_congr (h r (by omega)) fun _ _ _ => rfl)

theorem call_congr : call term cs = call term' cs := by
  apply bind_congr rfl
  intro _ r hn
  have hr := consumes_nameFrom _ _ _ _ hn
  apply bind_congr (arguments_congr ht h (by omega))
  intro _ s ha
  have hs := consumes_arguments ht _ _ _ ha
  exact bind_congr (optional_congr (values_congr ht h (by omega))) fun _ _ _ => rfl

theorem compound_congr : compound term cs = compound term' cs :=
  orElse_congr (call_congr ht h hk) (bind_congr (tuple_congr ht h hk) fun _ _ _ => rfl)

theorem operand_congr (policy : Policy) : operand term policy cs = operand term' policy cs :=
  orElse_congr (bind_congr (compound_congr ht h hk) fun _ _ _ => rfl) rfl

theorem typicalAtom_congr : typicalAtom term cs = typicalAtom term' cs := by
  apply bind_congr rfl
  intro _ r hn
  have hr := consumes_predicateName _ _ _ hn
  exact bind_congr (optional_congr (arguments_congr ht h (by omega))) fun _ _ _ => rfl

theorem anyAtom_congr (policy : Policy) : anyAtom term policy cs = anyAtom term' policy cs := by
  refine orElse_congr ?_ (typicalAtom_congr ht h hk)
  apply bind_congr (operand_congr ht h hk policy)
  intro _ r hl
  have hr := consumes_operand ht policy _ _ _ hl
  apply bind_congr rfl
  intro _ s hc
  have hs := consumes_comparison _ _ _ hc
  exact bind_congr (operand_congr ht h (by omega) policy) fun _ _ _ => rfl

variable {list list' : Reader (List Term)} (hl : SameBelow k list list') (policy : Policy)
include hl

omit ht h in
theorem listEnd_congr : listEnd policy list cs = listEnd policy list' cs := by
  refine orElse_congr (bind_congr rfl fun _ r hm => ?_) rfl
  have hr := consumes_mark _ _ _ _ hm
  exact bind_congr (orElse_congr rfl (hl r (by omega))) fun _ _ _ => rfl

theorem bracketed_congr : bracketed term policy list cs = bracketed term' policy list' cs := by
  apply bind_congr rfl
  intro _ r hm
  have hr := consumes_mark _ _ _ _ hm
  refine orElse_congr (bind_congr (commaList1_congr ht h r (by omega)) fun _ s hs => ?_) rfl
  have hs := consumes_commaList1 ht _ _ _ hs
  exact bind_congr (listEnd_congr (by omega) hl policy) fun _ _ _ => rfl

theorem anyTerm_congr : anyTerm term policy list cs = anyTerm term' policy list' cs :=
  orElse_congr (bind_congr (compound_congr ht h hk) fun _ _ _ => rfl)
    (orElse_congr (bind_congr (bracketed_congr ht h hk hl policy) fun _ _ _ => rfl) rfl)

end

/-- **Bounds above the length of a text** make no difference to its terms and lists. -/
theorem term_list_congr (policy : Policy) :
    ∀ (n m : Nat) (cs : List Char), cs.length < n → cs.length < m →
    term policy n cs = term policy m cs ∧ list policy n cs = list policy m cs
  | n + 1, m + 1, cs, hn, hm => by
    -- nested terms stand behind at least one character, where the bounds are one less
    obtain ⟨ht, -⟩ := consumes_term_list policy n
    have h : SameBelow cs.length (term policy n) (term policy m) := fun r hr =>
      (term_list_congr policy n m r (by omega) (by omega)).1
    have hl : SameBelow cs.length (list policy n) (list policy m) := fun r hr =>
      (term_list_congr policy n m r (by omega) (by omega)).2
    simp only [term, list]
    exact ⟨anyTerm_congr ht h (Nat.le_refl _) hl policy,
      bracketed_congr ht h (Nat.le_refl _) hl policy⟩

/-- The atom that is negated stands behind the sign. -/
theorem negation_congr {atom atom' : Reader Atom} {body body' : Reader Body} {k : Nat}
    (h : SameBelow k atom atom') (h' : SameBelow k body body') {cs : List Char}
    (hk : cs.length ≤ k) :
    negation atom body cs = negation atom' body' cs := by
  apply bind_congr rfl
  intro _ r hs
  have hr := consumes_negationSign _ _ _ hs
  exact orElse_congr (bind_congr (h r (by omega)) fun _ _ _ => rfl)
    (orElse_congr (bind_congr (parenthesized_congr h (by omega)) fun _ _ _ => rfl)
      (bind_congr (parenthesized_congr h' (by omega)) fun _ _ _ => rfl))

section
variable {atom atom' : Reader Atom} {body body' : Reader Body} {k : Nat} (ha : Consumes atom)
  (hb : Consumes body) (h : SameBelow (k + 1) atom atom') (h' : SameBelow k body body')
variable {cs : List Char} (hk : cs.length ≤ k)
include ha h h' hk

omit ha in
theorem literal_congr : literal atom body cs = literal atom' body' cs :=
  orElse_congr (negation_congr (fun r hr => h r (by omega)) h' hk)
    (bind_congr (h cs (by omega)) fun _ _ _ => rfl)

include hb in
theorem anyBody_congr : anyBody atom body cs = anyBody atom' body' cs := by
  have hc := consumes_literal ha hb
  apply bind_congr (literal_congr h h' hk)
  intro _ r hl
  have hr := hc _ _ _ hl
  refine bind_congr (many_congr (consumes_comma hc.shrinks) fun s hs => ?_) fun _ _ _ => rfl
  apply bind_congr rfl
  intro _ t hm
  have ht := consumes_mark _ _ _ _ hm
  exact literal_congr h h' (by omega)

end

theorem consumes_atom (policy : Policy) (n : Nat) : Consumes (atom policy n) :=
  consumes_anyAtom (consumes_term_list policy n).1 policy

theorem atom_congr (policy : Policy) {n m : Nat} {cs : List Char} (hn : cs.length ≤ n)
    (hm : cs.length ≤ m) :
    atom policy n cs = atom policy m cs :=
  anyAtom_congr (consumes_term_list policy n).1
    (fun r hr => (term_list_congr policy n m r (by omega) (by omega)).1) (Nat.le_refl _) policy

theorem consumes_body (policy : Policy) (n : Nat) : Consumes (body policy n) := by
  induction n with
  | zero =>
    intro cs b rest h
    simp [body, exhausted] at h
  | succ n ih =>
    intro cs b rest h
    simp only [body] at h
    exact consumes_anyBody (consumes_atom policy n) ih cs b rest h

theorem body_congr (policy : Policy) :
    ∀ (n m : Nat) (cs : List Char), cs.length < n → cs.length < m →
    body policy n cs = body policy m cs
  | n + 1, m + 1, cs, hn, hm => by
    simp only [body]
    exact anyBody_congr (consumes_atom policy n) (consumes_body policy n)
      (fun r hr => atom_congr policy (by omega) (by omega))
      (fun r hr => body_congr policy n m r (by omega) (by omega)) (Nat.le_refl _)

/-! ## Readers without a bound -/

namespace Unbounded

variable (policy : Policy)

def term : Reader Term := fun cs => Reader.term policy (cs.length + 1) cs

def list : Reader (List Term) := fun cs => Reader.list policy (cs.length + 1) cs

def atom : Reader Atom := anyAtom (term policy) policy

def body : Reader Body := fun cs => Reader.body policy (cs.length + 1) cs

theorem term_eq {n : Nat} {cs : List Char} (hn : cs.length < n) :
    Reader.term policy n cs = term policy cs :=
  (term_list_congr policy n _ cs hn (Nat.lt_succ_self _)).1

theorem list_eq {n : Nat} {cs : List Char} (hn : cs.length < n) :
    Reader.list policy n cs = list policy cs :=
  (term_list_congr policy n _ cs hn (Nat.lt_succ_self _)).2

theorem term_apply (cs : List Char) :
    term policy cs = anyTerm (term policy) policy (list policy) cs :=
  anyTerm_congr (consumes_term_list policy cs.length).1 (fun _ hr => term_eq policy hr)
    (Nat.le_refl _)
    (fun _ hr => list_eq policy hr) policy

theorem list_apply (cs : List Char) :
    list policy cs = bracketed (term policy) policy (list policy) cs :=
  bracketed_congr (consumes_term_list policy cs.length).1 (fun _ hr => term_eq policy hr)
    (Nat.le_refl _)
    (fun _ hr => list_eq policy hr) policy

theorem consumes_term : Consumes (term policy) :=
  fun cs => (consumes_term_list policy (cs.length + 1)).1 cs

theorem compound_eq {n : Nat} {cs : List Char} (hn : cs.length ≤ n) :
    compound (Reader.term policy n) cs = compound (term policy) cs :=
  compound_congr (consumes_term_list policy n).1 (fun _ hr => term_eq policy (by omega)) hn

theorem atom_eq {n : Nat} {cs : List Char} (hn : cs.length ≤ n) :
    Reader.atom policy n cs = atom policy cs :=
  anyAtom_congr (consumes_term_list policy n).1 (fun _ hr => term_eq policy (by omega)) hn policy

theorem consumes_atom : Consumes (atom policy) := consumes_anyAtom (consumes_term policy) policy

theorem body_eq {n : Nat} {cs : List Char} (hn : cs.length < n) :
    Reader.body policy n cs = body policy cs :=
  body_congr policy n _ cs hn (Nat.lt_succ_self _)

theorem consumes_body : Consumes (body policy) :=
  fun cs => Reader.consumes_body policy (cs.length + 1) cs

theorem body_apply (cs : List Char) : body policy cs = anyBody (atom policy) (body policy) cs :=
  anyBody_congr (Reader.consumes_atom policy cs.length) (Reader.consumes_body policy cs.length)
    (fun _ hr => atom_eq policy (by omega)) (fun _ hr => body_eq policy hr) (Nat.le_refl _)

end Unbounded

end Clausal.Reader
