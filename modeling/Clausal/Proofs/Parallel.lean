import Clausal.Proofs.Alike
import Clausal.Proofs.Faithful
import Clausal.Proofs.Parse

/-!
# Reading alike texts

A reader does the same on two texts with the same tokens: it takes the same value
of both and leaves texts that are alike again, or it is stuck on both. Lexemes
without meaning must not end the whole reading, as there may be such a lexeme in a
part that only one alternative comes to.
-/

namespace Clausal

open Lexeme Reader

variable {α β : Type}

/-- The same value is read, with related rests, or none is. -/
inductive Reply.Matches (R : List Char → List Char → Prop) : Reply α → Reply α → Prop
  | done {x r s} : R r s → Matches R (.done x r) (.done x s)
  | stuck {r s} : Matches R (.stuck r) (.stuck s)

theorem Reply.Matches.outcome {R : List Char → List Char → Prop} {a b : Reply α}
    (h : a.Matches R b) :
    (∃ x r s, a = .done x r ∧ b = .done x s ∧ R r s) ∨
      ∃ r s, a = .stuck r ∧ b = .stuck s := by
  cases h with
  | done h => exact .inl ⟨_, _, _, rfl, rfl, h⟩
  | stuck => exact .inr ⟨_, _, rfl, rfl⟩

theorem Reply.Matches.of_done {R : List Char → List Char → Prop} {a b : Reply α}
    (h : a.Matches R b) {x : α} {r : List Char} (ha : a = .done x r) :
    ∃ s, b = .done x s ∧ R r s := by
  cases h with
  | done h =>
    cases ha
    exact ⟨_, rfl, h⟩
  | stuck => cases ha

namespace Reader

/-! ## Composed readers -/

section
variable {R R' : List Char → List Char → Prop} {p p' q q' : Reader α} {cs ds : List Char}
variable (hp : (p cs).Matches R (p' ds))
include hp

theorem matches_bind {f : α → Reader β}
    (hf : ∀ x r s, p cs = .done x r → R r s → (f x r).Matches R' (f x s)) :
    ((p >>= f) cs).Matches R' ((p' >>= f) ds) := by
  simp only [bind_apply, Reader.bind]
  rcases hp.outcome with ⟨x, r, s, hc, hd, hR⟩ | ⟨r, s, hc, hd⟩
  · rw [hc, hd]
    exact hf x r s hc hR
  · rw [hc, hd]
    exact .stuck

theorem matches_map (g : α → β) :
    ((do let x ← p; return g x : Reader β) cs).Matches R
      ((do let x ← p'; return g x : Reader β) ds) :=
  matches_bind hp fun _ _ _ _ hR => .done hR

theorem matches_orElse (hq : (q cs).Matches R (q' ds)) :
    ((p <|> q) cs).Matches R ((p' <|> q') ds) := by
  simp only [orElse_apply, Reader.orElse]
  rcases hp.outcome with ⟨x, r, s, hc, hd, hR⟩ | ⟨r, s, hc, hd⟩
  · rw [hc, hd]
    exact .done hR
  · rw [hc, hd]
    rcases hq.outcome with ⟨x, r, s, hc, hd, hR⟩ | ⟨r, s, hc, hd⟩
    · rw [hc, hd]
      exact .done hR
    · rw [hc, hd]
      exact .stuck

theorem matches_optional (h : R cs ds) : (optional p cs).Matches R (optional p' ds) := by
  simp only [optional]
  rcases hp.outcome with ⟨x, r, s, hc, hd, hR⟩ | ⟨r, s, hc, hd⟩
  · rw [hc, hd]
    exact .done hR
  · rw [hc, hd]
    exact .done h

end

/-- A reader that takes a character each time is repeated alike, whatever the bounds. -/
theorem matches_repeated {R : List Char → List Char → Prop} {p : Reader α} (hc : Consumes p)
    {k : Nat} (h : ∀ cs ds : List Char, cs.length < k → R cs ds → (p cs).Matches R (p ds))
    (n : Nat) :
    ∀ (m : Nat) (cs ds : List Char), cs.length < k → cs.length < n →
      ds.length < m → R cs ds →
      (repeated p n cs).Matches R (repeated p m ds) := by
  induction n with
  | zero => exact fun _ _ _ _ hn => absurd hn (Nat.not_lt_zero _)
  | succ n ih =>
    intro m cs ds hk hn hm hR
    obtain ⟨m, rfl⟩ := Nat.exists_eq_succ_of_ne_zero (Nat.ne_zero_of_lt hm)
    simp only [repeated]
    rcases (h cs ds hk hR).outcome with ⟨x, r, s, hx, hy, hR'⟩ | ⟨r, s, hx, hy⟩
    · have hr := hc _ _ _ hx
      have hs := hc _ _ _ hy
      have hrest : (repeated p n r).Matches R (repeated p m s) :=
        ih m r s (by omega) (by omega) (by omega) hR'
      rw [hx, hy]
      exact matches_map hrest (x :: ·)
    · rw [hx, hy]
      exact .done hR

theorem matches_many {R : List Char → List Char → Prop} {p : Reader α} (hc : Consumes p)
    {cs ds : List Char}
    (h : ∀ r s : List Char, r.length ≤ cs.length → R r s → (p r).Matches R (p s))
    (hR : R cs ds) :
    (many p cs).Matches R (many p ds) :=
  matches_repeated hc (fun r s hr => h r s (Nat.le_of_lt_succ hr)) (cs.length + 1)
    (ds.length + 1) cs ds
    (Nat.lt_succ_self _) (Nat.lt_succ_self _) (Nat.lt_succ_self _) hR

/-! ## Tokens -/

/-- What the reader takes off a text, it takes off every text alike. The number of open brackets may
change. -/
def Transfers (depth depth' : Nat) (p : Reader α) : Prop :=
  ∀ {t u cs ds : List Char} {x : α} {r : List Char},
  Bare t → Alike t u depth cs ds → p cs = .done x r →
  ∃ s, p ds = .done x s ∧ Alike t u depth' r s

theorem Transfers.matches {depth depth' : Nat} {p : Reader α} (h : Transfers depth depth' p)
    (hp : Plain p) {t u cs ds : List Char} (ht : Bare t) (hu : Bare u)
    (ha : Alike t u depth cs ds) :
    (p cs).Matches (Alike t u depth') (p ds) := by
  rcases hp cs with ⟨x, r, hx⟩ | ⟨r, hr⟩
  · obtain ⟨s, hs, ha'⟩ := h ht ha hx
    rw [hx, hs]
    exact .done ha'
  · rcases hp ds with ⟨y, s, hy⟩ | ⟨s, hs⟩
    · obtain ⟨q, hq, -⟩ := h hu ha.symm hy
      rw [hr] at hq
      cases hq
    · rw [hr, hs]
      exact .stuck

section
variable {depth : Nat}

theorem transfers_mark {c : Char} {depth' : Nat} (hl : lead? c = none) (hs : isSolid c = true)
    (hn : c ≠ ':') (hd : depth = 0 → c ≠ ')') (hb : depthBehind [c] depth = depth') :
    Transfers depth depth' (mark c) := by
  intro t u cs ds x r ht ha h
  obtain ⟨s, hs, -, ha'⟩ :=
    ha.step ht (front_of_mark (mark_eq_done.mp h) hl hs hn) (by simpa using hd)
  exact ⟨s, mark_eq_done.mpr hs.skipJunk_eq, hb ▸ ha'⟩

theorem transfers_neck : Transfers depth depth neck := by
  intro t u cs ds x r ht ha h
  obtain ⟨s, hs, -, ha'⟩ := ha.step ht (.neck (symbol_eq_done.mp h)) (by simp)
  exact ⟨s, symbol_eq_done.mpr hs.skipJunk_eq, ha'⟩

theorem transfers_lowerName : Transfers depth depth lowerName := by
  intro t u cs ds w r ht ha h
  obtain ⟨hj, hw⟩ := longest_of_lowerName h
  have hname := (nameFrom_eq_done.mp h).2.1
  obtain ⟨s, hs, hw', ha'⟩ := ha.step_lexeme ht hj hw
  exact ⟨s, nameFrom_eq_done.mpr ⟨hs, hname, hw'.stops_name hname .lower⟩, ha'⟩

theorem transfers_predicateName : Transfers depth depth predicateName := by
  intro t u cs ds w r ht ha h
  obtain ⟨hw, hne⟩ := predicateName_eq_done.mp h
  obtain ⟨s, hs, ha'⟩ := transfers_lowerName ht ha hw
  exact ⟨s, predicateName_eq_done.mpr ⟨hs, hne⟩, ha'⟩

theorem transfers_lexeme_upperName : Transfers depth depth (lexeme .backtrack upperName) := by
  intro t u cs ds x r ht ha h
  obtain ⟨w, h, hm⟩ := lexeme_eq_done.mp h
  obtain ⟨hj, hw⟩ := longest_of_upperName h
  have hname := (nameFrom_eq_done.mp h).2.1
  obtain ⟨s, hs, hw', ha'⟩ := ha.step_lexeme ht hj hw
  exact ⟨s, lexeme_eq_done.mpr
    ⟨w, nameFrom_eq_done.mpr ⟨hs, hname, hw'.stops_name hname .upper⟩, hm⟩, ha'⟩

theorem transfers_lexemes : Transfers depth depth (lexemes .backtrack) := by
  intro t u cs ds x r ht ha h
  obtain ⟨w, hj, hw, hm⟩ := lexemes_eq_done.mp h
  obtain ⟨s, hs, hw', ha'⟩ := ha.step_lexeme ht hj hw
  exact ⟨s, lexemes_eq_done.mpr ⟨w, hs, hw', hm⟩, ha'⟩

theorem transfers_negationSign : Transfers depth depth negationSign := by
  intro t u cs ds x r ht ha h
  rcases negationSign_eq_done.mp h with ⟨hj, hstop⟩ | hj
  · obtain ⟨s, hs, hw, ha'⟩ := ha.step_lexeme ht hj (longest_lower rfl hstop)
    have hname : isLowerName ['n', 'o', 't'] = true := rfl
    exact ⟨s, negationSign_eq_done.mpr (.inl ⟨hs, hw.stops_name hname .lower⟩), ha'⟩
  · obtain ⟨s, hs, ha'⟩ := ha.step_sign ht (by simp [longSigns]) hj
    exact ⟨s, negationSign_eq_done.mpr (.inr hs), ha'⟩

theorem comparison_eq_done {c : Comparison} {cs rest : List Char} : comparison cs = .done c rest ↔
    skipJunk cs = c.sign ++ rest ∧
    (c = .greater → ¬ Comparison.greaterOrEqual.sign <+: skipJunk cs) := by
  have hstuck {d : Comparison} {ds : List Char} : (comparisonSign d ds).IsStuck ↔
      ¬ d.sign <+: ds := by
    have hp : Plain (comparisonSign d) := plain_bind (plain_exactly _) fun _ => plain_pure _
    rw [hp.isStuck_iff]
    simp only [ne_eq, comparisonSign_eq_done]
    constructor
    · intro h hpre
      obtain ⟨r, hr⟩ := hpre
      exact h d r ⟨rfl, hr.symm⟩
    · intro h e r hd
      exact h ⟨r, hd.2.symm⟩
  simp only [comparison, token, orElse_eq_done, comparisonSign_eq_done, hstuck]
  generalize skipJunk cs = ds
  by_cases hds : ds = c.sign ++ rest
  · subst hds
    cases c
    all_goals simp [Comparison.sign]
  · cases c
    all_goals simp [hds]

theorem transfers_comparison : Transfers depth depth comparison := by
  intro t u cs ds c r ht ha h
  obtain ⟨hj, hc⟩ := comparison_eq_done.mp h
  have hlong (hmem : c.sign ∈ longSigns) (hne : c ≠ .greater) :
      ∃ s, comparison ds = .done c s ∧ Alike t u depth r s := by
    obtain ⟨s, hs, ha'⟩ := ha.step_sign ht hmem hj
    exact ⟨s, comparison_eq_done.mpr ⟨hs, fun he => absurd he hne⟩, ha'⟩
  cases c with
  | less =>
    obtain ⟨s, hs, -, ha'⟩ := ha.step ht (front_of_mark hj rfl rfl (by decide)) (by simp)
    exact ⟨s, comparison_eq_done.mpr ⟨hs.skipJunk_eq, by simp⟩, ha'⟩
  | greater =>
    obtain ⟨s, hs, hsame, ha'⟩ := ha.step ht (front_of_mark hj rfl rfl (by decide)) (by simp)
    refine ⟨s, comparison_eq_done.mpr ⟨hs.skipJunk_eq, fun he hpre => hc he ?_⟩, ha'⟩
    exact (hsame _ (by decide)).mpr hpre
  | _ => exact hlong (by decide) (by decide)

/-- The lexemes that an operand may be. -/
def operandLexemes (policy : Policy) : Reader Term :=
  lexeme policy upperName <|> lexeme policy lowerName <|> lexeme policy decimalNumeral <|>
    lexeme policy wholeNumeral

/-- The lexemes of an operand are those of a term but for the quoted literals. -/
theorem operandLexemes_eq_done {policy : Policy} {cs rest : List Char} {x : Term} :
    operandLexemes policy cs = .done x rest ↔
      lexemes policy cs = .done x rest ∧ leads? cs ≠ some .quote := by
  have hlead {p : Reader (List Char)} {l : Lead}
      (hp : ∀ {w rest}, p cs = .done w rest → leads? cs = some l)
      (h : lexeme policy p cs = .done x rest) : leads? cs = some l := by
    obtain ⟨w, hw, -⟩ := lexeme_eq_done.mp h
    exact hp hw
  simp only [operandLexemes, lexemes, orElse_eq_done]
  constructor
  · intro h
    rcases h with h | ⟨hu, h | ⟨hl, h | ⟨hd, h⟩⟩⟩
    · have hc := hlead leads?_of_upperName h
      exact ⟨.inr ⟨lexeme_lowerName_isStuck (by rw [hc]; decide), .inl h⟩,
        by rw [hc]; decide⟩
    · have hc := hlead leads?_of_lowerName h
      exact ⟨.inl h, by rw [hc]; decide⟩
    · have hc := hlead leads?_of_decimalNumeral h
      exact ⟨.inr ⟨hl, .inr ⟨hu, .inl h⟩⟩, by rw [hc]; decide⟩
    · have hc := hlead leads?_of_wholeNumeral h
      exact ⟨.inr ⟨hl, .inr ⟨hu, .inr ⟨hd, .inl h⟩⟩⟩, by rw [hc]; decide⟩
  · intro h
    obtain ⟨h, hq⟩ := h
    rcases h with h | ⟨hl, h | ⟨hu, h | ⟨hd, h | ⟨-, h | ⟨-, h⟩⟩⟩⟩⟩
    · have hc := hlead leads?_of_lowerName h
      exact .inr ⟨lexeme_upperName_isStuck (by rw [hc]; decide), .inl h⟩
    · exact .inl h
    · exact .inr ⟨hu, .inr ⟨hl, .inl h⟩⟩
    · exact .inr ⟨hu, .inr ⟨hl, .inr ⟨hd, h⟩⟩⟩
    · exact absurd (hlead (leads?_of_quotedLiteral rfl) h) hq
    · exact absurd (hlead (leads?_of_quotedLiteral rfl) h) hq

theorem transfers_operandLexemes : Transfers depth depth (operandLexemes .backtrack) := by
  intro t u cs ds x r ht ha h
  obtain ⟨hx, hlead⟩ := operandLexemes_eq_done.mp h
  obtain ⟨w, hj, hw, hm⟩ := lexemes_eq_done.mp hx
  obtain ⟨s, hs, hw', ha'⟩ := ha.step_lexeme ht hj hw
  refine ⟨s, operandLexemes_eq_done.mpr ⟨lexemes_eq_done.mpr ⟨w, hs, hw', hm⟩, ?_⟩, ha'⟩
  obtain ⟨c, v, l, he, -⟩ := hw.isToken.exists_lead
  subst he
  rw [leads?_eq hj] at hlead
  rw [leads?_eq hs]
  exact hlead

end

theorem Faithful.plain {p : Reader α} (h : Faithful .backtrack p) : Plain p :=
  fun cs => (h cs).settles

section
variable {t u : List Char} (ht : Bare t) (hu : Bare u) {depth : Nat} {cs ds : List Char}
include ht hu

theorem matches_opening {c : Char} (hc : c ∈ ['(', '[']) (ha : Alike t u depth cs ds) :
    (mark c cs).Matches (Alike t u (depth + 1)) (mark c ds) := by
  have htransfers : Transfers depth (depth + 1) (mark c) := by
    simp only [List.mem_cons, List.not_mem_nil, or_false] at hc
    rcases hc with hc | hc
    all_goals subst hc; exact transfers_mark rfl rfl (by decide) (fun _ => by decide) rfl
  exact htransfers.matches (plain_symbol [c]) ht hu ha

theorem matches_closing {c : Char} (hc : c ∈ [')', ']']) (ha : Alike t u (depth + 1) cs ds) :
    (mark c cs).Matches (Alike t u depth) (mark c ds) := by
  have htransfers : Transfers (depth + 1) depth (mark c) := by
    simp only [List.mem_cons, List.not_mem_nil, or_false] at hc
    rcases hc with hc | hc
    all_goals
      subst hc
      exact transfers_mark rfl rfl (by decide) (fun h => absurd h (Nat.succ_ne_zero _)) rfl
  exact htransfers.matches (plain_symbol [c]) ht hu ha

/-- The marks of terms and bodies that are no brackets. -/
theorem matches_mark {c : Char} (hc : c ∈ [',', '=', '|', '.']) (ha : Alike t u depth cs ds) :
    (mark c cs).Matches (Alike t u depth) (mark c ds) := by
  have htransfers : Transfers depth depth (mark c) := by
    simp only [List.mem_cons, List.not_mem_nil, or_false] at hc
    rcases hc with hc | hc | hc | hc
    all_goals subst hc; exact transfers_mark rfl rfl (by decide) (fun _ => by decide) rfl
  exact htransfers.matches (plain_symbol [c]) ht hu ha

end

/-! ## Terms -/

/-- A reader that does the same on alike texts, as long as they are shorter than some length. -/
def ParallelBelow (t u : List Char) (k : Nat) (p : Reader α) : Prop :=
  ∀ depth (cs ds : List Char), cs.length < k →
  Alike t u depth cs ds → (p cs).Matches (Alike t u depth) (p ds)

section
variable {t u : List Char} (ht : Bare t) (hu : Bare u)
variable {p : Reader α} {k : Nat} (h : ParallelBelow t u k p) {depth : Nat} {cs ds : List Char}
include ht hu h

theorem matches_parenthesized (hk : cs.length ≤ k) (ha : Alike t u depth cs ds) :
    (parenthesized p cs).Matches (Alike t u depth) (parenthesized p ds) := by
  refine matches_bind (matches_opening ht hu (by simp) ha) fun _ r s hm ha => ?_
  have hr := consumes_mark _ _ _ _ hm
  exact matches_bind (h (depth + 1) r s (by omega) ha) fun _ _ _ _ ha =>
    matches_map (matches_closing ht hu (by simp) ha) _

theorem parallel_comma : ParallelBelow t u k (do mark ','; p) := by
  intro depth cs ds hk ha
  refine matches_bind (matches_mark ht hu (by simp) ha) fun _ r s hm ha => ?_
  have hr := consumes_mark _ _ _ _ hm
  exact h depth r s (by omega) ha

theorem parallel_commaList1 (hp : Consumes p) : ParallelBelow t u k (commaList1 p) := by
  intro depth cs ds hk ha
  refine matches_bind (h depth cs ds hk ha) fun _ r s hx ha => ?_
  have hr := hp _ _ _ hx
  exact matches_map (matches_many (consumes_comma hp.shrinks)
    (fun r' s' hr' ha => parallel_comma ht hu h depth r' s' (by omega) ha) ha) _

theorem parallel_commaList (hp : Consumes p) : ParallelBelow t u k (commaList p) :=
  fun depth cs ds hk ha =>
    matches_map (matches_optional (parallel_commaList1 ht hu h hp depth cs ds hk ha) ha) _

end

theorem plain_lexeme_upperName : Plain (lexeme .backtrack upperName) :=
  (faithful_lexeme (faithful_nameFrom _) classified_upperName).plain

theorem matches_listEnd {t u : List Char} (ht : Bare t) (hu : Bare u) {list : Reader (List Term)}
    {k : Nat} (hl : ParallelBelow t u k list) {depth : Nat} {cs ds : List Char}
    (hk : cs.length ≤ k) (ha : Alike t u (depth + 1) cs ds) :
    (listEnd .backtrack list cs).Matches (Alike t u depth) (listEnd .backtrack list ds) := by
  refine matches_orElse (matches_bind (matches_mark ht hu (by simp) ha) fun _ r s hm ha => ?_)
    (matches_map (matches_closing ht hu (by simp) ha) _)
  have hr := consumes_mark _ _ _ _ hm
  have hvariable := transfers_lexeme_upperName.matches plain_lexeme_upperName ht hu ha
  exact matches_bind (matches_orElse (matches_map hvariable _) (hl (depth + 1) r s (by omega) ha))
    fun _ _ _ _ ha => matches_map (matches_closing ht hu (by simp) ha) _

section
variable {t u : List Char} (ht : Bare t) (hu : Bare u)
variable {term : Reader Term} {k : Nat} (hc : Consumes term) (h : ParallelBelow t u k term)
variable {depth : Nat} {cs ds : List Char} (hk : cs.length ≤ k) (ha : Alike t u depth cs ds)
include ht hu hc h hk ha

theorem matches_arguments : (arguments term cs).Matches (Alike t u depth) (arguments term ds) :=
  matches_parenthesized ht hu (parallel_commaList ht hu h hc) hk ha

theorem matches_tuple : (tuple term cs).Matches (Alike t u depth) (tuple term ds) :=
  matches_parenthesized ht hu (parallel_commaList1 ht hu h hc) hk ha

theorem matches_values : (values term cs).Matches (Alike t u depth) (values term ds) := by
  refine matches_bind (matches_mark ht hu (by simp) ha) fun _ r s hm ha => ?_
  have hr := consumes_mark _ _ _ _ hm
  exact matches_orElse (matches_tuple ht hu hc h (by omega) ha)
    (matches_map (h depth r s (by omega) ha) _)

theorem matches_call : (call term cs).Matches (Alike t u depth) (call term ds) := by
  refine matches_bind (transfers_lowerName.matches (plain_nameFrom _) ht hu ha)
    fun _ r s hn ha => ?_
  have hr := consumes_nameFrom _ _ _ _ hn
  refine matches_bind (matches_arguments ht hu hc h (by omega) ha) fun _ r' s' hargs ha => ?_
  have hr' := consumes_arguments hc _ _ _ hargs
  exact matches_map (matches_optional (matches_values ht hu hc h (by omega) ha) ha) _

theorem matches_compound : (compound term cs).Matches (Alike t u depth) (compound term ds) :=
  matches_orElse (matches_call ht hu hc h hk ha) (matches_map (matches_tuple ht hu hc h hk ha) _)

theorem matches_operand :
    (operand term .backtrack cs).Matches (Alike t u depth) (operand term .backtrack ds) := by
  have hplain : Plain (operandLexemes .backtrack) :=
    plain_orElse plain_lexeme_upperName (plain_orElse
      (faithful_lexeme (faithful_nameFrom _) classified_lowerName).plain (plain_orElse
        (faithful_lexeme faithful_decimalNumeral classified_decimalNumeral).plain
        (faithful_lexeme faithful_wholeNumeral classified_wholeNumeral).plain))
  exact matches_orElse (matches_map (matches_compound ht hu hc h hk ha) _)
    (transfers_operandLexemes.matches hplain ht hu ha)

variable {list : Reader (List Term)} (hl : ParallelBelow t u k list)
include hl

theorem matches_bracketed :
    (bracketed term .backtrack list cs).Matches (Alike t u depth)
      (bracketed term .backtrack list ds) := by
  refine matches_bind (matches_opening ht hu (by simp) ha) fun _ r s hm ha => ?_
  have hr := consumes_mark _ _ _ _ hm
  have hitems := parallel_commaList1 ht hu h hc (depth + 1) r s (by omega) ha
  refine matches_orElse (matches_bind hitems fun _ r' s' hx ha => ?_)
    (matches_map (matches_closing ht hu (by simp) ha) _)
  have hr' := consumes_commaList1 hc _ _ _ hx
  exact matches_map (matches_listEnd ht hu hl (by omega) ha) _

theorem matches_anyTerm :
    (anyTerm term .backtrack list cs).Matches (Alike t u depth) (anyTerm term .backtrack list ds) :=
  matches_orElse (matches_map (matches_compound ht hu hc h hk ha) _)
    (matches_orElse (matches_map (matches_bracketed ht hu hc h hk ha hl) _)
      (transfers_lexemes.matches faithful_lexemes.plain ht hu ha))

end

/-! ## Formulas -/

section
variable {t u : List Char} (ht : Bare t) (hu : Bare u)
include ht hu

section
variable {atom : Reader Atom} {body : Reader Body} (la : Consumes atom)
  (lb : Consumes body) {k : Nat}
  (hatom : ParallelBelow t u (k + 1) atom) (hbody : ParallelBelow t u k body)
variable {depth : Nat} {cs ds : List Char} (hk : cs.length ≤ k) (ha : Alike t u depth cs ds)
include hatom hbody hk ha

theorem matches_negation :
    (negation atom body cs).Matches (Alike t u depth) (negation atom body ds) := by
  refine matches_bind (transfers_negationSign.matches plain_negationSign ht hu ha)
    fun _ r s hs ha => ?_
  have hr := consumes_negationSign _ _ _ hs
  exact matches_orElse (matches_map (hatom depth r s (by omega) ha) _)
    (matches_orElse (matches_map (matches_parenthesized ht hu hatom (by omega) ha) _)
      (matches_map (matches_parenthesized ht hu hbody (by omega) ha) _))

theorem matches_literal : (literal atom body cs).Matches (Alike t u depth) (literal atom body ds) :=
  matches_orElse (matches_negation ht hu hatom hbody hk ha)
    (matches_map (hatom depth cs ds (by omega) ha) _)

include la lb in
theorem matches_anyBody :
    (anyBody atom body cs).Matches (Alike t u depth) (anyBody atom body ds) := by
  have hc := consumes_literal la lb
  have hliteral : ParallelBelow t u (k + 1) (literal atom body) :=
    fun _ _ _ hr ha => matches_literal ht hu hatom hbody (Nat.le_of_lt_succ hr) ha
  refine matches_bind (matches_literal ht hu hatom hbody hk ha) fun _ r s hx ha => ?_
  have hr := hc _ _ _ hx
  exact matches_map (matches_many (consumes_comma hc.shrinks)
    (fun r' s' hr' ha => parallel_comma ht hu hliteral depth r' s' (by omega) ha) ha) _

end

namespace Unbounded

theorem parallel_term_list (k : Nat) :
    ParallelBelow t u k (term .backtrack) ∧ ParallelBelow t u k (list .backtrack) := by
  induction k with
  | zero =>
    exact ⟨fun _ _ _ hk => absurd hk (Nat.not_lt_zero _),
      fun _ _ _ hk => absurd hk (Nat.not_lt_zero _)⟩
  | succ k ih =>
    have hc := consumes_term .backtrack
    refine ⟨fun depth cs ds hk ha => ?_, fun depth cs ds hk ha => ?_⟩
    · rw [term_apply, term_apply]
      exact matches_anyTerm ht hu hc ih.1 (Nat.le_of_lt_succ hk) ha ih.2
    · rw [list_apply, list_apply]
      exact matches_bracketed ht hu hc ih.1 (Nat.le_of_lt_succ hk) ha ih.2

theorem parallel_atom (k : Nat) : ParallelBelow t u k (atom .backtrack) := by
  intro depth cs ds hk ha
  have hc := consumes_term .backtrack
  have h := (parallel_term_list ht hu k).1
  refine matches_orElse
    (matches_bind (matches_operand ht hu hc h (Nat.le_of_lt hk) ha) fun _ r s hl ha => ?_)
    (matches_bind (transfers_predicateName.matches faithful_predicateName.plain ht hu ha)
      fun _ r s hn ha => ?_)
  · have hr := consumes_operand hc .backtrack _ _ _ hl
    refine matches_bind (transfers_comparison.matches faithful_comparison.plain ht hu ha)
      fun _ r' s' hcmp ha => ?_
    have hr' := consumes_comparison _ _ _ hcmp
    exact matches_map (matches_operand ht hu hc h (by omega) ha) _
  · have hr := consumes_predicateName _ _ _ hn
    exact matches_map (matches_optional (matches_arguments ht hu hc h (by omega) ha) ha) _

theorem parallel_body (k : Nat) : ParallelBelow t u k (body .backtrack) := by
  induction k with
  | zero => exact fun _ _ _ hk => absurd hk (Nat.not_lt_zero _)
  | succ k ih =>
    intro depth cs ds hk ha
    rw [body_apply, body_apply]
    exact matches_anyBody ht hu (consumes_atom .backtrack) (consumes_body .backtrack)
      (parallel_atom ht hu (k + 1)) ih
      (Nat.le_of_lt_succ hk) ha

variable {cs ds : List Char} (ha : Alike t u 0 cs ds)
include ha

theorem matches_closedBody :
    (closedBody .backtrack cs).Matches (Alike t u 0) (closedBody .backtrack ds) :=
  matches_bind (parallel_body ht hu (cs.length + 1) 0 cs ds (Nat.lt_succ_self _) ha)
    fun _ _ _ _ ha => matches_map (matches_optional (matches_mark ht hu (by simp) ha) ha) _

theorem matches_rule : (rule .backtrack cs).Matches (Alike t u 0) (rule .backtrack ds) :=
  matches_bind (parallel_atom ht hu (cs.length + 1) 0 cs ds (Nat.lt_succ_self _) ha)
    fun _ _ _ _ ha =>
      matches_bind (transfers_neck.matches (plain_symbol _) ht hu ha) fun _ r s _ ha =>
        matches_bind (parallel_body ht hu (r.length + 1) 0 r s (Nat.lt_succ_self _) ha)
          fun _ _ _ _ ha => matches_map (matches_mark ht hu (by simp) ha) _

end Unbounded

end

/-- What takes one of two alike texts whole takes the other as well. -/
theorem takes_of_matches {p : Reader α} {x : α} {cs ds : List Char}
    (h : (p cs).Matches (Alike [] [] 0) (p ds)) (hp : Takes p x cs) : Takes p x ds := by
  obtain ⟨r, hx, hr⟩ := hp
  obtain ⟨s, hs, ha⟩ := h.of_done hx
  exact ⟨s, hs, ha.end_of_nil hr⟩

end Reader

end Clausal
