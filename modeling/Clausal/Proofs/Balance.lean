import Clausal.Proofs.Parallel

/-!
# Brackets match in what is read

A reader opens as many brackets as it closes, in every text it takes something
off. A text that is read whole is therefore alike to itself with a line feed and
a closing parenthesis behind it: the line feed ends a comment, and the parenthesis
stands outside of all brackets.
-/

namespace Clausal

open Lexeme Reader Reader.Unbounded

/-- The text falls into tokens, and `depth` brackets more are closed than opened. -/
def Balanced (depth : Nat) (cs : List Char) : Prop := Alike [] [] depth cs cs

/-- Between the two ends as many brackets are opened as closed. -/
def Neutral (cs rest : List Char) : Prop := ∀ depth, Balanced depth rest → Balanced depth cs

theorem neutral_refl (cs : List Char) : Neutral cs cs := fun _ h => h

theorem Neutral.trans {cs ds rest : List Char} (h : Neutral cs ds) (h' : Neutral ds rest) :
    Neutral cs rest :=
  fun depth hr => h depth (h' depth hr)

theorem Neutral.balanced {cs rest : List Char} (h : Neutral cs rest) (hr : skipJunk rest = []) :
    Balanced 0 cs :=
  h 0 (.stop hr hr)

theorem balanced_token {depth : Nat} {w cs r : List Char} (hw : Front w cs r)
    (hc : w = [')'] ∨ w = [']'] → depth ≠ 0) (h : Balanced (depthBehind w depth) r) :
    Balanced depth cs :=
  .token hw hw (fun _ _ => Iff.rfl) hc h

section
variable {cs r rest : List Char}

theorem neutral_lexeme {w : List Char} (hj : skipJunk cs = w ++ r) (hw : Longest w r) :
    Neutral cs r := by
  have hne {c : Char} (hc : lead? c = none) : w ≠ [c] :=
    fun he => hw.front_ne (c := c) (v := r) hc (by rw [he]; rfl)
  intro depth h
  refine balanced_token (.lexeme hj hw) (fun hb => ?_) (by rwa [depthBehind_of_isToken hw.isToken])
  rcases hb with hb | hb
  · exact absurd hb (hne rfl)
  · exact absurd hb (hne rfl)

theorem neutral_mark {c : Char} (hj : skipJunk cs = c :: r) (hl : lead? c = none)
    (hs : isSolid c = true) (hn : c = ':' → r.head? ≠ some '-')
    (hb : c ∉ ['(', '[', ')', ']']) : Neutral cs r := by
  simp only [List.mem_cons, List.not_mem_nil, or_false, not_or] at hb
  have hplain (depth : Nat) : depthBehind [c] depth = depth := by simp [depthBehind, hb]
  exact fun depth h => balanced_token (.mark hj hl hs hn) (by simp [hb]) (by rwa [hplain])

theorem neutral_brackets {c d : Char} {s : List Char} (hc : c ∈ ['(', '['])
    (hd : d ∈ [')', ']']) (hj : skipJunk cs = c :: r) (hi : Neutral r s)
    (hj' : skipJunk s = d :: rest) : Neutral cs rest := by
  intro depth h
  have hclose : Balanced (depth + 1) s := by
    simp only [List.mem_cons, List.not_mem_nil, or_false] at hd
    rcases hd with hd | hd
    all_goals
      subst hd
      exact balanced_token (front_of_mark hj' rfl rfl (by decide)) (fun _ => Nat.succ_ne_zero _) h
  have hinner := hi (depth + 1) hclose
  simp only [List.mem_cons, List.not_mem_nil, or_false] at hc
  rcases hc with hc | hc
  all_goals subst hc; exact balanced_token (front_of_mark hj rfl rfl (by decide)) (by simp) hinner

end

/-! ## Terms -/

theorem neutral_name {name cs r : List Char} (hj : Junk cs (name ++ r))
    (hn : isLowerName name = true) (hr : Stops isNameChar r) : Neutral cs r :=
  neutral_lexeme ((IsToken.lower hn).skipJunk_eq hj) (longest_lower hn hr)

theorem neutral_of_derives {φ : Phrase} {cs rest : List Char} (h : Derives φ cs rest) :
    Neutral cs rest := by
  have hmark {c : Char} {cs r : List Char} (hj : Junk cs (c :: r)) (hc : c ∈ [',', '=', '|']) :
      Neutral cs r := by
    simp only [List.mem_cons, List.not_mem_nil, or_false] at hc
    rcases hc with hc | hc | hc
    all_goals subst hc; exact neutral_mark (skipJunk_of_junk rfl hj) rfl rfl (by simp) (by decide)
  have hopen {ts : List Term} {r s : List Char} (ha : Derives (.arguments ts) r s) :
      Stops isNameChar r := by
    obtain ⟨q, hq⟩ := open_of_arguments ha
    exact stops_of_junk hq rfl
  have hbrackets {c d : Char} {cs r s rest : List Char} (hc : c ∈ ['(', '['])
      (hd : d ∈ [')', ']']) (hj : Junk cs (c :: r))
      (hi : Neutral r s) (hj' : Junk s (d :: rest)) : Neutral cs rest := by
    have hsolid {e : Char} (he : e ∈ ['(', '[', ')', ']']) : isSolid e = true := by
      simp only [List.mem_cons, List.not_mem_nil, or_false] at he
      rcases he with he | he | he | he
      all_goals subst he; rfl
    exact neutral_brackets hc hd (skipJunk_of_junk (hsolid (by grind)) hj) hi
      (skipJunk_of_junk (hsolid (by grind)) hj')
  induction h with
  | token hj hw _ => exact neutral_lexeme (hw.isToken.skipJunk_eq hj) hw
  | compound _ ih => exact ih
  | list _ ih => exact ih
  | call hj hn ha ih => exact (neutral_name hj hn (hopen ha)).trans ih
  | valued hj hn ha _ iha ihv => exact (neutral_name hj hn (hopen ha)).trans (iha.trans ihv)
  | tuple _ ih => exact ih
  | noArguments hj hj' => exact hbrackets (by simp) (by simp) hj (neutral_refl _) hj'
  | arguments _ ih => exact ih
  | severalValues hj _ ih => exact (hmark hj (by simp)).trans ih
  | oneValue hj _ _ ih => exact (hmark hj (by simp)).trans ih
  | group hj _ hj' ih => exact hbrackets (by simp) (by simp) hj ih hj'
  | emptyList hj hj' => exact hbrackets (by simp) (by simp) hj (neutral_refl _) hj'
  | items hj _ hj' ih => exact hbrackets (by simp) (by simp) hj ih hj'
  | barVariable hj _ hb hv hn hj' ih =>
    have hname :=
      neutral_lexeme ((IsToken.upper hn).skipJunk_eq hv) (longest_upper hn (stops_of_junk hj' rfl))
    exact hbrackets (by simp) (by simp) hj (ih.trans ((hmark hb (by simp)).trans hname)) hj'
  | barList hj _ hb _ hj' ih iht =>
    exact hbrackets (by simp) (by simp) hj (ih.trans ((hmark hb (by simp)).trans iht)) hj'
  | one _ ih => exact ih
  | more _ hj _ iht ihs => exact iht.trans ((hmark hj (by simp)).trans ihs)

/-! ## Formulas -/

section
variable {policy : Policy} {cs rest : List Char}

theorem neutral_of_operand {t : Term} (h : operand (term policy) policy cs = .done t rest) :
    Neutral cs rest :=
  neutral_of_derives (derives_of_term (term_of_operand h))

/-- The characters of signs are tokens each. -/
theorem neutral_sign {c : Char} (hj : skipJunk cs = c :: rest)
    (hc : c ∈ ['=', ':', '\\', '<', '>', '+']) (hn : c = ':' → rest.head? ≠ some '-') :
    Neutral cs rest := by
  simp only [List.mem_cons, List.not_mem_nil, or_false] at hc
  rcases hc with hc | hc | hc | hc | hc | hc
  all_goals subst hc; exact neutral_mark hj rfl rfl hn (by decide)

theorem neutral_of_comparison {c : Comparison} (h : comparison cs = .done c rest) :
    Neutral cs rest := by
  have hj := sign_of_comparison h
  cases c with
  | less => exact neutral_sign hj (by simp) (by simp)
  | greater => exact neutral_sign hj (by simp) (by simp)
  | lessOrEqual =>
    exact (neutral_sign hj (by simp) (by simp)).trans
      (neutral_sign (skipJunk_solid rfl _) (by simp) (by simp))
  | greaterOrEqual =>
    exact (neutral_sign hj (by simp) (by simp)).trans
      (neutral_sign (skipJunk_solid rfl _) (by simp) (by simp))
  | equal =>
    exact (neutral_sign hj (by simp) (by simp)).trans
      ((neutral_sign (skipJunk_solid rfl _) (by simp) (by simp)).trans
        (neutral_sign (skipJunk_solid rfl _) (by simp) (by simp)))
  | notEqual =>
    exact (neutral_sign hj (by simp) (by simp)).trans
      ((neutral_sign (skipJunk_solid rfl _) (by simp) (by simp)).trans
        (neutral_sign (skipJunk_solid rfl _) (by simp) (by simp)))

theorem neutral_of_negationSign {u : Unit} (h : negationSign cs = .done u rest) :
    Neutral cs rest := by
  rcases negationSign_eq_done.mp h with ⟨hj, hstop⟩ | hj
  · exact neutral_lexeme hj (longest_lower rfl hstop)
  · exact (neutral_sign hj (by simp) (by simp)).trans
      (neutral_sign (skipJunk_solid rfl _) (by simp) (by simp))

theorem neutral_of_atom {a : Atom} (h : atom policy cs = .done a rest) : Neutral cs rest := by
  rcases orElse_eq_done.mp h with h | ⟨-, h⟩
  · obtain ⟨left, c, right, r, s, hl, hc, hr, -⟩ := relationalAtom_eq_done.mp h
    exact (neutral_of_operand hl).trans ((neutral_of_comparison hc).trans (neutral_of_operand hr))
  · obtain ⟨name, r, hn, h⟩ := typicalAtom_eq_done.mp h
    obtain ⟨hj, hw⟩ := longest_of_lowerName (predicateName_eq_done.mp hn).1
    rcases h with ⟨args, ha, -⟩ | ⟨-, hr, -⟩
    · exact (neutral_lexeme hj hw).trans (neutral_of_derives (derives_of_arguments ha))
    · rw [hr]
      exact neutral_lexeme hj hw

theorem neutral_of_parenthesized {α : Type} {p : Reader α} {x : α}
    (h : parenthesized p cs = .done x rest)
    (hp : ∀ r s, skipJunk cs = '(' :: r → p r = .done x s → Neutral r s) :
    Neutral cs rest := by
  obtain ⟨r, s, hr, hx, hs⟩ := parenthesized_eq_done.mp h
  exact neutral_brackets (by simp) (by simp) hr (hp r s hr hx) hs

theorem neutral_of_literal {k : Nat} (hk : cs.length ≤ k)
    (hb : ∀ (cs : List Char) b rest, cs.length < k → body policy cs = .done b rest → Neutral cs rest)
    {l : Body} (h : literal (atom policy) (body policy) cs = .done l rest) : Neutral cs rest := by
  rcases literal_eq_done.mp h with h | ⟨-, a, ha, -⟩
  · obtain ⟨u, r, hs, h⟩ := negation_eq_done.mp h
    have hlen := consumes_negationSign _ _ _ hs
    refine (neutral_of_negationSign hs).trans ?_
    rcases h with ⟨a, ha, -⟩ | ⟨-, ⟨a, ha, -⟩ | ⟨-, c, hc, -⟩⟩
    · exact neutral_of_atom ha
    · exact neutral_of_parenthesized ha fun _ _ _ => neutral_of_atom
    · refine neutral_of_parenthesized hc fun q s hq => hb q c s ?_
      have := length_lt_of_skipJunk (w := ['(']) hq (by simp)
      omega
  · exact neutral_of_atom ha

theorem neutral_of_body_below (policy : Policy) (k : Nat) :
    ∀ (cs : List Char) b rest, cs.length < k →
    body policy cs = .done b rest → Neutral cs rest := by
  induction k with
  | zero => exact fun _ _ _ hk => absurd hk (Nat.not_lt_zero _)
  | succ k ih =>
    intro cs b rest hk h
    rw [body_apply, anyBody_eq_done (consumes_atom policy) (consumes_body policy)] at h
    obtain ⟨first, others, r, hf, ho, -⟩ := h
    have hr := consumes_literal (consumes_atom policy) (consumes_body policy) _ _ _ hf
    have hothers {ls : List Body} {cs rest : List Char}
        (h : Repeats (do mark ','; literal (atom policy) (body policy)) ls cs rest) :
        cs.length ≤ k → Neutral cs rest := by
      induction h with
      | nil _ => exact fun _ => neutral_refl _
      | cons hx _ ih' =>
        intro hk
        obtain ⟨u, q, hm, hl⟩ := bind_eq_done.mp hx
        have hq := consumes_mark _ _ _ _ hm
        have hs := consumes_literal (consumes_atom policy) (consumes_body policy) _ _ _ hl
        have hcomma := neutral_mark (mark_eq_done.mp hm) rfl rfl (by simp) (by decide)
        exact hcomma.trans ((neutral_of_literal (by omega) ih hl).trans (ih' (by omega)))
    exact (neutral_of_literal (Nat.le_of_lt_succ hk) ih hf).trans (hothers ho (by omega))

/-- **Brackets match** in what is read as a body. -/
theorem neutral_of_body {b : Body} (h : body policy cs = .done b rest) : Neutral cs rest :=
  neutral_of_body_below policy (cs.length + 1) cs b rest (Nat.lt_succ_self _) h

end

/-! ## More text behind a line feed -/

theorem prefix_append_feed {v w tail : List Char} (hv : '\n' ∉ v) :
    v <+: w ++ '\n' :: tail ↔ v <+: w := by
  constructor
  · intro h
    rcases List.prefix_or_prefix_of_prefix h (List.prefix_append w _) with h' | h'
    · exact h'
    · obtain ⟨u, hu⟩ := h'
      subst hu
      cases u with
      | nil => simp
      | cons c u =>
        have hc := (List.cons_prefix_cons.mp ((List.prefix_append_right_inj w).mp h)).1
        rw [hc] at hv
        simp at hv
  · exact fun h => h.trans (List.prefix_append _ _)

section
variable (tail : List Char)

theorem AtLineEnd.append_feed {cs : List Char} (h : AtLineEnd cs) :
    AtLineEnd (cs ++ '\n' :: tail) := by
  rcases h with h | ⟨rest, h⟩ | ⟨rest, h⟩
  · exact .inr (.inl ⟨tail, by simp [h]⟩)
  · exact .inr (.inl ⟨_, by rw [h, List.cons_append]⟩)
  · exact .inr (.inr ⟨_, by rw [h, List.cons_append, List.cons_append]⟩)

theorem Junk.append_feed {cs rest : List Char} (h : Junk cs rest) :
    Junk (cs ++ '\n' :: tail) (rest ++ '\n' :: tail) := by
  induction h with
  | none => exact .none
  | blank hc _ ih => exact .blank hc ih
  | line ho hn hr he _ ih =>
    rw [List.append_assoc]
    exact .line ho hn hr (he.append_feed tail) ih
  | block hw _ ih => simpa using Junk.block hw ih

theorem Longest.append_feed {w r : List Char} (h : Longest w r) :
    Longest w (r ++ '\n' :: tail) := by
  refine ⟨h.isToken, fun {v} hv hp => h.length_le hv ?_⟩
  rw [← List.append_assoc] at hp
  exact (prefix_append_feed fun hmem => hv.no_feed _ hmem rfl).mp hp

theorem Front.append_feed {w cs r : List Char} (h : Front w cs r) :
    Front w (cs ++ '\n' :: tail) (r ++ '\n' :: tail) := by
  have hskip {c : Char} {s : List Char} (hj : skipJunk cs = c :: s) (hc : isSolid c = true) :
      skipJunk (cs ++ '\n' :: tail) = c :: s ++ '\n' :: tail :=
    skipJunk_of_junk hc ((junk_of_skipJunk hj).append_feed tail)
  cases h with
  | lexeme hj hw =>
    obtain ⟨c, v, l, he, hl⟩ := hw.isToken.exists_lead
    refine .lexeme ?_ (hw.append_feed tail)
    rw [← List.append_assoc, he]
    exact hskip (by rw [hj, he]; rfl) (isSolid_of_lead hl)
  | neck hj => exact .neck (hskip hj rfl)
  | mark hj hl hs hn =>
    refine .mark (hskip hj hs) hl hs fun he => ?_
    cases r with
    | nil => simp
    | cons d r => exact hn he

theorem SameSigns.append_feed {cs ds : List Char} (h : SameSigns cs ds) :
    SameSigns cs (ds ++ '\n' :: tail) := by
  intro sign hmem
  have hfeed : '\n' ∉ sign := by
    simp only [longSigns, List.mem_cons, List.not_mem_nil, or_false] at hmem
    rcases hmem with hs | hs | hs | hs | hs
    all_goals subst hs; decide
  rw [prefix_append_feed hfeed]
  exact h sign hmem

theorem Alike.append_feed {t : List Char} {depth : Nat} {cs ds : List Char}
    (h : Alike t [] depth cs ds) :
    Alike t (')' :: tail) depth cs (ds ++ '\n' :: ')' :: tail) := by
  induction h with
  | stop hc hd =>
    refine .stop hc (skipJunk_of_junk rfl ?_)
    exact ((junk_of_skipJunk hd).append_feed (')' :: tail)).trans (.blank rfl .none)
  | token hc hd hs hb _ ih =>
    have hfront := hd.append_feed (')' :: tail)
    refine .token hc hfront ?_ hb ih
    rw [hfront.skipJunk_eq, ← List.append_assoc, ← hd.skipJunk_eq]
    exact hs.append_feed _

end

end Clausal
