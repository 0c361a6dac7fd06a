import Clausal.Proofs.Lexing

/-!
# Texts with the same tokens

Two texts are alike if they fall into the same tokens, whatever junk stands
between them. Their brackets are counted, so that behind the last token, outside
of all brackets, one text may end where the other goes on with a parenthesis.
-/

namespace Clausal

open Lexeme Reader

/-! ## The first token -/

/-- `Front w cs r`: the first token of the text `cs` is `w`, and `r` stands behind it. -/
inductive Front : List Char → List Char → List Char → Prop
  | lexeme {w cs r} : skipJunk cs = w ++ r → Longest w r → Front w cs r
  | neck {cs r} : skipJunk cs = ':' :: '-' :: r → Front [':', '-'] cs r
  | mark {c cs r} : skipJunk cs = c :: r → lead? c = none → isSolid c = true →
      (c = ':' → r.head? ≠ some '-') →
      Front [c] cs r

namespace Front

variable {w v cs r s : List Char}

theorem skipJunk_eq (h : Front w cs r) : skipJunk cs = w ++ r := by
  cases h with
  | lexeme hj _ => exact hj
  | neck hj => exact hj
  | mark hj _ _ _ => exact hj

theorem ne_nil (h : Front w cs r) : w ≠ [] := by
  cases h with
  | lexeme _ hw => exact hw.isToken.ne_nil
  | neck _ => simp
  | mark _ _ _ _ => simp

theorem longest (h : Front w cs r) (hw : IsToken w) : Longest w r := by
  obtain ⟨c, v, l, he, hl⟩ := hw.exists_lead
  cases h with
  | lexeme _ hw => exact hw
  | neck _ =>
    rw [List.cons.injEq] at he
    rw [← he.1] at hl
    cases hl
  | mark _ hc _ _ =>
    rw [List.cons.injEq] at he
    rw [← he.1, hc] at hl
    cases hl

theorem eq_of_longest (h : Front w cs r) (hj : skipJunk cs = v ++ s) (hv : Longest v s) :
    w = v ∧ r = s := by
  cases h with
  | lexeme hj' hw => exact hw.unique hv (hj'.symm.trans hj)
  | neck hj' => exact absurd (hj.symm.trans hj') (hv.front_ne rfl)
  | mark hj' hc _ _ => exact absurd (hj.symm.trans hj') (hv.front_ne hc)

theorem unique (h : Front w cs r) (h' : Front v cs s) : w = v ∧ r = s := by
  cases h' with
  | lexeme hj hv => exact h.eq_of_longest hj hv
  | neck hj =>
    cases h with
    | lexeme hj' hw => exact absurd (hj'.symm.trans hj) (hw.front_ne rfl)
    | neck hj' =>
      rw [hj] at hj'
      simp only [List.cons.injEq, true_and] at hj'
      exact ⟨rfl, hj'.symm⟩
    | mark hj' _ _ hn =>
      rw [hj, List.cons.injEq] at hj'
      exact absurd (by rw [← hj'.2]; rfl) (hn hj'.1.symm)
  | mark hj hc _ hn =>
    cases h with
    | lexeme hj' hw => exact absurd (hj'.symm.trans hj) (hw.front_ne hc)
    | neck hj' =>
      rw [hj, List.cons.injEq] at hj'
      exact absurd (by rw [hj'.2]; rfl) (hn hj'.1)
    | mark hj' _ _ _ =>
      rw [hj, List.cons.injEq] at hj'
      exact ⟨by rw [hj'.1], hj'.2.symm⟩

/-- Junk in front of a text makes no difference to its first token. -/
theorem congr {ds : List Char} (h : Front w cs r) (hj : skipJunk ds = skipJunk cs) :
    Front w ds r := by
  cases h with
  | lexeme hs hw => exact .lexeme (hj.trans hs) hw
  | neck hs => exact .neck (hj.trans hs)
  | mark hs hc hsolid hn => exact .mark (hj.trans hs) hc hsolid hn

end Front

/-- The first token is not also the beginning of another one, and no junk begins with it. -/
theorem front_of_mark {c : Char} {cs r : List Char} (hj : skipJunk cs = c :: r)
    (hc : lead? c = none) (hs : isSolid c = true) (hn : c ≠ ':') : Front [c] cs r :=
  .mark hj hc hs fun he => absurd he hn

/-! ## Brackets -/

/-- How many brackets are open behind a token, if so many are in front of it. -/
def depthBehind (w : List Char) (depth : Nat) : Nat :=
  if w = ['('] ∨ w = ['['] then depth + 1
  else if w = [')'] ∨ w = [']'] then depth - 1 else depth

theorem depthBehind_of_isToken {w : List Char} (h : IsToken w) (depth : Nat) :
    depthBehind w depth = depth := by
  have hne {c : Char} (hc : lead? c = none) : w ≠ [c] := by
    obtain ⟨d, v, l, he, hl⟩ := h.exists_lead
    intro hw
    rw [he, List.cons.injEq] at hw
    rw [hw.1, hc] at hl
    cases hl
  unfold depthBehind
  rw [if_neg (not_or.mpr ⟨hne (by decide), hne (by decide)⟩),
    if_neg (not_or.mpr ⟨hne (by decide), hne (by decide)⟩)]

/-! ## Alike texts -/

/-- The signs of several characters, but for the neck. -/
def longSigns : List (List Char) :=
  [['=', ':', '='], ['=', '\\', '='], ['=', '<'], ['>', '='], ['\\', '+']]

/-- The same signs stand at the front of both texts. -/
def SameSigns (cs ds : List Char) : Prop := ∀ sign ∈ longSigns, sign <+: cs ↔ sign <+: ds

/-- `Alike t u depth cs ds`: the texts fall into the same tokens, up to `t` and `u`, and among these
are `depth` brackets more closed than opened. -/
inductive Alike (t u : List Char) : Nat → List Char → List Char → Prop
  | stop {cs ds} : skipJunk cs = t → skipJunk ds = u → Alike t u 0 cs ds
  | token {depth w cs ds r s} : Front w cs r → Front w ds s →
      SameSigns (skipJunk cs) (skipJunk ds) →
      (w = [')'] ∨ w = [']'] → depth ≠ 0) → Alike t u (depthBehind w depth) r s →
      Alike t u depth cs ds

/-- Where the tokens may end: the text does, or it goes on with a parenthesis. -/
def Bare (t : List Char) : Prop := t = [] ∨ ∃ r, t = ')' :: r

namespace Alike

variable {t u : List Char} {depth : Nat} {cs ds w r : List Char}

theorem symm (h : Alike t u depth cs ds) : Alike u t depth ds cs := by
  induction h with
  | stop hc hd => exact .stop hd hc
  | token hc hd hs hb _ ih => exact .token hd hc (fun sign hmem => (hs sign hmem).symm) hb ih

theorem of_skipJunk {es : List Char} (h : Alike t u depth cs ds) (hj : skipJunk es = skipJunk ds) :
    Alike t u depth cs es := by
  cases h with
  | stop hc hd => exact .stop hc (hj.trans hd)
  | token hc hd hs hb ha => exact .token hc (hd.congr hj) (by rwa [hj]) hb ha

/-- **One token.** Where one of two alike texts has a token, the other one has it as well. A closing
parenthesis counts as one between brackets only. -/
theorem step (h : Alike t u depth cs ds) (ht : Bare t) (hw : Front w cs r)
    (hd : depth = 0 → w ≠ [')']) :
    ∃ s, Front w ds s ∧ SameSigns (skipJunk cs) (skipJunk ds) ∧
    Alike t u (depthBehind w depth) r s := by
  cases h with
  | stop hc _ =>
    rcases ht with ht | ⟨q, ht⟩
    · rw [ht, hw.skipJunk_eq, List.append_eq_nil_iff] at hc
      exact absurd hc.1 hw.ne_nil
    · have hclose : Front [')'] cs q := front_of_mark (hc.trans ht) rfl rfl (by decide)
      exact absurd (hw.unique hclose).1 (hd rfl)
  | token hc hds hs _ ha =>
    obtain ⟨he, hr⟩ := hc.unique hw
    subst he hr
    exact ⟨_, hds, hs, ha⟩

theorem step_lexeme (h : Alike t u depth cs ds) (ht : Bare t) (hj : skipJunk cs = w ++ r)
    (hw : Longest w r) :
    ∃ s, skipJunk ds = w ++ s ∧ Longest w s ∧ Alike t u depth r s := by
  have hne : w ≠ [')'] := fun he => hw.front_ne (c := ')') (v := r) rfl (by rw [he]; rfl)
  obtain ⟨s, hs, -, ha⟩ := h.step ht (.lexeme hj hw) fun _ => hne
  rw [depthBehind_of_isToken hw.isToken] at ha
  exact ⟨s, hs.skipJunk_eq, hs.longest hw.isToken, ha⟩

/-- Behind a character that is no junk and no bracket the texts are alike as well. -/
theorem of_cons {c : Char} {s : List Char} (h : Alike t u depth (c :: r) (c :: s)) (ht : Bare t)
    (hc : lead? c = none) (hs : isSolid c = true) (hn : c = ':' → r.head? ≠ some '-')
    (hb : c ∉ ['(', '[', ')', ']']) : Alike t u depth r s := by
  simp only [List.mem_cons, List.not_mem_nil, or_false, not_or] at hb
  have hplain : depthBehind [c] depth = depth := by simp [depthBehind, hb]
  obtain ⟨q, hq, -, ha⟩ := h.step ht (.mark (skipJunk_solid hs r) hc hs hn) (by simp [hb])
  have hrest := hq.skipJunk_eq
  rw [skipJunk_solid hs, List.singleton_append, List.cons.injEq] at hrest
  rw [hplain, ← hrest.2] at ha
  exact ha

/-- A sign of several characters stands in both texts or in none. -/
theorem step_sign (h : Alike t u depth cs ds) (ht : Bare t) (hw : w ∈ longSigns)
    (hj : skipJunk cs = w ++ r) :
    ∃ s, skipJunk ds = w ++ s ∧ Alike t u depth r s := by
  have hfirst {c : Char} {v : List Char} (he : w = c :: v) (hc : c ∈ ['=', '>', '\\']) :
      ∃ s, skipJunk ds = w ++ s ∧ Alike t u depth (v ++ r) (v ++ s) := by
    have hmark : lead? c = none ∧ isSolid c = true ∧ c ≠ ':' ∧ c ≠ ')' ∧
        depthBehind [c] depth = depth := by
      simp only [List.mem_cons, List.not_mem_nil, or_false] at hc
      rcases hc with hc | hc | hc
      all_goals subst hc; exact ⟨rfl, rfl, by decide, by decide, rfl⟩
    obtain ⟨hl, hs, hn, hp, hplain⟩ := hmark
    rw [he] at hj
    obtain ⟨q, hq, hsame, ha⟩ := h.step ht (front_of_mark hj hl hs hn) (by simp [hp])
    obtain ⟨s, hs⟩ := (hsame w hw).mp (by rw [hj, he]; exact ⟨r, rfl⟩)
    have hrest := hs.trans hq.skipJunk_eq
    rw [he, List.singleton_append, List.cons_append, List.cons.injEq] at hrest
    rw [hplain, ← hrest.2] at ha
    exact ⟨s, hs.symm, ha⟩
  simp only [longSigns, List.mem_cons, List.not_mem_nil, or_false] at hw
  rcases hw with hw | hw | hw | hw | hw
  all_goals
    obtain ⟨s, hs, ha⟩ := hfirst hw (by decide)
    refine ⟨s, hs, ?_⟩
  · exact (ha.of_cons ht rfl rfl (by simp) (by decide)).of_cons ht rfl rfl (by simp) (by decide)
  · exact (ha.of_cons ht rfl rfl (by simp) (by decide)).of_cons ht rfl rfl (by simp) (by decide)
  all_goals exact ha.of_cons ht rfl rfl (by simp) (by decide)

/-- Outside of all brackets no parenthesis is closed. -/
theorem end_of_close (h : Alike t u 0 cs ds) (hd : skipJunk ds = ')' :: r) :
    skipJunk cs = t ∧ u = ')' :: r := by
  cases h with
  | stop hc hd' => exact ⟨hc, hd'.symm.trans hd⟩
  | token _ hw _ hb _ =>
    obtain ⟨he, -⟩ := hw.unique (front_of_mark hd rfl rfl (by decide))
    exact absurd rfl (hb (.inl he))

theorem end_of_nil (h : Alike t u depth cs ds) (hc : skipJunk cs = []) : skipJunk ds = u := by
  cases h with
  | stop _ hd => exact hd
  | token hw _ _ _ _ =>
    rw [hw.skipJunk_eq, List.append_eq_nil_iff] at hc
    exact absurd hc.1 hw.ne_nil

end Alike

end Clausal
