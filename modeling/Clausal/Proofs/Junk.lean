import Clausal.Reader.Token

/-!
# Junk

What may stand before a token: blanks, comments to the end of the line and
comments between brackets, in any number and order. `skipJunk` skips as much of
it as there is.
-/

namespace Clausal

open Reader

/-- Where a comment to the end of the line may end. -/
def AtLineEnd (cs : List Char) : Prop :=
  cs = [] ∨ (∃ rest, cs = '\n' :: rest) ∨ ∃ rest, cs = '\r' :: '\n' :: rest

def LineOpening (opening : List Char) : Prop := opening = ['%'] ∨ opening = ['/', '/']

/-- `Junk cs rest`: the text `cs` is some junk and then `rest`. -/
inductive Junk : List Char → List Char → Prop
  | none {cs} : Junk cs cs
  | blank {c cs rest} : isGap c = true → Junk cs rest → Junk (c :: cs) rest
  | line {opening w cs rest} : LineOpening opening → '\n' ∉ w → '\r' ∉ w →
      AtLineEnd cs →
      Junk cs rest → Junk (opening ++ w ++ cs) rest
  -- the first `*/` behind `w` is the one that closes the comment
  | block {w cs rest} : ¬ ['*', '/'] <:+: w ++ ['*'] → Junk cs rest →
      Junk ('/' :: '*' :: w ++ '*' :: '/' :: cs) rest

/-- Characters that no junk begins with. -/
def isSolid (c : Char) : Bool := !isGap c && c != '%' && c != '/'

theorem Junk.suffix {cs rest : List Char} (h : Junk cs rest) : rest <:+ cs := by
  induction h with
  | none => exact List.suffix_refl _
  | blank _ _ ih => exact ih.trans (List.suffix_cons _ _)
  | line _ _ _ _ _ ih => exact ih.trans (List.suffix_append _ _)
  | @block w cs rest _ _ ih => exact ih.trans ⟨'/' :: '*' :: w ++ ['*', '/'], by simp⟩

theorem Junk.length_le {cs rest : List Char} (h : Junk cs rest) : rest.length ≤ cs.length :=
  h.suffix.length_le

theorem Junk.trans {cs ds rest : List Char} (h : Junk cs ds) (h' : Junk ds rest) :
    Junk cs rest := by
  induction h with
  | none => exact h'
  | blank hc _ ih => exact .blank hc (ih h')
  | line ho hn hr he _ ih => exact .line ho hn hr he (ih h')
  | block hw _ ih => exact .block hw (ih h')

theorem junk_of_gaps {gap : List Char} (h : ∀ c ∈ gap, isGap c = true) (rest : List Char) :
    Junk (gap ++ rest) rest := by
  induction gap with
  | nil => exact .none
  | cons c gap ih => exact .blank (h c (by simp)) (ih fun d hd => h d (by simp [hd]))

/-! ## What is skipped is junk -/

theorem no_close_concat {pre : List Char} {c x : Char} (h : ¬ ['*', '/'] <:+: pre ++ [c])
    (hx : ¬ (c = '*' ∧ x = '/')) : ¬ ['*', '/'] <:+: pre ++ [c] ++ [x] := by
  rw [List.infix_concat_iff]
  intro h'
  rcases h' with hs | hi
  · obtain h0 | ⟨t, ht, hs'⟩ := List.suffix_concat_iff.mp hs
    · cases h0
    obtain ⟨rfl, hx'⟩ := List.append_inj' (show ['*'] ++ ['/'] = t ++ [x] from ht) rfl
    obtain h0 | ⟨u, hu, -⟩ := List.suffix_concat_iff.mp hs'
    · cases h0
    obtain ⟨-, hc⟩ := List.append_inj' (show [] ++ ['*'] = u ++ [c] from hu) rfl
    simp only [List.cons.injEq, and_true] at hx' hc
    exact hx ⟨hc.symm, hx'.symm⟩
  · exact h hi

theorem junk_skipJunk : ∀ cs, Junk cs (skipJunk cs) := by
  apply skipJunk.induct (fun cs => Junk cs (skipJunk cs))
    (fun start cs => ∀ pre, start = '/' :: '*' :: (pre ++ cs) →
      ¬ ['*', '/'] <:+: pre ++ cs.take 1 → Junk start (skipBlock start cs))
    (fun start cs => ∀ opening pre, LineOpening opening → start = opening ++ pre ++ cs →
      '\n' ∉ pre → '\r' ∉ pre → Junk start (skipLine start cs))
  -- between comments
  case case1 => exact .none
  case case2 =>
    intro cs ih
    rw [skipJunk]
    exact ih ['%'] [] (.inl rfl) rfl (by simp) (by simp)
  case case3 =>
    intro cs ih
    rw [skipJunk]
    exact ih ['/', '/'] [] (.inr rfl) rfl (by simp) (by simp)
  case case4 =>
    intro cs ih
    rw [skipJunk]
    refine ih [] rfl fun h => ?_
    have := h.length_le
    simp only [List.length_cons, List.length_nil, List.nil_append, List.length_take] at this
    omega
  case case5 =>
    intro c cs h1 h2 h3 hc ih
    rw [skipJunk.eq_5 c cs h1 h2 h3, if_pos hc]
    exact .blank hc ih
  case case6 =>
    intro c cs h1 h2 h3 hc
    rw [skipJunk.eq_5 c cs h1 h2 h3, if_neg hc]
    exact .none
  -- `pre` has been passed since a comment between brackets was opened, and does not close it
  case case7 => intro start pre _ _; exact .none
  case case8 =>
    intro start cs ih pre hstart hpre
    rw [hstart, skipBlock]
    exact .block hpre ih
  case case9 =>
    intro start c cs hne ih pre hstart hpre
    rw [skipBlock.eq_3 start c cs hne]
    refine ih (pre ++ [c]) (by simpa using hstart) ?_
    cases cs with
    | nil => simpa using hpre
    | cons x cs => exact no_close_concat hpre fun ⟨hc, hx⟩ => hne cs hc (by rw [hx])
  -- `pre` has been passed on the line of a comment that lasts to its end
  case case10 =>
    intro start opening pre ho hstart hn hr
    rw [hstart, skipLine]
    exact .line ho hn hr (.inl rfl) .none
  case case11 =>
    intro start cs ih opening pre ho hstart hn hr
    rw [hstart, skipLine]
    exact .line ho hn hr (.inr (.inl ⟨cs, rfl⟩)) (.blank rfl ih)
  case case12 =>
    intro start cs ih opening pre ho hstart hn hr
    rw [hstart, skipLine]
    exact .line ho hn hr (.inr (.inr ⟨cs, rfl⟩)) (.blank rfl (.blank rfl ih))
  case case13 =>
    intro start tail hne opening pre _ _ _ _
    rw [skipLine.eq_4 start tail hne]
    exact .none
  case case14 =>
    intro start c cs h1 h2 h3 ih opening pre ho hstart hn hr
    rw [skipLine.eq_5 start c cs h1 h2 h3]
    refine ih opening (pre ++ [c]) ho (by simpa using hstart) ?_ ?_
    · simpa [hn] using fun h => h1 h.symm
    · simpa [hr] using fun h => h3 h.symm

/-! ## All junk is skipped -/

theorem skipJunk_blank {c : Char} (hc : isGap c = true) (cs : List Char) :
    skipJunk (c :: cs) = skipJunk cs := by
  rw [skipJunk.eq_5, if_pos hc] <;> intros <;> simp_all [isGap]

theorem skipLine_append {start w cs : List Char} (hn : '\n' ∉ w) (hr : '\r' ∉ w) :
    skipLine start (w ++ cs) = skipLine start cs := by
  induction w with
  | nil => rfl
  | cons c w ih =>
    simp only [List.mem_cons, not_or] at hn hr
    rw [List.cons_append, skipLine.eq_5 _ _ _ (fun h => hn.1 h.symm) (fun _ h => absurd h.symm hr.1)
      (fun h => hr.1 h.symm)]
    exact ih hn.2 hr.2

theorem skipLine_of_atLineEnd {start cs : List Char} (h : AtLineEnd cs) :
    skipLine start cs = skipJunk cs := by
  obtain rfl | ⟨rest, rfl⟩ | ⟨rest, rfl⟩ := h
  · rfl
  · rw [skipLine, skipJunk_blank rfl]
  · rw [skipLine, skipJunk_blank rfl, skipJunk_blank rfl]

theorem skipBlock_append {start w cs : List Char} (h : ¬ ['*', '/'] <:+: w ++ ['*']) :
    skipBlock start (w ++ '*' :: '/' :: cs) = skipJunk cs := by
  induction w with
  | nil => rw [List.nil_append, skipBlock]
  | cons c w ih =>
    have hne : ∀ ds, c = '*' → w ++ '*' :: '/' :: cs = '/' :: ds → False := by
      intro ds hc hds
      subst hc
      cases w with
      | nil => simp at hds
      | cons d w =>
        simp only [List.cons_append, List.cons.injEq] at hds
        obtain ⟨rfl, -⟩ := hds
        exact h ⟨[], w ++ ['*'], rfl⟩
    rw [List.cons_append, skipBlock.eq_3 _ _ _ hne]
    refine ih fun hi => h ?_
    obtain ⟨s, t, hst⟩ := hi
    exact ⟨c :: s, t, by simp [← hst]⟩

theorem skipJunk_eq_of_junk {cs rest : List Char} (h : Junk cs rest) :
    skipJunk cs = skipJunk rest := by
  induction h with
  | none => rfl
  | blank hc _ ih => rw [skipJunk_blank hc, ih]
  | line ho hn hr he _ ih =>
    rw [← ih]
    obtain rfl | rfl := ho
    · rw [List.cons_append, List.cons_append, skipJunk, List.nil_append, skipLine_append hn hr,
        skipLine_of_atLineEnd he]
    · rw [List.cons_append, List.cons_append, List.cons_append, List.cons_append, skipJunk,
        List.nil_append, skipLine_append hn hr, skipLine_of_atLineEnd he]
  | block hw _ ih => rw [List.cons_append, List.cons_append, skipJunk, skipBlock_append hw, ih]

theorem junk_nil_iff {cs : List Char} : Junk cs [] ↔ skipJunk cs = [] :=
  ⟨skipJunk_eq_of_junk, fun h => h ▸ junk_skipJunk cs⟩

/-! ## Before solid characters -/

theorem skipJunk_solid {c : Char} (hc : isSolid c = true) (cs : List Char) :
    skipJunk (c :: cs) = c :: cs := by
  simp only [isSolid, Bool.and_eq_true, Bool.not_eq_true', bne_iff_ne] at hc
  obtain ⟨⟨hg, h1⟩, h2⟩ := hc
  rw [skipJunk.eq_5 c cs h1 (fun _ h => absurd h h2) (fun _ h => absurd h h2), hg]
  rfl

theorem skipJunk_of_junk {c : Char} {cs rest : List Char} (hc : isSolid c = true)
    (h : Junk cs (c :: rest)) : skipJunk cs = c :: rest := by
  rw [skipJunk_eq_of_junk h, skipJunk_solid hc]

theorem junk_of_skipJunk {cs rest : List Char} (h : skipJunk cs = rest) : Junk cs rest :=
  h ▸ junk_skipJunk cs

/-! ## Junk by itself -/

section
variable {c : Char} (hc : isSolid c = true) {rest : List Char}
include hc

theorem AtLineEnd.of_append {front : List Char} (h : AtLineEnd (front ++ c :: rest)) :
    AtLineEnd front := by
  cases front with
  | nil => exact .inl rfl
  | cons d front =>
    rcases h with h | ⟨r, h⟩ | ⟨r, h⟩
    · cases h
    · rw [List.cons_append, List.cons.injEq] at h
      exact .inr (.inl ⟨front, by rw [h.1]⟩)
    · rw [List.cons_append, List.cons.injEq] at h
      obtain ⟨hd, h⟩ := h
      cases front with
      | nil =>
        -- the line feed of this line end would be the solid character
        rw [List.nil_append, List.cons.injEq] at h
        rw [h.1] at hc
        cases hc
      | cons e front =>
        rw [List.cons_append, List.cons.injEq] at h
        exact .inr (.inr ⟨front, by rw [hd, h.1]⟩)

/-- What stands in front of a solid character is junk without it, too. -/
theorem Junk.exists_front {cs : List Char} (h : Junk cs (c :: rest)) :
    ∃ front, cs = front ++ c :: rest ∧ Junk front [] := by
  generalize hr : c :: rest = ds at h
  induction h with
  | none => exact ⟨[], rfl, .none⟩
  | @blank d cs _ hd _ ih =>
    obtain ⟨front, he, hf⟩ := ih hr
    exact ⟨d :: front, by rw [he]; rfl, .blank hd hf⟩
  | @line opening w cs _ ho hn hw hl _ ih =>
    obtain ⟨front, he, hf⟩ := ih hr
    rw [he, ← hr] at hl
    exact ⟨opening ++ w ++ front, by rw [he]; simp, .line ho hn hw (hl.of_append hc) hf⟩
  | @block w cs _ hw _ ih =>
    obtain ⟨front, he, hf⟩ := ih hr
    exact ⟨'/' :: '*' :: w ++ '*' :: '/' :: front, by rw [he]; simp, .block hw hf⟩

end

end Clausal
