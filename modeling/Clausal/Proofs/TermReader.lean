import Clausal.Proofs.Bound

/-!
# The reader of terms, part by part

When each reader of a part of a term is done, and by which character in front it
is stuck. The nested terms are read by the same reader, without a bound.
-/

namespace Clausal

open Lexeme

/-- The text goes on with none of these marks. -/
def Avoids (marks : List Char) (cs : List Char) : Prop :=
  ∀ c ∈ marks, ∀ rest, Reader.skipJunk cs ≠ c :: rest

theorem Avoids.mono {marks marks' cs : List Char} (h : Avoids marks cs) (hs : marks' ⊆ marks) :
    Avoids marks' cs :=
  fun c hc => h c (hs hc)

theorem avoids_of_skipJunk {marks cs rest : List Char} {c : Char}
    (h : Reader.skipJunk cs = c :: rest) (hc : c ∉ marks) : Avoids marks cs := by
  intro d hd r hr
  rw [h, List.cons.injEq] at hr
  exact hc (hr.1 ▸ hd)

theorem avoids_of_nil {marks cs : List Char} (h : Reader.skipJunk cs = []) : Avoids marks cs := by
  intro d _ r hr
  rw [h] at hr; cases hr

namespace Reader

variable {α : Type} {cs rest : List Char}

theorem mark_isStuck_of_avoids {marks : List Char} {c : Char} (h : Avoids marks cs)
    (hc : c ∈ marks) :
    (mark c cs).IsStuck :=
  mark_isStuck.mpr (h c hc)

theorem mark_isStuck_of_ne {c d : Char} (h : skipJunk cs = c :: rest) (hd : d ≠ c) :
    (mark d cs).IsStuck :=
  mark_isStuck_of_avoids (avoids_of_skipJunk h (by simpa using Ne.symm hd))
    (List.mem_singleton.mpr rfl)

/-! ## Sequences and groups -/

theorem parenthesized_eq_done {p : Reader α} {x : α} : parenthesized p cs = .done x rest ↔
    ∃ r s, skipJunk cs = '(' :: r ∧ p r = .done x s ∧ skipJunk s = ')' :: rest := by
  simp only [parenthesized, bind_eq_done, mark_eq_done, pure_eq_done]
  constructor
  · intro h
    obtain ⟨u, r, hr, y, s, hs, v, t, ht, hx, hrest⟩ := h
    subst hx hrest
    exact ⟨r, s, hr, hs, ht⟩
  · intro h
    obtain ⟨r, s, hr, hs, ht⟩ := h
    exact ⟨(), r, hr, x, s, hs, (), rest, ht, rfl, rfl⟩

theorem parenthesized_isStuck {p : Reader α} (h : ∀ r, skipJunk cs ≠ '(' :: r) :
    (parenthesized p cs).IsStuck :=
  bind_of_stuck (mark_isStuck.mpr h)

theorem parenthesized_isStuck_of_inner {p : Reader α} {r : List Char} (hr : skipJunk cs = '(' :: r)
    (h : (p r).IsStuck ∨ ∃ x s, p r = .done x s ∧ Avoids [')'] s) :
    (parenthesized p cs).IsStuck := by
  unfold parenthesized
  rw [bind_of_done (mark_of_skipJunk hr)]
  rcases h with h | ⟨x, s, h, hs⟩
  · exact bind_of_stuck h
  · rw [bind_of_done h]
    exact bind_of_stuck (mark_isStuck_of_avoids hs (by simp))

theorem commaList1_eq_done {p : Reader α} (hp : Consumes p) {xs : List α} :
    commaList1 p cs = .done xs rest ↔
    ∃ y ys r, xs = y :: ys ∧ p cs = .done y r ∧ Repeats (do mark ','; p) ys r rest := by
  simp only [commaList1, bind_eq_done, pure_eq_done, many_eq_done (consumes_comma hp.shrinks)]
  constructor
  · intro h
    obtain ⟨y, r, hy, ys, s, hys, hxs, hs⟩ := h
    subst hxs hs
    exact ⟨y, ys, r, rfl, hy, hys⟩
  · intro h
    obtain ⟨y, ys, r, hxs, hy, hys⟩ := h
    exact ⟨y, r, hy, ys, rest, hys, hxs.symm, rfl⟩

theorem commaList1_isStuck {p : Reader α} (h : (p cs).IsStuck) : (commaList1 p cs).IsStuck :=
  bind_of_stuck h

theorem commaList1_single {p : Reader α} (hp : Consumes p) {x : α} (h : p cs = .done x rest)
    (hr : Avoids [','] rest) : commaList1 p cs = .done [x] rest :=
  (commaList1_eq_done hp).mpr
    ⟨x, [], rest, rfl, h, .nil (bind_of_stuck (mark_isStuck_of_avoids hr (by simp)))⟩

theorem commaList1_cons {p : Reader α} (hp : Consumes p) {x : α} {xs : List α} {r s : List Char}
    (h : p cs = .done x r) (hr : skipJunk r = ',' :: s) (hs : commaList1 p s = .done xs rest) :
    commaList1 p cs = .done (x :: xs) rest := by
  obtain ⟨y, ys, q, he, hy, hys⟩ := (commaList1_eq_done hp).mp hs
  refine (commaList1_eq_done hp).mpr ⟨x, xs, r, rfl, h, ?_⟩
  rw [he]
  refine .cons ?_ hys
  rw [bind_of_done (mark_of_skipJunk hr)]
  exact hy

theorem commaList_eq_done {p : Reader α} {xs : List α} : commaList p cs = .done xs rest ↔
    commaList1 p cs = .done xs rest ∨ xs = [] ∧ rest = cs ∧ (commaList1 p cs).IsStuck := by
  simp only [commaList, bind_eq_done, pure_eq_done, optional_eq_done]
  constructor
  · intro h
    obtain ⟨o, r, ⟨ys, ho, hys⟩ | ⟨ho, hr, hs⟩, hxs, hrest⟩ := h
    · subst ho hxs hrest; exact .inl hys
    · subst ho hxs hrest; exact .inr ⟨rfl, hr, hs⟩
  · intro h
    rcases h with h | ⟨hxs, hr, hs⟩
    · exact ⟨some xs, rest, .inl ⟨xs, rfl, h⟩, rfl, rfl⟩
    · exact ⟨none, rest, .inr ⟨rfl, hr, hs⟩, hxs.symm, rfl⟩

/-! ## Calls -/

section
variable {term : Reader Term}

theorem values_eq_done {vs : List Term} : values term cs = .done vs rest ↔
    ∃ r, skipJunk cs = '=' :: r ∧ (tuple term r = .done vs rest ∨
      (tuple term r).IsStuck ∧ ∃ v, term r = .done v rest ∧ vs = [v]) := by
  simp only [values, bind_eq_done, mark_eq_done, orElse_eq_done, pure_eq_done]
  constructor
  · intro h
    obtain ⟨u, r, hr, h | ⟨hs, v, s, hv, hvs, hrest⟩⟩ := h
    · exact ⟨r, hr, .inl h⟩
    · subst hrest; exact ⟨r, hr, .inr ⟨hs, v, hv, hvs.symm⟩⟩
  · intro h
    obtain ⟨r, hr, h | ⟨hs, v, hv, hvs⟩⟩ := h
    · exact ⟨(), r, hr, .inl h⟩
    · exact ⟨(), r, hr, .inr ⟨hs, v, rest, hv, hvs.symm, rfl⟩⟩

theorem call_eq_done {f : Compound} : call term cs = .done f rest ↔
    ∃ name args r s, lowerName cs = .done name r ∧ arguments term r = .done args s ∧
      ((∃ vs, values term s = .done vs rest ∧ f = ⟨String.ofList name, args, vs⟩) ∨
        (values term s).IsStuck ∧ s = rest ∧ f = ⟨String.ofList name, args, []⟩) := by
  simp only [call, bind_eq_done, pure_eq_done, optional_eq_done]
  constructor
  · intro h
    obtain ⟨name, r, hn, args, s, ha, o, t, ⟨vs, ho, hv⟩ | ⟨ho, ht, hs⟩, hf, hrest⟩ := h
    · subst ho hf hrest; exact ⟨name, args, r, s, hn, ha, .inl ⟨vs, hv, rfl⟩⟩
    · subst ho hf ht hrest; exact ⟨name, args, r, t, hn, ha, .inr ⟨hs, rfl, rfl⟩⟩
  · intro h
    obtain ⟨name, args, r, s, hn, ha, ⟨vs, hv, hf⟩ | ⟨hs, ht, hf⟩⟩ := h
    · exact ⟨name, r, hn, args, s, ha, some vs, rest, .inl ⟨vs, rfl, hv⟩, hf.symm, rfl⟩
    · exact ⟨name, r, hn, args, s, ha, none, rest, .inr ⟨rfl, ht.symm, hs⟩, hf.symm, rfl⟩

theorem values_isStuck (h : Avoids ['='] cs) : (values term cs).IsStuck :=
  bind_of_stuck (mark_isStuck_of_avoids h (List.mem_singleton.mpr rfl))

theorem call_isStuck (h : ∀ name r, lowerName cs = .done name r → Avoids ['('] r) :
    (call term cs).IsStuck := by
  rcases plain_nameFrom Char.isLower cs with ⟨name, r, hn⟩ | hs
  · unfold call
    rw [bind_of_done (p := lowerName) hn]
    exact bind_of_stuck (parenthesized_isStuck (h name r hn '(' (by simp)))
  · exact bind_of_stuck (p := lowerName) hs

theorem compound_eq_done {f : Compound} : compound term cs = .done f rest ↔
    call term cs = .done f rest ∨
      (call term cs).IsStuck ∧ ∃ items, tuple term cs = .done items rest ∧
      f = .tuple items := by
  simp only [compound, orElse_eq_done, bind_eq_done, pure_eq_done]
  constructor
  · intro h
    rcases h with h | ⟨hs, items, r, h, hf, hr⟩
    · exact .inl h
    · subst hr; exact .inr ⟨hs, items, h, hf.symm⟩
  · intro h
    rcases h with h | ⟨hs, items, h, hf⟩
    · exact .inl h
    · exact .inr ⟨hs, items, rest, h, hf.symm, rfl⟩

theorem compound_isStuck (h : ∀ name r, lowerName cs = .done name r → Avoids ['('] r)
    (hcs : Avoids ['('] cs) :
    (compound term cs).IsStuck :=
  orElse_isStuck.mpr ⟨call_isStuck h, bind_of_stuck (parenthesized_isStuck (hcs '(' (by simp)))⟩

/-! ## Lists -/

variable {policy : Policy} {list : Reader (List Term)}

theorem upperName_eq_var {t : Term} : lexeme policy upperName cs = .done t rest ↔
    ∃ w, upperName cs = .done w rest ∧ t = .var (String.ofList w) := by
  rw [lexeme_eq_done]
  constructor
  · intro h
    obtain ⟨w, hw, hm⟩ := h
    rw [meaning?_upper (nameFrom_eq_done.mp hw).2.1, Option.some.injEq] at hm
    exact ⟨w, hw, hm.symm⟩
  · intro h
    obtain ⟨w, hw, ht⟩ := h
    exact ⟨w, hw, by rw [meaning?_upper (nameFrom_eq_done.mp hw).2.1, ht]⟩

theorem upperName_isStuck_of_lexeme (h : (lexeme policy upperName cs).IsStuck) :
    (upperName cs).IsStuck := by
  rcases isStuck_of_lexeme h with h | ⟨w, r, hw, hm⟩
  · exact h
  · rw [meaning?_upper (nameFrom_eq_done.mp hw).2.1] at hm
    cases hm

theorem listEnd_eq_done {tail : List Term} : listEnd policy list cs = .done tail rest ↔
    (∃ r s, skipJunk cs = '|' :: r ∧ skipJunk s = ']' :: rest ∧
      ((∃ w, upperName r = .done w s ∧ tail = [.var (String.ofList w)]) ∨
        (upperName r).IsStuck ∧ list r = .done tail s)) ∨
    skipJunk cs = ']' :: rest ∧ tail = [] := by
  simp only [listEnd, orElse_eq_done, bind_eq_done, mark_eq_done, pure_eq_done, upperName_eq_var]
  constructor
  · intro h
    rcases h with ⟨u, r, hr, x, s, h, v, t, ht, hx, hrest⟩ | ⟨-, u, r, hr, htail, hrest⟩
    · subst hx hrest
      refine .inl ⟨r, s, hr, ht, ?_⟩
      rcases h with ⟨y, a, ⟨w, hw, hy⟩, hv, ha⟩ | ⟨hs, h⟩
      · subst hy hv ha; exact .inl ⟨w, hw, rfl⟩
      · exact .inr ⟨upperName_isStuck_of_lexeme (map_isStuck.mp hs), h⟩
    · subst hrest; exact .inr ⟨hr, htail.symm⟩
  · intro h
    rcases h with ⟨r, s, hr, ht, h⟩ | ⟨hr, htail⟩
    · refine .inl ⟨(), r, hr, tail, s, ?_, (), rest, ht, rfl, rfl⟩
      rcases h with ⟨w, hw, htail⟩ | ⟨hs, h⟩
      · exact .inl ⟨_, s, ⟨w, hw, rfl⟩, htail.symm, rfl⟩
      · exact .inr ⟨bind_of_stuck (lexeme_isStuck hs), h⟩
    · refine .inr ⟨bind_of_stuck (mark_isStuck_of_ne hr (by decide)), (), rest, hr,
        htail.symm, rfl⟩

theorem bracketed_of_items {items tail : List Term} {r s : List Char} (hr : skipJunk cs = '[' :: r)
    (hi : commaList1 term r = .done items s) (ht : listEnd policy list s = .done tail rest) :
    bracketed term policy list cs = .done (items ++ tail) rest := by
  unfold bracketed
  rw [bind_of_done (mark_of_skipJunk hr)]
  apply orElse_of_done
  rw [bind_of_done hi, bind_of_done ht]
  rfl

theorem bracketed_of_empty {r : List Char} (hr : skipJunk cs = '[' :: r) (hs : (term r).IsStuck)
    (he : skipJunk r = ']' :: rest) : bracketed term policy list cs = .done [] rest := by
  unfold bracketed
  rw [bind_of_done (mark_of_skipJunk hr),
    orElse_eq_done_of_stuck (bind_of_stuck (commaList1_isStuck hs)),
    bind_of_done (mark_of_skipJunk he)]
  rfl

theorem bracketed_cases {items : List Term} (h : bracketed term policy list cs = .done items rest) :
    ∃ r, skipJunk cs = '[' :: r ∧
      ((∃ front tail s, commaList1 term r = .done front s ∧
        listEnd policy list s = .done tail rest ∧
        items = front ++ tail) ∨ skipJunk r = ']' :: rest ∧ items = []) := by
  simp only [bracketed, bind_eq_done, orElse_eq_done, mark_eq_done, pure_eq_done] at h
  obtain ⟨u, r, hr,
    ⟨front, s, hf, tail, t, ht, hi, hrest⟩ | ⟨-, v, s, hs, hi, hrest⟩⟩ := h
  · subst hi hrest; exact ⟨r, hr, .inl ⟨front, tail, s, hf, ht, rfl⟩⟩
  · subst hrest; exact ⟨r, hr, .inr ⟨hs, hi.symm⟩⟩

theorem bracketed_isStuck (h : Avoids ['['] cs) : (bracketed term policy list cs).IsStuck :=
  bind_of_stuck (mark_isStuck_of_avoids h (by simp))

end

/-! ## Terms -/

theorem lexemes_isStuck {policy : Policy} (h : leads? cs = none) : (lexemes policy cs).IsStuck := by
  have hne : ∀ l, leads? cs ≠ some l := fun l h' => by rw [h] at h'; cases h'
  unfold lexemes
  simp only [orElse_isStuck]
  exact ⟨lexeme_isStuck_of_leads? (plain_nameFrom _) leads?_of_lowerName (hne _),
    lexeme_isStuck_of_leads? (plain_nameFrom _) leads?_of_upperName (hne _),
    lexeme_isStuck_of_leads? plain_decimalNumeral leads?_of_decimalNumeral (hne _),
    lexeme_isStuck_of_leads? plain_wholeNumeral leads?_of_wholeNumeral (hne _),
    lexeme_isStuck_of_leads? (plain_quotedLiteral _) (leads?_of_quotedLiteral rfl) (hne _),
    lexeme_isStuck_of_leads? (plain_quotedLiteral _) (leads?_of_quotedLiteral rfl) (hne _)⟩

theorem leads?_eq_none {c : Char} (h : skipJunk cs = c :: rest) (hc : lead? c = none) :
    leads? cs = none := by
  rw [leads?_eq (w := []) h, hc]

theorem call_isStuck_of_front {term : Reader Term} {c : Char} (h : skipJunk cs = c :: rest)
    (hc : lead? c = none) :
    (call term cs).IsStuck := by
  apply call_isStuck
  intro name r hn
  have hlead := leads?_of_lowerName hn
  rw [leads?_eq_none h hc] at hlead
  cases hlead

namespace Unbounded

variable {policy : Policy}

theorem list_isStuck (h : Avoids ['['] cs) : (list policy cs).IsStuck := by
  rw [list_apply]
  exact bracketed_isStuck h

theorem term_eq_done {t : Term} : term policy cs = .done t rest ↔
    (∃ f, compound (term policy) cs = .done f rest ∧ t = f.toTerm) ∨
    (compound (term policy) cs).IsStuck ∧
      ((∃ items, list policy cs = .done items rest ∧ t = .list items) ∨
        (list policy cs).IsStuck ∧ lexemes policy cs = .done t rest) := by
  rw [term_apply]
  change (_ <|> _ <|> lexemes policy : Reader Term) cs = _ ↔ _
  simp only [orElse_eq_done, map_isStuck, bind_eq_done, pure_eq_done, ← list_apply]
  constructor
  · intro h
    rcases h with ⟨f, r, hf, ht, hr⟩ | ⟨hs, ⟨items, r, hi, ht, hr⟩ | ⟨hs', h⟩⟩
    · subst hr; exact .inl ⟨f, hf, ht.symm⟩
    · subst hr; exact .inr ⟨hs, .inl ⟨items, hi, ht.symm⟩⟩
    · exact .inr ⟨hs, .inr ⟨hs', h⟩⟩
  · intro h
    rcases h with ⟨f, hf, ht⟩ | ⟨hs, ⟨items, hi, ht⟩ | ⟨hs', h⟩⟩
    · exact .inl ⟨f, rest, hf, ht.symm, rfl⟩
    · exact .inr ⟨hs, .inl ⟨items, rest, hi, ht.symm, rfl⟩⟩
    · exact .inr ⟨hs, .inr ⟨hs', h⟩⟩

theorem compound_isStuck_of_front {c : Char} (h : skipJunk cs = c :: rest) (hc : lead? c = none)
    (ho : c ≠ '(') :
    (compound (term policy) cs).IsStuck := by
  have havoid : Avoids ['('] cs := avoids_of_skipJunk h (by simpa using ho)
  exact orElse_isStuck.mpr ⟨call_isStuck_of_front h hc,
    map_isStuck.mpr (parenthesized_isStuck (havoid '(' (by simp)))⟩

theorem term_isStuck {c : Char} (h : skipJunk cs = c :: rest) (hc : lead? c = none)
    (ho : c ∉ ['(', '[']) :
    (term policy cs).IsStuck := by
  simp only [List.mem_cons, List.not_mem_nil, or_false, not_or] at ho
  have hcompound : (compound (term policy) cs).IsStuck := compound_isStuck_of_front h hc ho.1
  have hlist : (list policy cs).IsStuck := list_isStuck (avoids_of_skipJunk h (by simpa using ho.2))
  rw [list_apply] at hlist
  rw [term_apply]
  exact orElse_isStuck.mpr
    ⟨map_isStuck.mpr hcompound, orElse_isStuck.mpr ⟨map_isStuck.mpr hlist,
      lexemes_isStuck (leads?_eq_none h hc)⟩⟩

end Unbounded

end Reader

end Clausal
