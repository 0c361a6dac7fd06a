import Clausal.Proofs.GrammarSound

/-!
# What derives from the grammar is read

What follows a term decides whether it goes on: a term is read whole if neither
arguments nor values follow it. Inside a text that derives from the grammar this
holds of every term, so no alternative that is tried too early gets in its way.
-/

namespace Clausal

open Lexeme Reader Reader.Unbounded

variable {policy : Policy}

/-- No term that ends here goes on: neither arguments nor values follow. -/
structure Halts (policy : Policy) (rest : List Char) : Prop where
  arguments : Avoids ['('] rest
  values : (values (term policy) rest).IsStuck

theorem halts_of_avoids {rest : List Char} (h : Avoids ['(', '='] rest) : Halts policy rest :=
  ⟨h.mono (by simp), values_isStuck (h.mono (by simp))⟩

theorem halts_of_mark {c : Char} {cs rest : List Char} (h : skipJunk cs = c :: rest)
    (hc : c ∉ ['(', '=']) :
    Halts policy cs :=
  halts_of_avoids (avoids_of_skipJunk h hc)

/-- What the readers do on a phrase that the grammar derives, if terms halt behind it. -/
def ReadsHalting (policy : Policy) : Phrase → List Char → List Char → Prop
  | .term t, cs, rest => Halts policy rest → term policy cs = .done t rest
  | .compound f, cs, rest => Halts policy rest → compound (term policy) cs = .done f rest
  | .arguments ts, cs, rest => arguments (term policy) cs = .done ts rest
  | .values ts, cs, rest => Halts policy rest → values (term policy) cs = .done ts rest
  | .group ts, cs, rest => tuple (term policy) cs = .done ts rest
  | .list items, cs, rest => list policy cs = .done items rest
  | .sequence ts, cs, rest =>
    Halts policy rest → Avoids [','] rest → commaList1 (term policy) cs = .done ts rest

/-- The same, if none of the marks follows that a term could go on with. -/
def Reads (policy : Policy) : Phrase → List Char → List Char → Prop
  | .term t, cs, rest => Avoids ['(', '='] rest → term policy cs = .done t rest
  | .compound f, cs, rest => Avoids ['(', '='] rest → compound (term policy) cs = .done f rest
  | .arguments ts, cs, rest => arguments (term policy) cs = .done ts rest
  | .values ts, cs, rest => Avoids ['(', '='] rest → values (term policy) cs = .done ts rest
  | .group ts, cs, rest => tuple (term policy) cs = .done ts rest
  | .list items, cs, rest => list policy cs = .done items rest
  | .sequence ts, cs, rest =>
    Avoids ['(', '=', ','] rest → commaList1 (term policy) cs = .done ts rest

theorem isNameChar_of_isGap {c : Char} (h : isGap c = true) : isNameChar c = false := by
  simp only [isGap, Bool.or_eq_true, beq_iff_eq] at h
  rcases h with ((h | h) | h) | h
  all_goals subst h; rfl

theorem stops_of_junk {cs rest : List Char} {c : Char} (h : Junk cs (c :: rest))
    (hc : isNameChar c = false) :
    Stops isNameChar cs := by
  generalize hr : c :: rest = ds at h
  cases h with
  | none => subst hr; exact stops_cons.mpr hc
  | blank hd _ => exact stops_cons.mpr (isNameChar_of_isGap hd)
  | line ho _ _ _ _ => rcases ho with h | h <;> subst h <;> exact stops_cons.mpr rfl
  | block _ _ => exact stops_cons.mpr rfl

theorem lowerName_of_junk {name cs rest : List Char} (hj : Junk cs (name ++ rest))
    (hn : isLowerName name = true) (hr : Stops isNameChar rest) : lowerName cs = .done name rest :=
  nameFrom_eq_done.mpr ⟨(IsToken.lower hn).skipJunk_eq hj, hn, hr⟩

theorem upperName_of_junk {name cs rest : List Char} (hj : Junk cs (name ++ rest))
    (hn : isUpperName name = true) (hr : Stops isNameChar rest) : upperName cs = .done name rest :=
  nameFrom_eq_done.mpr ⟨(IsToken.upper hn).skipJunk_eq hj, hn, hr⟩

theorem open_of_arguments {ts : List Term} {cs rest : List Char}
    (h : Derives (.arguments ts) cs rest) :
    ∃ r, Junk cs ('(' :: r) := by
  cases h with
  | noArguments hj _ => exact ⟨_, hj⟩
  | arguments h => cases h with | group hj _ _ => exact ⟨_, hj⟩

theorem reads_token {t : Term} {w cs rest : List Char} (hj : Junk cs (w ++ rest))
    (hw : Longest w rest) (hm : meaning? w = some t) (hr : Avoids ['('] rest) :
    term policy cs = .done t rest := by
  have hskip := hw.isToken.skipJunk_eq hj
  obtain ⟨c, v, l, hc, hl⟩ := hw.isToken.exists_lead
  have hfirst : skipJunk cs = c :: (v ++ rest) := by rw [hskip, hc]; rfl
  have hcompound : (compound (term policy) cs).IsStuck := by
    refine compound_isStuck (fun name r hn => ?_) (avoids_of_skipJunk hfirst ?_)
    · -- the only name in front is the token itself
      obtain ⟨hj', hname⟩ := longest_of_lowerName hn
      obtain ⟨-, he⟩ := hname.unique hw (hj'.symm.trans hskip)
      rw [he]
      exact hr
    · intro hmem
      rw [List.mem_singleton.mp hmem] at hl; cases hl
  have hlist : (list policy cs).IsStuck := by
    refine list_isStuck (avoids_of_skipJunk hfirst fun hmem => ?_)
    rw [List.mem_singleton.mp hmem] at hl; cases hl
  exact term_eq_done.mpr
    (.inr ⟨hcompound, .inr ⟨hlist, lexemes_eq_done.mpr ⟨w, hskip, hw, hm⟩⟩⟩)

theorem readsHalting_of_derives {φ : Phrase} {cs rest : List Char} (h : Derives φ cs rest) :
    ReadsHalting policy φ cs rest := by
  induction h with
  | token hj hw hm => exact fun hr => reads_token hj hw hm hr.arguments
  | compound _ ih => intro hr; exact term_eq_done.mpr (.inl ⟨_, ih hr, rfl⟩)
  | @list items cs rest h ih =>
    intro _
    obtain ⟨r, hr⟩ : ∃ r, skipJunk cs = '[' :: r := by
      have hi : list policy cs = .done items rest := ih
      rw [list_apply] at hi
      obtain ⟨r, hr, -⟩ := bracketed_cases hi
      exact ⟨r, hr⟩
    exact term_eq_done.mpr
      (.inr ⟨compound_isStuck_of_front hr rfl (by decide), .inl ⟨items, ih, rfl⟩⟩)
  | call hj hn ha ih =>
    intro hr
    obtain ⟨s, hs⟩ := open_of_arguments ha
    refine compound_eq_done.mpr (.inl (call_eq_done.mpr ⟨_, _, _, _,
      lowerName_of_junk hj hn (stops_of_junk hs rfl), ih, .inr ⟨hr.values, rfl, rfl⟩⟩))
  | valued hj hn ha _ iha ihv =>
    intro hr
    obtain ⟨s, hs⟩ := open_of_arguments ha
    exact compound_eq_done.mpr (.inl (call_eq_done.mpr ⟨_, _, _, _,
      lowerName_of_junk hj hn (stops_of_junk hs rfl), iha, .inl ⟨_, ihv hr, rfl⟩⟩))
  | @tuple items cs rest h ih =>
    intro _
    obtain ⟨r, s, hr, -⟩ := parenthesized_eq_done.mp ih
    exact compound_eq_done.mpr (.inr ⟨call_isStuck_of_front hr rfl, items, ih, rfl⟩)
  | noArguments hj hj' =>
    have hclose := skipJunk_of_junk rfl hj'
    refine parenthesized_eq_done.mpr
      ⟨_, _, skipJunk_of_junk rfl hj, commaList_eq_done.mpr (.inr ⟨rfl, rfl, ?_⟩), hclose⟩
    exact commaList1_isStuck (term_isStuck hclose rfl (by decide))
  | arguments h ih =>
    obtain ⟨r, s, hr, hs, hc⟩ := parenthesized_eq_done.mp ih
    exact parenthesized_eq_done.mpr ⟨r, s, hr, commaList_eq_done.mpr (.inl hs), hc⟩
  | severalValues hj _ ih =>
    intro _; exact values_eq_done.mpr ⟨_, skipJunk_of_junk rfl hj, .inl ih⟩
  | oneValue hj hne _ ih =>
    intro hr
    -- the one value opens no group, so the group of values is stuck before it
    refine values_eq_done.mpr ⟨_, skipJunk_of_junk rfl hj, .inr ⟨?_, _, ih hr, rfl⟩⟩
    exact parenthesized_isStuck fun s hs => hne s (junk_of_skipJunk hs)
  | group hj _ hj' ih =>
    have hclose := skipJunk_of_junk rfl hj'
    have hitems := ih (halts_of_mark hclose (by decide)) (avoids_of_skipJunk hclose (by decide))
    exact parenthesized_eq_done.mpr ⟨_, _, skipJunk_of_junk rfl hj, hitems, hclose⟩
  | emptyList hj hj' =>
    have hclose := skipJunk_of_junk rfl hj'
    simp only [ReadsHalting, list_apply]
    exact bracketed_of_empty (skipJunk_of_junk rfl hj) (term_isStuck hclose rfl (by decide)) hclose
  | @items items cs r s rest hj _ hj' ih =>
    have hclose := skipJunk_of_junk rfl hj'
    have hitems := ih (halts_of_mark hclose (by decide)) (avoids_of_skipJunk hclose (by decide))
    simp only [ReadsHalting, list_apply]
    rw [← List.append_nil items]
    exact bracketed_of_items (skipJunk_of_junk rfl hj) hitems
      (listEnd_eq_done.mpr (.inr ⟨hclose, rfl⟩))
  | barVariable hj _ hbar hv hn hj' ih =>
    have hb := skipJunk_of_junk rfl hbar
    have hitems := ih (halts_of_mark hb (by decide)) (avoids_of_skipJunk hb (by decide))
    simp only [ReadsHalting, list_apply]
    exact bracketed_of_items (skipJunk_of_junk rfl hj) hitems
      (listEnd_eq_done.mpr (.inl ⟨_, _, hb, skipJunk_of_junk rfl hj',
        .inl ⟨_, upperName_of_junk hv hn (stops_of_junk hj' rfl), rfl⟩⟩))
  | @barList items tail cs r s t u rest hj _ hbar h hj' ih iht =>
    have hb := skipJunk_of_junk rfl hbar
    have htail : list policy t = .done tail u := iht
    obtain ⟨q, hq, -⟩ := bracketed_cases (list_apply policy t ▸ htail)
    have hitems := ih (halts_of_mark hb (by decide)) (avoids_of_skipJunk hb (by decide))
    simp only [ReadsHalting, list_apply]
    refine bracketed_of_items (skipJunk_of_junk rfl hj) hitems
      (listEnd_eq_done.mpr (.inl ⟨_, _, hb, skipJunk_of_junk rfl hj', .inr ⟨?_, iht⟩⟩))
    -- a list does not begin like the variable that is tried first
    exact isStuck_of_leads? (plain_nameFrom _) leads?_of_upperName
      (by rw [leads?_eq_none hq rfl]; simp)
  | one _ ih => exact fun hr hc => commaList1_single (consumes_term policy) (ih hr) hc
  | more _ hj _ iht ihs =>
    intro hr hc
    have hcomma := skipJunk_of_junk rfl hj
    exact commaList1_cons (consumes_term policy) (iht (halts_of_mark hcomma (by decide)))
      hcomma (ihs hr hc)

theorem reads_of_derives {φ : Phrase} {cs rest : List Char} (h : Derives φ cs rest) :
    Reads policy φ cs rest := by
  have hread : ReadsHalting policy φ cs rest := readsHalting_of_derives h
  cases φ with
  | term t => exact fun hr => hread (halts_of_avoids hr)
  | compound f => exact fun hr => hread (halts_of_avoids hr)
  | values ts => exact fun hr => hread (halts_of_avoids hr)
  | sequence ts => exact fun hr => hread (halts_of_avoids (hr.mono (by simp))) (hr.mono (by simp))
  | arguments ts => exact hread
  | group ts => exact hread
  | list items => exact hread

end Clausal
