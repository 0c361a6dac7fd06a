import Clausal.Proofs.Grammar
import Clausal.Proofs.TermReader

/-!
# What is read derives from the grammar

By induction on the length of the text: each reader of a part is sound as soon as
the readers of terms and lists are sound on all shorter texts.
-/

namespace Clausal

open Reader Reader.Unbounded

variable {policy : Policy}

/-- What begins like a group and is no group is no term either. -/
theorem not_open_of_tuple_isStuck {t : Term} {cs rest : List Char}
    (hs : (tuple (term policy) cs).IsStuck) (h : term policy cs = .done t rest) (r : List Char) :
    ¬ Junk cs ('(' :: r) := by
  intro hj
  have hopen := skipJunk_of_junk rfl hj
  have hlead := leads?_eq_none hopen rfl
  rcases term_eq_done.mp h with ⟨f, hf, -⟩ | ⟨-, ⟨items, hi, -⟩ | ⟨-, hx⟩⟩
  · rcases compound_eq_done.mp hf with hc | ⟨-, items, hg, -⟩
    · exact (call_isStuck_of_front hopen rfl).ne_done f rest hc
    · exact hs.ne_done items rest hg
  · exact (list_isStuck (avoids_of_skipJunk hopen (by decide))).ne_done items rest hi
  · exact (lexemes_isStuck hlead).ne_done t rest hx

section
variable {k : Nat}
  (ht : ∀ (cs : List Char) t rest, cs.length < k → term policy cs = .done t rest →
    Derives (.term t) cs rest)
include ht

theorem derives_more {ts : List Term} {r rest : List Char}
    (h : Repeats (do mark ','; term policy) ts r rest) :
    ∀ (t : Term) (cs : List Char), cs.length < k →
      term policy cs = .done t r → Derives (.sequence (t :: ts)) cs rest := by
  induction h with
  | nil _ =>
    intro t cs hk hd
    exact .one (ht cs t _ hk hd)
  | @cons x xs r s rest hx _ ih =>
    intro t cs hk hd
    obtain ⟨u, q, hm, hx⟩ := bind_eq_done.mp hx
    have hr := consumes_term policy cs t r hd
    have hq := consumes_mark _ _ _ _ hm
    exact .more (ht cs t r hk hd) (junk_of_skipJunk (mark_eq_done.mp hm)) (ih x q (by omega) hx)

theorem derives_sequence {ts : List Term} {cs rest : List Char} (hk : cs.length < k)
    (h : commaList1 (term policy) cs = .done ts rest) : Derives (.sequence ts) cs rest := by
  obtain ⟨t, us, r, he, hd, hr⟩ := (commaList1_eq_done (consumes_term policy)).mp h
  rw [he]
  exact derives_more ht hr t cs hk hd

theorem derives_group {ts : List Term} {cs rest : List Char} (hk : cs.length ≤ k)
    (h : tuple (term policy) cs = .done ts rest) : Derives (.group ts) cs rest := by
  obtain ⟨r, s, hr, hs, hc⟩ := parenthesized_eq_done.mp h
  have hlen := length_lt_of_skipJunk (w := ['(']) hr (by simp)
  exact .group (junk_of_skipJunk hr) (derives_sequence ht (by omega) hs) (junk_of_skipJunk hc)

theorem derives_arguments {ts : List Term} {cs rest : List Char} (hk : cs.length ≤ k)
    (h : arguments (term policy) cs = .done ts rest) : Derives (.arguments ts) cs rest := by
  obtain ⟨r, s, hr, hs, hc⟩ := parenthesized_eq_done.mp h
  rcases commaList_eq_done.mp hs with hs | ⟨hts, hrs, -⟩
  · exact .arguments (derives_group ht hk (parenthesized_eq_done.mpr ⟨r, s, hr, hs, hc⟩))
  · subst hts hrs
    exact .noArguments (junk_of_skipJunk hr) (junk_of_skipJunk hc)

theorem derives_values {ts : List Term} {cs rest : List Char} (hk : cs.length ≤ k)
    (h : values (term policy) cs = .done ts rest) : Derives (.values ts) cs rest := by
  obtain ⟨r, hr, h⟩ := values_eq_done.mp h
  have hlen := length_lt_of_skipJunk (w := ['=']) hr (by simp)
  rcases h with h | ⟨hs, v, hv, hts⟩
  · exact .severalValues (junk_of_skipJunk hr) (derives_group ht (by omega) h)
  · subst hts
    exact .oneValue (junk_of_skipJunk hr) (not_open_of_tuple_isStuck hs hv)
      (ht r v rest (by omega) hv)

theorem derives_compound {f : Compound} {cs rest : List Char} (hk : cs.length ≤ k)
    (h : compound (term policy) cs = .done f rest) : Derives (.compound f) cs rest := by
  rcases compound_eq_done.mp h with h | ⟨-, items, h, hf⟩
  · -- behind the name there is less text, and less still behind the arguments
    obtain ⟨name, args, r, s, hn, ha, h⟩ := call_eq_done.mp h
    have hr := consumes_nameFrom _ _ _ _ hn
    have hs := consumes_arguments (consumes_term policy) _ _ _ ha
    obtain ⟨hj, hname, -⟩ := nameFrom_eq_done.mp hn
    have hargs := derives_arguments ht (by omega) ha
    rcases h with ⟨vs, hv, hf⟩ | ⟨-, hrest, hf⟩
    · rw [hf]
      exact .valued (junk_of_skipJunk hj) hname hargs (derives_values ht (by omega) hv)
    · rw [hf, ← hrest]
      exact .call (junk_of_skipJunk hj) hname hargs
  · rw [hf]
    exact .tuple (derives_group ht hk h)

variable
  (hl : ∀ (cs : List Char) items rest, cs.length < k → list policy cs = .done items rest →
    Derives (.list items) cs rest)
include hl

theorem derives_list {items : List Term} {cs rest : List Char} (hk : cs.length ≤ k)
    (h : list policy cs = .done items rest) : Derives (.list items) cs rest := by
  rw [list_apply] at h
  obtain ⟨r, hr, ⟨front, tail, s, hf, htail, hi⟩ | ⟨he, hi⟩⟩ := bracketed_cases h
  · have hlen := length_lt_of_skipJunk (w := ['[']) hr (by simp)
    have hslen := consumes_commaList1 (consumes_term policy) _ _ _ hf
    have hfront := derives_sequence ht (by omega) hf
    subst hi
    rcases listEnd_eq_done.mp htail with
      ⟨a, b, ha, hb, ⟨w, hw, he⟩ | ⟨-, hd⟩⟩ | ⟨hc, he⟩
    · obtain ⟨hj, hname, -⟩ := nameFrom_eq_done.mp hw
      subst he
      exact .barVariable (junk_of_skipJunk hr) hfront (junk_of_skipJunk ha)
        (junk_of_skipJunk hj) hname
        (junk_of_skipJunk hb)
    · have hlen' := length_lt_of_skipJunk (w := ['|']) ha (by simp)
      exact .barList (junk_of_skipJunk hr) hfront (junk_of_skipJunk ha) (hl a tail b (by omega) hd)
        (junk_of_skipJunk hb)
    · subst he
      rw [List.append_nil]
      exact .items (junk_of_skipJunk hr) hfront (junk_of_skipJunk hc)
  · subst hi
    exact .emptyList (junk_of_skipJunk hr) (junk_of_skipJunk he)

theorem derives_term {t : Term} {cs rest : List Char} (hk : cs.length ≤ k)
    (h : term policy cs = .done t rest) : Derives (.term t) cs rest := by
  rcases term_eq_done.mp h with ⟨f, hf, he⟩ | ⟨-, ⟨items, hi, he⟩ | ⟨-, hx⟩⟩
  · subst he; exact .compound (derives_compound ht hk hf)
  · subst he; exact .list (derives_list ht hl hk hi)
  · obtain ⟨w, hj, hw, hm⟩ := lexemes_eq_done.mp hx
    exact .token (junk_of_skipJunk hj) hw hm

end

theorem derives_of_read (policy : Policy) (k : Nat) :
    (∀ (cs : List Char) t rest, cs.length < k → term policy cs = .done t rest →
      Derives (.term t) cs rest) ∧
    (∀ (cs : List Char) items rest, cs.length < k → list policy cs = .done items rest →
      Derives (.list items) cs rest) := by
  induction k with
  | zero =>
    exact ⟨fun _ _ _ hk => absurd hk (Nat.not_lt_zero _),
      fun _ _ _ hk => absurd hk (Nat.not_lt_zero _)⟩
  | succ k ih =>
    obtain ⟨ht, hl⟩ := ih
    exact ⟨fun _ _ _ hk h => derives_term ht hl (Nat.le_of_lt_succ hk) h,
      fun _ _ _ hk h => derives_list ht hl (Nat.le_of_lt_succ hk) h⟩

/-- **Soundness.** A term that is read derives from the grammar. -/
theorem derives_of_term {t : Term} {cs rest : List Char} (h : term policy cs = .done t rest) :
    Derives (.term t) cs rest :=
  (derives_of_read policy (cs.length + 1)).1 cs t rest (Nat.lt_succ_self _) h

theorem derives_of_list {items : List Term} {cs rest : List Char}
    (h : list policy cs = .done items rest) :
    Derives (.list items) cs rest :=
  (derives_of_read policy (cs.length + 1)).2 cs items rest (Nat.lt_succ_self _) h

theorem derives_of_compound {f : Compound} {cs rest : List Char}
    (h : compound (term policy) cs = .done f rest) : Derives (.compound f) cs rest :=
  derives_compound (fun _ _ _ _ => derives_of_term) (Nat.le_refl _) h

theorem derives_of_arguments {args : List Term} {cs rest : List Char}
    (h : arguments (term policy) cs = .done args rest) : Derives (.arguments args) cs rest :=
  derives_arguments (fun _ _ _ _ => derives_of_term) (Nat.le_refl _) h

end Clausal
