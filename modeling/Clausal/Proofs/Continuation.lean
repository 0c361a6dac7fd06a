import Clausal.Proofs.Balance

/-!
# Texts that go on behind a line feed

A phrase stays what it is if the text goes on behind a line feed. The feed ends a
comment, and it lengthens no token. So whatever is parsed from a text of its own
also derives where that text is only the front of another one.
-/

namespace Clausal

open Lexeme Reader

/-- Every phrase begins with a token, which no junk begins with. -/
theorem Derives.exists_front {φ : Phrase} {cs rest : List Char} (h : Derives φ cs rest) :
    ∃ c s, isSolid c = true ∧ Junk cs (c :: s) := by
  have hword {w r cs : List Char} (hw : IsToken w) (hj : Junk cs (w ++ r)) :
      ∃ c s, isSolid c = true ∧ Junk cs (c :: s) := by
    obtain ⟨c, v, l, he, hl⟩ := hw.exists_lead
    rw [he] at hj
    exact ⟨c, v ++ r, isSolid_of_lead hl, hj⟩
  induction h with
  | token hj hw _ => exact hword hw.isToken hj
  | compound _ ih => exact ih
  | list _ ih => exact ih
  | call hj hn _ _ => exact hword (.lower hn) hj
  | valued hj hn _ _ _ _ => exact hword (.lower hn) hj
  | tuple _ ih => exact ih
  | noArguments hj _ => exact ⟨_, _, rfl, hj⟩
  | arguments _ ih => exact ih
  | severalValues hj _ _ => exact ⟨_, _, rfl, hj⟩
  | oneValue hj _ _ _ => exact ⟨_, _, rfl, hj⟩
  | group hj _ _ _ => exact ⟨_, _, rfl, hj⟩
  | emptyList hj _ => exact ⟨_, _, rfl, hj⟩
  | items hj _ _ _ => exact ⟨_, _, rfl, hj⟩
  | barVariable hj _ _ _ _ _ _ => exact ⟨_, _, rfl, hj⟩
  | barList hj _ _ _ _ _ _ => exact ⟨_, _, rfl, hj⟩
  | one _ ih => exact ih
  | more _ _ _ ih _ => exact ih

section
variable (tail : List Char)

/-- **More text.** The derivation is the same, token by token. -/
theorem Derives.append_feed {φ : Phrase} {cs rest : List Char} (h : Derives φ cs rest) :
    Derives φ (cs ++ '\n' :: tail) (rest ++ '\n' :: tail) := by
  have hword {w r cs : List Char} (hj : Junk cs (w ++ r)) :
      Junk (cs ++ '\n' :: tail) (w ++ (r ++ '\n' :: tail)) := by
    rw [← List.append_assoc]
    exact hj.append_feed tail
  induction h with
  | token hj hw hm => exact .token (hword hj) (hw.append_feed tail) hm
  | compound _ ih => exact .compound ih
  | list _ ih => exact .list ih
  | call hj hn _ ih => exact .call (hword hj) hn ih
  | valued hj hn _ _ iha ihv => exact .valued (hword hj) hn iha ihv
  | tuple _ ih => exact .tuple ih
  | noArguments hj hj' => exact .noArguments (hj.append_feed tail) (hj'.append_feed tail)
  | arguments _ ih => exact .arguments ih
  | severalValues hj _ ih => exact .severalValues (hj.append_feed tail) ih
  | @oneValue value cs r rest hj hne ht ih =>
    refine .oneValue (hj.append_feed tail) (fun s hopen => ?_) ih
    -- the first character of the value is still the same, and it is no parenthesis
    obtain ⟨c, v, hc, hv⟩ := ht.exists_front
    have hfront : skipJunk (r ++ '\n' :: tail) = c :: (v ++ '\n' :: tail) :=
      skipJunk_of_junk hc (hv.append_feed tail)
    have hparenthesis : skipJunk (r ++ '\n' :: tail) = '(' :: s := skipJunk_of_junk rfl hopen
    rw [hparenthesis, List.cons.injEq] at hfront
    exact hne v (hfront.1 ▸ hv)
  | group hj _ hj' ih => exact .group (hj.append_feed tail) ih (hj'.append_feed tail)
  | emptyList hj hj' => exact .emptyList (hj.append_feed tail) (hj'.append_feed tail)
  | items hj _ hj' ih => exact .items (hj.append_feed tail) ih (hj'.append_feed tail)
  | barVariable hj _ hb hv hn hj' ih =>
    exact .barVariable (hj.append_feed tail) ih (hb.append_feed tail) (hword hv) hn
      (hj'.append_feed tail)
  | barList hj _ hb _ hj' ih iht =>
    exact .barList (hj.append_feed tail) ih (hb.append_feed tail) iht (hj'.append_feed tail)
  | one _ ih => exact .one ih
  | more _ hj _ iht ihs => exact .more iht (hj.append_feed tail) ihs

theorem Junk.append_feed_of_nil {rest : List Char} (h : Junk rest []) :
    Junk (rest ++ '\n' :: tail) tail :=
  (h.append_feed tail).trans (.blank rfl .none)

section
variable {text : String}

theorem derives_of_parse {t : Term} (h : Term.parse text = .ok t) :
    ∃ rest, Derives (.term t) (text.toList ++ '\n' :: tail) rest ∧ Junk rest tail := by
  obtain ⟨rest, ht, hr⟩ := Term.parse_iff.mp h
  exact ⟨_, (derives_of_term ht).append_feed tail,
    (junk_nil_iff.mpr hr).append_feed_of_nil tail⟩

theorem derives_of_parseList {items : List Term} (h : Term.parseList text = .ok items) :
    ∃ rest, Derives (.list items) (text.toList ++ '\n' :: tail) rest ∧ Junk rest tail := by
  obtain ⟨rest, hi, hr⟩ := Term.parseList_iff.mp h
  exact ⟨_, (derives_of_list hi).append_feed tail,
    (junk_nil_iff.mpr hr).append_feed_of_nil tail⟩

end

end

end Clausal
