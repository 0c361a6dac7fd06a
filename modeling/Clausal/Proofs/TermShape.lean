import Clausal.Proofs.Grammar
import Clausal.Proofs.Binary64
import Clausal.Proofs.WellFormed
import Clausal.Formula.Contents

/-!
# What derives from the grammar is well formed

By induction on derivations. Infinite floats are the one exception: a numeral that
is too large stands for one, but no numeral stands for an infinity by its text.
-/

namespace Clausal

open Lexeme

/-! ## Infinite floats -/

def Binary64.isInfinite (x : Binary64) : Bool := x.magnitude.val == infinity

theorem Binary64.isFinite_of_not {x : Binary64} (hn : x.isNaN = false) (hi : x.isInfinite = false) :
    x.isFinite = true := by
  simp only [isNaN, isInfinite, isFinite, decide_eq_false_iff_not, beq_eq_false_iff_ne,
    decide_eq_true_eq] at *
  omega

def Constant.isInfinite : Constant → Bool
  | .float x => x.isInfinite
  | _ => false

/-- None of these constants is an infinite float. -/
def NoInfinity (cs : List Constant) : Prop := ∀ c ∈ cs, c.isInfinite = false

instance (cs : List Constant) : Decidable (NoInfinity cs) :=
  inferInstanceAs (Decidable (∀ c ∈ cs, c.isInfinite = false))

theorem noInfinity_union {cs ds : List Constant} :
    NoInfinity (Distinct.union cs ds) ↔ NoInfinity cs ∧ NoInfinity ds := by
  unfold NoInfinity
  simp only [Distinct.mem_union, or_imp, forall_and]

theorem noInfinity_constantsOf {ts : List Term} :
    NoInfinity (constantsOf ts) ↔ ∀ t ∈ ts, NoInfinity t.constants := by
  induction ts with
  | nil => simp [constantsOf, NoInfinity]
  | cons t ts ih => rw [constantsOf, noInfinity_union, ih, List.forall_mem_cons]

/-! ## Tokens -/

theorem quoted_wellFormed {quote : Char} {inner : List Char} {c : Constant}
    (hq : isQuote quote = true) (hi : ∀ d ∈ inner, isInside quote d = true)
    (h : quotedMeaning? (quote :: inner ++ [quote]) inner = some c) : c.WellFormed := by
  unfold quotedMeaning? at h
  cases inner with
  | nil => cases h
  | cons d inner =>
    have hquoted : d.isAlphanum = true → isPlain (d :: inner) = false →
        (Constant.str (String.ofList (quote :: d :: inner ++ [quote]))).WellFormed := by
      intro hd hp
      refine .quoted ?_
      rw [String.toList_ofList]
      exact .mk hq hi hd hp
    simp only at h
    by_cases hu : (d.isUpper || d.isDigit) = true
    · rw [if_pos hu, Option.some.injEq] at h
      subst h
      have hl : d.isLower = false := by
        simp only [Bool.or_eq_true] at hu
        rcases hu with hu | hu
        · exact isLower_eq_false (lead?_of_isUpper hu) (by decide)
        · exact isLower_eq_false (lead?_of_isDigit hu) (by decide)
      refine hquoted ?_ (by simp [isPlain, isLowerName, isName, hl])
      simp only [Bool.or_eq_true] at hu
      rcases hu with hu | hu
      · simp [isAlphanum_iff, hu]
      · simp [isAlphanum_iff, hu]
    · rw [if_neg hu] at h
      by_cases hl : d.isLower = true
      · rw [if_pos hl, Option.some.injEq] at h
        subst h
        by_cases hp : isPlain (d :: inner) = true
        · rw [if_pos hp]
          exact .plain (by rw [String.toList_ofList]; exact hp)
        · rw [if_neg hp]
          exact hquoted (by simp [isAlphanum_iff, hl]) (by simpa using hp)
      · rw [if_neg hl] at h
        cases h

theorem float_wellFormed {x : Binary64} (hn : x.isNaN = false) (hf : NoInfinity [.float x]) :
    (Constant.float x).WellFormed :=
  .float (Binary64.isFinite_of_not hn (hf (.float x) (List.mem_singleton.mpr rfl)))

theorem token_wellFormed {w : List Char} {t : Term} (hw : IsToken w) (hm : meaning? w = some t)
    (hf : NoInfinity t.constants) : t.WellFormed := by
  cases hw with
  | lower hn =>
    rw [meaning?_lower hn, Option.some.injEq] at hm
    subst hm
    cases hb : truthValue? w with
    | some b => exact .const .bool
    | none =>
      refine .const (.plain ?_)
      simp [isPlain, hn, hb]
  | upper hn =>
    rw [meaning?_upper hn, Option.some.injEq] at hm
    subst hm
    exact .var (by rw [String.toList_ofList]; exact hn)
  | @numeral sign whole fraction hs hd hfr =>
    cases hfr with
    | none =>
      rw [List.append_nil, meaning?_whole hs hd, Option.map_eq_some_iff] at hm
      obtain ⟨n, -, hn⟩ := hm
      subst hn
      exact .const .int
    | @point ds hds =>
      rw [meaning?_decimal hs hd hds, Option.some.injEq] at hm
      subst hm
      exact .const (float_wellFormed (Binary64.isNaN_ofDecimal _ _ _) hf)
  | literal hq hi =>
    rw [meaning?_literal hq hi, Option.map_eq_some_iff] at hm
    obtain ⟨c, hc, ht⟩ := hm
    subst ht
    exact .const (quoted_wellFormed hq hi hc)

/-! ## Phrases -/

/-- The terms of a phrase are well formed as far as they hold no infinite float. -/
def AllShaped (ts : List Term) : Prop := ∀ t ∈ ts, NoInfinity t.constants → t.WellFormed

def Phrase.Shaped : Phrase → Prop
  | .term t => NoInfinity t.constants → t.WellFormed
  | .compound f => NoInfinity f.constants → f.WellFormed
  | .arguments ts | .values ts | .list ts => AllShaped ts
  | .group ts | .sequence ts => ts ≠ [] ∧ AllShaped ts

theorem AllShaped.wellFormed {ts : List Term} (h : AllShaped ts)
    (hf : NoInfinity (constantsOf ts)) :
    ∀ t ∈ ts, t.WellFormed :=
  fun t ht => h t ht (noInfinity_constantsOf.mp hf t ht)

theorem AllShaped.append {ts us : List Term} (h : AllShaped ts) (h' : AllShaped us) :
    AllShaped (ts ++ us) := by
  intro t ht
  rcases List.mem_append.mp ht with ht | ht
  · exact h t ht
  · exact h' t ht

/-- **Shape.** Every phrase of a derivation is well formed, infinite floats aside. -/
theorem Derives.shaped {φ : Phrase} {cs rest : List Char} (h : Derives φ cs rest) :
    φ.Shaped := by
  induction h with
  | token _ hw hm => exact token_wellFormed hw.isToken hm
  | compound _ ih => exact ih
  | list _ ih => exact fun hf => .list (ih.wellFormed hf)
  | call _ hn _ ih =>
    intro hf
    obtain ⟨ha, -⟩ := noInfinity_union.mp hf
    exact .call (by rw [String.toList_ofList]; exact hn) (ih.wellFormed ha) (by simp)
  | valued _ hn _ _ iha ihv =>
    intro hf
    obtain ⟨ha, hv⟩ := noInfinity_union.mp hf
    exact .call (by rw [String.toList_ofList]; exact hn) (iha.wellFormed ha) (ihv.wellFormed hv)
  | tuple _ ih =>
    intro hf
    obtain ⟨ha, -⟩ := noInfinity_union.mp hf
    exact .tuple ih.1 (ih.2.wellFormed ha)
  | noArguments _ _ => intro t ht; cases ht
  | arguments _ ih => exact ih.2
  | severalValues _ _ ih => exact ih.2
  | oneValue _ _ _ ih =>
    intro t ht
    rw [List.mem_singleton.mp ht]
    exact ih
  | group _ _ _ ih => exact ih
  | emptyList _ _ => intro t ht; cases ht
  | items _ _ _ ih => exact ih.2
  | barVariable _ _ _ _ hn _ ih =>
    refine ih.2.append fun t ht _ => ?_
    rw [List.mem_singleton.mp ht]
    exact .var (by rw [String.toList_ofList]; exact hn)
  | barList _ _ _ _ _ ih iht => exact ih.2.append iht
  | one _ ih =>
    refine ⟨by simp, fun t ht => ?_⟩
    rw [List.mem_singleton.mp ht]
    exact ih
  | more _ _ _ iht ihs =>
    refine ⟨by simp, fun t ht => ?_⟩
    rcases List.mem_cons.mp ht with ht | ht
    · rw [ht]; exact iht
    · exact ihs.2 t ht

end Clausal
