import Clausal.Proofs.Token
import Clausal.Text.Blank

/-!
# Trimming

A text is trimmed to what stands between the blanks at its ends. Blanks put there
do not show, and a text without any stays as it is.
-/

namespace Clausal

namespace Text

theorem toNat_of_isNameChar {c : Char} (h : Lexeme.isNameChar c = true) :
    48 ≤ c.toNat ∧ c.toNat ≤ 122 := by
  simp only [Lexeme.isNameChar, Bool.or_eq_true, beq_iff_eq] at h
  rcases h with h | h
  · rw [isAlphanum_iff, isUpper_iff, isLower_iff, Char.isDigit_iff_toNat] at h
    have hzero : '0'.toNat = 48 := rfl
    have hnine : '9'.toNat = 57 := rfl
    omega
  · subst h
    decide

theorem isBlank_of_isNameChar {c : Char} (h : Lexeme.isNameChar c = true) : isBlank c = false := by
  have hrange := toNat_of_isNameChar h
  simp only [isBlank, blankRanges, Ranges.contains, List.any_cons, List.any_nil, Bool.or_false,
    Bool.or_eq_false_iff, Bool.and_eq_false_iff, decide_eq_false_iff_not]
  omega

/-- No blank stands at either end. -/
structure Trimmed (cs : List Char) : Prop where
  front : Stops isBlank cs
  back : Stops isBlank cs.reverse

theorem trimmed_of_no_blank {cs : List Char} (h : ∀ c ∈ cs, isBlank c = false) :
    Trimmed cs := by
  have hstops {ds : List Char} (hd : ∀ c ∈ ds, c ∈ cs) : Stops isBlank ds :=
    fun c hc => h c (hd c (List.mem_of_mem_head? hc))
  exact ⟨hstops fun _ hc => hc, hstops fun _ hc => List.mem_reverse.mp hc⟩

theorem dropWhile_of_stops {inside : Char → Bool} {cs : List Char} (h : Stops inside cs) :
    cs.dropWhile inside = cs :=
  (takeWhile_of_stops (by simp : ∀ c ∈ [], inside c = true) h).2

theorem trimEnd_of_stops {cs : List Char} (h : Stops isBlank cs.reverse) : trimEnd cs = cs := by
  unfold trimEnd
  rw [dropWhile_of_stops h, List.reverse_reverse]

theorem Trimmed.trim_eq {cs : List Char} (h : Trimmed cs) : trim cs = cs := by
  unfold trim trimStart
  rw [dropWhile_of_stops h.front, trimEnd_of_stops h.back]

theorem dropWhile_eq_nil {inside : Char → Bool} {cs : List Char} :
    cs.dropWhile inside = [] ↔ ∀ c ∈ cs, inside c = true := by
  constructor
  · intro h
    have hall : cs.takeWhile inside = cs := by
      rw [← List.append_nil (cs.takeWhile inside), ← h, List.takeWhile_append_dropWhile]
    rw [← hall]
    exact fun c hc => List.all_eq_true.mp List.all_takeWhile c hc
  · intro h
    have hdrop := (takeWhile_of_stops h (stops_nil inside)).2
    rwa [List.append_nil] at hdrop

theorem trimEnd_eq_nil {cs : List Char} : trimEnd cs = [] ↔ ∀ c ∈ cs, isBlank c = true := by
  unfold trimEnd
  rw [List.reverse_eq_nil_iff, dropWhile_eq_nil]
  simp

theorem trimEnd_isPrefix (cs : List Char) : trimEnd cs <+: cs := by
  unfold trimEnd
  rw [← List.reverse_suffix, List.reverse_reverse]
  exact List.dropWhile_suffix _

theorem trim_isInfix (cs : List Char) : trim cs <:+: cs :=
  (trimEnd_isPrefix _).isInfix.trans (List.dropWhile_suffix _).isInfix

theorem trimmed_trim (cs : List Char) : Trimmed (trim cs) where
  front := by
    intro c hc
    obtain ⟨w, hw⟩ := trimEnd_isPrefix (trimStart cs)
    have hfront : (trimEnd (trimStart cs)).head? = some c := hc
    refine stops_dropWhile isBlank cs c ?_
    show (trimStart cs).head? = some c
    rw [← hw, List.head?_append, hfront]
    rfl
  back := by
    unfold trim trimEnd
    rw [List.reverse_reverse]
    exact stops_dropWhile _ _

/-- Of a text that is not blank something is left. -/
theorem trim_eq_nil {cs : List Char} : trim cs = [] ↔ ∀ c ∈ cs, isBlank c = true := by
  unfold trim
  rw [trimEnd_eq_nil]
  constructor
  · intro h
    cases he : trimStart cs with
    | nil => exact dropWhile_eq_nil.mp he
    | cons c w =>
      -- the front of what is left would be no blank
      have hc := stops_dropWhile isBlank cs c (by show c ∈ (trimStart cs).head?; rw [he]; rfl)
      rw [h c (by simp [he])] at hc
      cases hc
  · intro h c hc
    rw [trimStart, dropWhile_eq_nil.mpr h] at hc
    cases hc

section
variable {c : Char} (hc : isBlank c = false) (cs : List Char)
include hc

theorem trimEnd_cons : trimEnd (c :: cs) = c :: trimEnd cs := by
  unfold trimEnd
  rw [List.reverse_cons, List.dropWhile_append]
  split
  · rename_i hall
    rw [List.isEmpty_iff.mp hall]
    simp [hc]
  · simp

theorem trim_cons : trim (c :: cs) = c :: trimEnd cs := by
  unfold trim trimStart
  rw [dropWhile_of_stops (stops_cons.mpr hc), trimEnd_cons hc]

theorem trim_concat : trim (cs ++ [c]) = trimStart cs ++ [c] := by
  have hstart : trimStart (cs ++ [c]) = trimStart cs ++ [c] := by
    unfold trimStart
    rw [List.dropWhile_append]
    split
    · rename_i hall
      rw [List.isEmpty_iff.mp hall]
      simp [hc]
    · rfl
  unfold trim
  rw [hstart, trimEnd_of_stops]
  rw [List.reverse_concat]
  exact stops_cons.mpr hc

end

section
variable {blanks : List Char} (hb : ∀ c ∈ blanks, isBlank c = true) (cs : List Char)
include hb

theorem trim_blanks_append : trim (blanks ++ cs) = trim cs := by
  unfold trim trimStart
  rw [List.dropWhile_append_of_pos hb]

theorem trimEnd_append_blanks : trimEnd (cs ++ blanks) = trimEnd cs := by
  have hrev : ∀ c ∈ blanks.reverse, isBlank c = true :=
    fun c hc => hb c (List.mem_reverse.mp hc)
  unfold trimEnd
  rw [List.reverse_append, List.dropWhile_append_of_pos hrev]

theorem trim_append_blanks : trim (cs ++ blanks) = trim cs := by
  unfold trim trimStart
  rw [List.dropWhile_append]
  by_cases hall : (cs.dropWhile isBlank).isEmpty = true
  · -- there is nothing but blanks
    have hblank : blanks.dropWhile isBlank = [] := by
      simpa using (takeWhile_of_stops hb (stops_nil isBlank)).2
    rw [if_pos hall, hblank, List.isEmpty_iff.mp hall]
  · rw [if_neg hall, trimEnd_append_blanks hb]

end

end Text

end Clausal
