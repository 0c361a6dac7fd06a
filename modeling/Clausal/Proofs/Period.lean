import Clausal.Proofs.Neck

/-!
# The period of a normal form

A normal form ends in the period that is put behind its body. In front of it stands
another one only if the last segment that is not empty was left with one, which is so
if there are periods with blanks between them at its end.
-/

namespace Clausal

namespace Sentence

/-- What stands behind the neck, if there is one. -/
def bodyOf (cs : List Char) : List Char := (neckParts cs).getLastD []

theorem bodyOf_of_neckless {cs : List Char} (h : Neckless cs) : bodyOf cs = cs := by
  unfold bodyOf
  rw [neckParts_whole h]
  rfl

theorem bodyOf_divided {head body : List Char} (hh : Neckless head) (hb : Neckless body) :
    bodyOf (head ++ ':' :: '-' :: body) = body := by
  unfold bodyOf
  rw [neckParts_divided hh, neckParts_whole hb]
  rfl

/-- Periods, blanks and again periods stand at the end. -/
def EndsTwice (cs : List Char) : Prop :=
  ∃ w blanks periods trail, cs = w ++ '.' :: (blanks ++ (periods ++ trail)) ∧
  blanks ≠ [] ∧ AllBlank blanks ∧ periods ≠ [] ∧ (∀ c ∈ periods, c = '.') ∧
  AllBlank trail

/-- The last segment of which something is left. -/
structure IsClosing (cs s : List Char) : Prop where
  left : strip s ≠ []
  last : ∃ front rest, segments cs = front ++ s :: rest ∧ ∀ r ∈ rest, strip r = []

/-! ## Segments that end twice -/

theorem trimmed_concat_of_stops {w : List Char} {c : Char} (hw : Stops Text.isBlank w)
    (hc : Text.isBlank c = false) :
    Text.Trimmed (w ++ [c]) := by
  refine ⟨?_, by rw [List.reverse_concat]; exact stops_cons.mpr hc⟩
  cases w with
  | nil => exact stops_cons.mpr hc
  | cons d w => exact stops_cons.mpr (stops_cons.mp hw)

theorem strip_endsTwice {cs : List Char} : (strip cs).getLast? = some '.' ↔ EndsTwice cs := by
  constructor
  · intro h
    have hstrips := strips_strip cs
    obtain ⟨w, he⟩ := List.getLast?_eq_some_iff.mp h
    rw [he] at hstrips h
    cases hstrips with
    | @mk lead _ blanks periods trail _ _ hblanks hperiods htrail hlast =>
      obtain ⟨hb, hp⟩ := hlast h
      exact ⟨lead ++ w, blanks, periods, trail, by simp, hb, hblanks, hp, hperiods, htrail⟩
  · rintro ⟨w, blanks, periods, trail, rfl, hb, hblanks, hp, hperiods, htrail⟩
    obtain ⟨lead, w, rfl, hlead, hw⟩ := exists_blanks w
    have hstrips := Strips.mk hlead (trimmed_concat_of_stops hw rfl : Text.Trimmed (w ++ ['.']))
      hblanks hperiods htrail
      fun _ => ⟨hb, hp⟩
    have hall : lead ++ (w ++ ['.'] ++ (blanks ++ (periods ++ trail))) =
        lead ++ w ++ '.' :: (blanks ++ (periods ++ trail)) := by
      simp
    rw [← hall, hstrips.strip_eq, List.getLast?_concat]

/-! ## The end of a body -/

theorem exists_closing (cs : List Char) :
    (∀ s ∈ segments cs, strip s = []) ∨ ∃ s, IsClosing cs s := by
  have hsplit (all : List (List Char)) : (∀ s ∈ all, strip s = []) ∨
      ∃ s, strip s ≠ [] ∧ ∃ front rest, all = front ++ s :: rest ∧
        ∀ r ∈ rest, strip r = [] := by
    induction all with
    | nil => exact .inl (by simp)
    | cons s all ih =>
      rcases ih with hnone | ⟨t, ht, front, rest, rfl, hrest⟩
      · by_cases hs : strip s = []
        · exact .inl (List.forall_mem_cons.mpr ⟨hs, hnone⟩)
        · exact .inr ⟨s, hs, [], all, rfl, hnone⟩
      · exact .inr ⟨t, ht, s :: front, rest, rfl, hrest⟩
  rcases hsplit (segments cs) with h | ⟨s, hs, h⟩
  · exact .inl h
  · exact .inr ⟨s, hs, h⟩

theorem exists_intercalate_concat (sep : List Char) (rows : List (List Char)) (row : List Char) :
    ∃ w, sep.intercalate (rows ++ [row]) = w ++ row := by
  induction rows with
  | nil => exact ⟨[], by simp⟩
  | cons r rows ih =>
    obtain ⟨w, hw⟩ := ih
    obtain ⟨t, ts, he⟩ := List.exists_cons_of_ne_nil (show rows ++ [row] ≠ [] by simp)
    rw [he] at hw
    exact ⟨r ++ sep ++ w, by rw [List.cons_append, he, List.intercalate_cons_cons, hw]; simp⟩

section
variable (multiline : Bool) {cs : List Char}

theorem tidyBody_of_none (h : ∀ s ∈ segments cs, strip s = []) :
    tidyBody multiline cs = [] := by
  have hrows : ((segments cs).map tidySegment).filter (· ≠ []) = [] := by
    rw [List.filter_eq_nil_iff]
    intro row hrow
    obtain ⟨s, hs, rfl⟩ := List.mem_map.mp hrow
    simpa using tidySegment_eq_nil.mpr (h s hs)
  unfold tidyBody
  rw [hrows]
  rfl

/-- A body ends as the row of its closing segment does. -/
theorem IsClosing.getLast?_tidyBody {s : List Char} (h : IsClosing cs s) :
    (tidyBody multiline cs).getLast? = (tidySegment s).getLast? := by
  obtain ⟨front, rest, he, hrest⟩ := h.last
  have hnone : (rest.map tidySegment).filter (· ≠ []) = [] := by
    rw [List.filter_eq_nil_iff]
    intro row hrow
    obtain ⟨s, hs, rfl⟩ := List.mem_map.mp hrow
    simpa using tidySegment_eq_nil.mpr (hrest s hs)
  have hrow : tidySegment s ≠ [] := fun hnil => h.left (tidySegment_eq_nil.mp hnil)
  obtain ⟨w, hw⟩ := exists_intercalate_concat (separator multiline)
    ((front.map tidySegment).filter (· ≠ [])) (tidySegment s)
  unfold tidyBody
  rw [he, List.map_append, List.map_cons, List.filter_append,
    List.filter_cons_of_pos (by simpa using hrow), hnone, hw, List.getLast?_append,
    List.getLast?_eq_some_getLast hrow]
  rfl

end

theorem getLast?_headed (multiline : Bool) (head : List Char) :
    (headed multiline head).getLast? ≠ some '.' := by
  obtain ⟨front, gap, he, hgap, -⟩ := headed_eq multiline head
  have hneck : headed multiline head = front ++ [':', '-'] ++ gap := by rw [he]; simp
  rw [hneck]
  exact getLast?_append_blanks hgap (by simp)

/-- A normal form is a body between what is in front of it and a period. -/
theorem Normalizes.exists_body {multiline : Bool} {cs out : List Char}
    (h : Normalizes multiline cs out) :
    ∃ lead, lead.getLast? ≠ some '.' ∧
    out = lead ++ tidyBody multiline (bodyOf cs) ++ ['.'] := by
  cases h with
  | body hb => exact ⟨[], by simp, by rw [bodyOf_of_neckless hb]; rfl⟩
  | headed hh hb => exact ⟨_, getLast?_headed _ _, by rw [bodyOf_divided hh hb]⟩

end Sentence

open Sentence

/-- **The period.** A normal form ends in a single period unless its text has a closing segment that
ends in periods, blanks and periods. Of these, one period in front of the blanks is left, or the
parenthesis of a negation. -/
theorem normalize_period {multiline : Bool} {text u : String}
    (h : normalize multiline text = .ok u) :
    ∃ v, u.toList = v ++ ['.'] ∧
      (v.getLast? = some '.' → ∃ s, IsClosing (bodyOf text.toList) s ∧ EndsTwice s) ∧
      ∀ s, IsClosing (bodyOf text.toList) s → EndsTwice s →
        v.getLast? = some '.' ∨ v.getLast? = some ')' := by
  obtain ⟨lead, hlead, hu⟩ := (normalize_eq_ok.mp h).exists_body
  refine ⟨_, hu, fun hlast => ?_, fun s hs htwice => ?_⟩
  · rw [List.getLast?_append] at hlast
    rcases exists_closing (bodyOf text.toList) with hnone | ⟨s, hs⟩
    · rw [tidyBody_of_none multiline hnone] at hlast
      exact absurd hlast hlead
    · refine ⟨s, hs, strip_endsTwice.mp ?_⟩
      obtain ⟨c, hc⟩ := Option.ne_none_iff_exists'.mp (mt List.getLast?_eq_none_iff.mp hs.left)
      obtain ⟨w, hw⟩ := List.getLast?_eq_some_iff.mp hc
      rw [hs.getLast?_tidyBody] at hlast
      rcases getLast?_tidySegment hw with hrow | hrow
      · rw [hrow, Option.some_or, Option.some.injEq] at hlast
        split at hlast
        · cases hlast
        · rw [hc, hlast]
      · rw [hrow] at hlast
        cases hlast
  · obtain ⟨w, hw⟩ := List.getLast?_eq_some_iff.mp (strip_endsTwice.mpr htwice)
    rw [List.getLast?_append, hs.getLast?_tidyBody]
    exact (getLast?_tidySegment hw).imp (fun he => by rw [he]; rfl) fun he => by rw [he]; rfl

theorem normalize_period_of_sample :
    normalize true "p :- not q,\nr. . .. \n,\n .." = .ok "p :-\n\tnot(q),\n\tr. .." ∧
    ∃ s, IsClosing (bodyOf "p :- not q,\nr. . .. \n,\n ..".toList) s ∧ EndsTwice s := by
  have hnormal : normalize true "p :- not q,\nr. . .. \n,\n .." =
      .ok "p :-\n\tnot(q),\n\tr. .." := by cbv
  obtain ⟨v, hv, htwice, -⟩ := normalize_period hnormal
  have hfront : v = "p :-\n\tnot(q),\n\tr. .".toList :=
    List.append_cancel_right (hv.symm.trans (by decide))
  exact ⟨hnormal, htwice (by rw [hfront]; decide)⟩

/-- Two runs of periods leave two periods. -/
theorem normalize_ends_in_two_periods :
    ¬ ∀ (multiline : Bool) (text u : String), normalize multiline text = .ok u →
    ∃ v, u.toList = v ++ ['.'] ∧ v.getLast? ≠ some '.' := by
  intro h
  obtain ⟨v, hv, hlast⟩ := h false "a. ." "a.." (by cbv)
  have hfront : v = ['a', '.'] := List.append_cancel_right (hv.symm.trans (by decide))
  exact hlast (by rw [hfront]; rfl)

end Clausal
