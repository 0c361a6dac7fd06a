import Clausal.Proofs.Nowhere
import Clausal.Proofs.Period

/-!
# Normalizing again

A normal form is taken apart into the rows it was made of. Nothing is done to a row
but to strip it again and to wrap the bare negations that are left in it, so that a
normal form stays as it is exactly if no row gives cause for either.
-/

namespace Clausal

namespace Sentence

/-! ## Rows -/

/-- A row in which nothing but bare negations is left for the passes. -/
structure IsTidy (row : List Char) : Prop extends IsRow row where
  groups : Nowhere LooseGroup none row

theorem isTidy_tidySegment (cs : List Char) : IsTidy (tidySegment cs) := by
  obtain ⟨opened, hopens, hwraps⟩ := exists_passes (spreadBars (joinLines (strip cs)))
  have hrow := isRow_tidySegment cs
  rw [← tidySegment_eq_wrap] at hwraps
  generalize tidySegment cs = row at hrow hwraps
  exact ⟨hrow, hwraps.nowhere hopens.nowhere⟩

theorem wraps_of_nowhere {cs : List Char} (h : Nowhere LooseGroup none cs) :
    Wraps none cs (wrapNegations cs) := by
  obtain ⟨opened, hopens, hwraps⟩ := exists_passes cs
  rwa [hopens.eq_of_nowhere h] at hwraps

theorem strip_blanks_append {blanks : List Char} (h : AllBlank blanks) (cs : List Char) :
    strip (blanks ++ cs) = strip cs := by
  unfold strip
  rw [Text.trim_blanks_append h]

theorem Strips.count_eq {cs rest : List Char} (h : Strips cs rest) :
    rest.count '(' = cs.count '(' := by
  cases h with
  | @mk lead _ blanks periods trail hlead _ hblanks hperiods htrail _ =>
    simp [count_blanks hlead, count_blanks hblanks, count_blanks htrail, count_periods hperiods]

theorem stops_periods {periods : List Char} (h : ∀ c ∈ periods, c = '.') :
    Stops Text.isBlank periods := by
  intro c hc
  rw [h c (List.mem_of_mem_head? hc)]
  rfl

/-- A row that nothing but periods is stripped off ends in no period, since there are no blanks
behind it. -/
theorem Strips.endsSolid {row periods : List Char} (h : Strips (row ++ periods) row)
    (hp : ∀ c ∈ periods, c = '.') :
    EndsSolid row := by
  generalize hcs : row ++ periods = cs at h
  cases h with
  | @mk lead _ blanks periods' trail hlead hrow hblanks hperiods htrail hlast =>
    refine fun c hc => ⟨solid_of_getLast? hrow.back hc, ?_⟩
    rintro rfl
    obtain ⟨hne, -⟩ := hlast hc
    have hcount := congrArg (List.countP Text.isBlank) hcs
    have hsolid : periods.countP Text.isBlank = 0 := List.countP_eq_zero.mpr fun c hc => by
      rw [hp c hc]; decide
    have hall : blanks.countP Text.isBlank = blanks.length := List.countP_eq_length.mpr hblanks
    have hpos := List.length_pos_iff.mpr hne
    simp only [List.countP_append, hsolid, hall] at hcount
    omega

section
variable {row gap periods : List Char} (h : IsTidy row) (hg : AllBlank gap)
  (hp : ∀ c ∈ periods, c = '.')
include h hp

theorem IsTidy.strip_isPrefix : strip (row ++ periods) <+: row ++ periods := by
  have hfront : Stops Text.isBlank (row ++ periods) := by
    cases row with
    | nil => exact stops_periods hp
    | cons c row => exact stops_cons.mpr (stops_cons.mp h.front)
  have htrim := Sentence.strip_isPrefix (row ++ periods)
  unfold Text.trim Text.trimStart at htrim
  rw [Text.dropWhile_of_stops hfront] at htrim
  exact htrim.trans (Text.trimEnd_isPrefix _)

theorem IsTidy.nowhere_periods : Nowhere LooseGroup none (row ++ periods) := by
  cases periods with
  | nil =>
    rw [List.append_nil]
    exact h.groups
  | cons c periods =>
    have hsignless : ∀ d ∈ periods, d ∉ ['n', '\\'] :=
      fun d hd => hp d (by simp [hd]) ▸ by decide
    refine nowhere_append_mark h.groups (by simp [hp c]) ?_
    rw [← List.append_nil periods]
    exact Nowhere.signless LooseGroup.front hsignless trivial

/-- What is left of a row, when it is stripped again, goes through the second pass alone. -/
theorem IsTidy.wraps_strip :
    Wraps none (strip (row ++ periods)) (tidySegment (row ++ periods)) := by
  have hstart := h.strip_isPrefix hp
  have hmem {c : Char} (hc : c ∉ row) (hperiod : c ≠ '.') : c ∉ strip (row ++ periods) := by
    intro hmem
    rcases List.mem_append.mp (hstart.subset hmem) with hmem | hmem
    · exact hc hmem
    · exact hperiod (hp c hmem)
  have hnowhere := nowhere_of_isPrefix hstart (h.nowhere_periods hp)
  rw [tidySegment_eq_wrap]
  generalize strip (row ++ periods) = left at hmem hnowhere
  have hjoin : joinLines left = left := joinLinesAfter_of_line (by simp) (hmem h.line (by decide))
  have hspread : spreadBars left = left := spreadBarsAfter_of_no_bar (hmem h.bar (by decide)) []
  rw [hjoin, hspread]
  exact wraps_of_nowhere hnowhere

include hg

/-- A row stays as it is exactly if nothing is stripped off it and no bare negation is left in
it. -/
theorem IsTidy.tidySegment_eq_iff : tidySegment (gap ++ (row ++ periods)) = row ↔
    EndsSolid row ∧ Nowhere BareNegation none row := by
  have htidy : tidySegment (gap ++ (row ++ periods)) = tidySegment (row ++ periods) := by
    rw [tidySegment_eq_wrap, strip_blanks_append hg]
    rfl
  have hwraps := h.wraps_strip hp
  rw [htidy]
  constructor
  · intro he
    rw [he] at hwraps
    have hstrips := strips_strip (row ++ periods)
    rcases hwraps.eq_or_more with ⟨hrow, hbare⟩ | hlt
    · rw [← hrow] at hstrips hbare
      exact ⟨hstrips.endsSolid hp, hbare⟩
    · -- no parentheses go with what is stripped off, so that none may be added
      have hcount := hstrips.count_eq
      rw [List.count_append, count_periods hp] at hcount
      omega
  · rintro ⟨hends, hbare⟩
    have hback : Stops Text.isBlank row.reverse :=
      fun c hc => (hends c (by rwa [List.head?_reverse] at hc)).1
    have hstrips : Strips ([] ++ (row ++ ([] ++ (periods ++ [])))) row :=
      .mk allBlank_nil ⟨h.front, hback⟩ allBlank_nil hp allBlank_nil fun hlast =>
        absurd rfl (hends '.' hlast).2
    have hstrip : strip (row ++ periods) = row := by simpa using hstrips.strip_eq
    rw [hstrip] at hwraps
    exact hwraps.eq_of_nowhere hbare

end

/-! ## Segments -/

theorem isBlank_of_isLineBlank {c : Char} (h : isLineBlank c = true) : Text.isBlank c = true := by
  simp only [isLineBlank, Bool.or_eq_true, beq_iff_eq] at h
  rcases h with h | h
  all_goals subst h; rfl

/-- A comma ends no line if something else than a blank comes before the next line feed. -/
theorem breakLength?_eq_none {w rest : List Char} (hw : '\n' ∉ w) (hr : Stops Text.isBlank rest) :
    breakLength? (',' :: (w ++ rest)) = none := by
  have hrest {c : Char} (hc : Text.isBlank c = true) (t : List Char) : rest ≠ c :: t := by
    rintro rfl
    rw [stops_cons.mp hr] at hc
    cases hc
  have hline : Stops isLineBlank rest := fun c hc => Bool.eq_false_iff.mpr fun hblank => by
    have hsolid := hr c hc
    rw [isBlank_of_isLineBlank hblank] at hsolid
    cases hsolid
  have hnone (t : List Char) : (w ++ rest).dropWhile isLineBlank ≠ '\n' :: t ∧
      (w ++ rest).dropWhile isLineBlank ≠ '\r' :: '\n' :: t := by
    have hfeed : '\n' ∉ w.dropWhile isLineBlank :=
      fun hc => hw ((List.dropWhile_suffix _).subset hc)
    rw [List.dropWhile_append, Text.dropWhile_of_stops hline]
    cases hdrop : w.dropWhile isLineBlank with
    | nil => exact ⟨hrest rfl t, hrest rfl _⟩
    | cons c v =>
      rw [hdrop, List.mem_cons, not_or] at hfeed
      refine ⟨fun he => hfeed.1 (List.cons.inj he).1.symm, fun he => ?_⟩
      have hv : v ++ rest = '\n' :: t := (List.cons.inj he).2
      cases v with
      | nil => exact hrest rfl t hv
      | cons d v => exact hfeed.2 (by simp [(List.cons.inj hv).1])
  simp only [breakLength?]
  split
  · rename_i he
    exact absurd he (hnone _).1
  · rename_i he
    exact absurd he (hnone _).2
  · rfl

theorem segments_append {w rest : List Char} (hw : '\n' ∉ w) (hr : Stops Text.isBlank rest) :
    segments (w ++ rest) = (segments rest).modifyHead (w ++ ·) := by
  induction w with
  | nil =>
    show segments rest = (segments rest).modifyHead id
    rw [List.modifyHead_id]
    rfl
  | cons c w ih =>
    simp only [List.mem_cons, not_or] at hw
    have hbreak : breakLength? (c :: (w ++ rest)) = none := by
      by_cases hc : c = ','
      · rw [hc]
        exact breakLength?_eq_none hw.2 hr
      · rw [breakLength?.eq_2]
        exact fun _ he => hc (List.cons.inj he).1
    rw [List.cons_append, segments_cons hbreak, ih hw.2, List.modifyHead_modifyHead]
    rfl

theorem segments_periods {periods : List Char} (hp : ∀ c ∈ periods, c = '.') :
    segments periods = [periods] :=
  segments_last (w := []) (oneSegment_of_no_comma (by simp)) hp

section
variable {gap row rest periods : List Char} (hg : AllBlank gap) (hrow : '\n' ∉ row)
include hg hrow

theorem segments_row (hr : Stops Text.isBlank rest) :
    segments (gap ++ (row ++ rest)) = (segments rest).modifyHead (gap ++ row ++ ·) := by
  rw [oneSegment_of_blanks hg, segments_append hrow hr, List.modifyHead_modifyHead]
  congr 1
  funext x
  simp

theorem segments_last_row (hp : ∀ c ∈ periods, c = '.') :
    segments (gap ++ (row ++ periods)) = [gap ++ (row ++ periods)] := by
  rw [segments_row hg hrow (stops_periods hp), segments_periods hp]
  simp

theorem segments_cons_row (rest : List Char) :
    segments (gap ++ (row ++ ',' :: '\n' :: '\t' :: rest)) =
      (gap ++ row) :: segments (['\t'] ++ rest) := by
  have hbreak :=
    segments_lineEnd (.feed (by simp : ∀ c ∈ [], isLineBlank c = true)) ('\t' :: rest)
  have hmark : Stops Text.isBlank (',' :: '\n' :: '\t' :: rest) := stops_cons.mpr rfl
  rw [segments_row hg hrow hmark]
  rw [List.nil_append, List.cons_append, List.cons_append, List.nil_append] at hbreak
  rw [hbreak]
  simp

end

/-- The segments of a text of rows, with a gap in front of each and periods behind the last. -/
def laid (periods : List Char) :
    (gap : List Char) → (rows : List (List Char)) → List (List Char)
  | _, [] => []
  | gap, [row] => [gap ++ (row ++ periods)]
  | gap, row :: next :: rows => (gap ++ row) :: laid periods ['\t'] (next :: rows)

theorem allBlank_tab : AllBlank ['\t'] := fun _ hc => List.mem_singleton.mp hc ▸ rfl

section
variable {periods gap : List Char} {rows : List (List Char)} (hg : AllBlank gap)

theorem length_laid : (laid periods gap rows).length = rows.length := by
  induction rows generalizing gap with
  | nil => rfl
  | cons row rows ih =>
    cases rows with
    | nil => rfl
    | cons next rows => simp [laid, ih]

include hg

theorem segments_laid (hp : ∀ c ∈ periods, c = '.') (hne : rows ≠ [])
    (hrows : ∀ row ∈ rows, '\n' ∉ row) :
    segments (gap ++ ((separator true).intercalate rows ++ periods)) = laid periods gap rows := by
  induction rows generalizing gap with
  | nil => exact absurd rfl hne
  | cons row rows ih =>
    have hline := hrows row (by simp)
    cases rows with
    | nil =>
      rw [List.intercalate_singleton, segments_last_row hg hline hp]
      rfl
    | cons next rows =>
      have hlater := ih allBlank_tab (by simp) fun r hr => hrows r (by simp [hr])
      have hall : (separator true).intercalate (row :: next :: rows) ++ periods =
          row ++ ',' :: '\n' :: '\t' ::
            ((separator true).intercalate (next :: rows) ++ periods) := by
        rw [List.intercalate_cons_cons]
        simp [separator]
      rw [hall, segments_cons_row hg hline, hlater]
      rfl

theorem map_laid_iff {f : List Char → List Char} {fixed : List Char → Prop}
    (hf : ∀ row ∈ rows, ∀ gap, AllBlank gap →
      (f (gap ++ row) = row ↔ fixed row) ∧ (f (gap ++ (row ++ periods)) = row ↔ fixed row)) :
    (laid periods gap rows).map f = rows ↔ ∀ row ∈ rows, fixed row := by
  induction rows generalizing gap with
  | nil => simp [laid]
  | cons row rows ih =>
    obtain ⟨hmore, hlast⟩ := hf row (by simp) gap hg
    cases rows with
    | nil => simpa [laid] using hlast
    | cons next rows =>
      rw [laid, List.map_cons, List.cons.injEq, hmore,
        ih allBlank_tab fun r hr => hf r (by simp [hr])]
      exact List.forall_mem_cons.symm

end

/-! ## Bodies -/

theorem IsTidy.join {row rest : List Char} (h : IsTidy row) (hr : IsTidy rest) :
    IsTidy (row ++ ',' :: ' ' :: rest) := by
  constructor
  · constructor
    · cases row with
      | nil => exact stops_cons.mpr rfl
      | cons c row => exact stops_cons.mpr (stops_cons.mp h.front)
    · simp [h.line, hr.line]
    · simp [h.bar, hr.bar]
  · have hrest : Nowhere LooseGroup (some ' ') rest :=
      hr.groups.congr fun hloose => hloose.congr fun _ _ => rfl
    exact nowhere_append_mark h.groups (by simp)
      ⟨fun hloose => absurd hloose.front (by decide), hrest⟩

theorem isTidy_intercalate {rows : List (List Char)} (h : ∀ row ∈ rows, IsTidy row) :
    IsTidy ((separator false).intercalate rows) := by
  induction rows with
  | nil => exact isTidy_tidySegment []
  | cons row rows ih =>
    have hrow := h row (by simp)
    have hlater := ih fun r hr => h r (by simp [hr])
    cases rows with
    | nil => simpa using hrow
    | cons next rows =>
      rw [List.intercalate_cons_cons]
      simpa [separator] using hrow.join hlater

/-- A body is a text of rows. On one line it is a row as a whole. -/
theorem exists_rows (multiline : Bool) (cs : List Char) :
    ∃ rows, rows ≠ [] ∧ (∀ row ∈ rows, IsTidy row) ∧
    tidyBody multiline cs = (separator true).intercalate rows ∧
    (rows = [tidyBody multiline cs] ∨ multiline = true ∧ ∀ row ∈ rows, row ≠ []) := by
  have htidy : ∀ row ∈ ((segments cs).map tidySegment).filter (· ≠ []),
      IsTidy row ∧ row ≠ [] := by
    intro row hrow
    obtain ⟨hmem, hne⟩ := List.mem_filter.mp hrow
    obtain ⟨s, -, rfl⟩ := List.mem_map.mp hmem
    exact ⟨isTidy_tidySegment s, by simpa using hne⟩
  unfold tidyBody
  generalize ((segments cs).map tidySegment).filter (· ≠ []) = rows at htidy
  cases multiline with
  | false =>
    refine ⟨[(separator false).intercalate rows], by simp, fun row hrow => ?_,
      by simp, .inl rfl⟩
    rw [List.mem_singleton.mp hrow]
    exact isTidy_intercalate fun r hr => (htidy r hr).1
  | true =>
    by_cases hne : rows = []
    · subst hne
      exact ⟨[[]], by simp, fun row hrow => List.mem_singleton.mp hrow ▸ isTidy_tidySegment [],
        rfl, .inl rfl⟩
    · exact ⟨rows, hne, fun r hr => (htidy r hr).1, rfl,
        .inr ⟨rfl, fun r hr => (htidy r hr).2⟩⟩

section
variable {rows : List (List Char)} (hne : rows ≠ []) (htidy : ∀ row ∈ rows, IsTidy row)
  {gap : List Char} (hg : AllBlank gap)
include hne htidy hg

/-- Rows are read back from the text they make up. -/
theorem map_trimStart_segments :
    (segments (gap ++ (separator true).intercalate rows)).map Text.trimStart = rows := by
  have hlaid :=
    segments_laid hg (by simp : ∀ c ∈ [], c = '.') hne fun row hrow => (htidy row hrow).line
  have hfixed {row : List Char} (hrow : row ∈ rows) {gap : List Char} (hg : AllBlank gap) :
      Text.trimStart (gap ++ row) = row := by
    unfold Text.trimStart
    rw [List.dropWhile_append_of_pos hg, Text.dropWhile_of_stops (htidy row hrow).front]
  rw [List.append_nil] at hlaid
  rw [hlaid]
  have hiff : (laid [] gap rows).map Text.trimStart = rows ↔ ∀ row ∈ rows, True :=
    map_laid_iff hg fun row hrow gap hg => by
      rw [List.append_nil]
      exact ⟨iff_of_true (hfixed hrow hg) trivial, iff_of_true (hfixed hrow hg) trivial⟩
  exact hiff.mpr fun _ _ => trivial

omit hg in
theorem intercalate_filter_iff (hsolid : ∀ row ∈ rows, row ≠ []) {tidied : List (List Char)}
    (ht : ∀ row ∈ tidied, IsTidy row) (hlength : tidied.length = rows.length) :
    (separator true).intercalate (tidied.filter (· ≠ [])) = (separator true).intercalate rows ↔
      tidied = rows := by
  constructor
  · -- both lists are read back from the text, and as many rows as before leave none out
    intro he
    have hrows := map_trimStart_segments hne htidy allBlank_nil
    by_cases hnil : tidied.filter (· ≠ []) = []
    · rw [← he, hnil] at hrows
      exact absurd rfl (hsolid [] (hrows ▸ List.mem_singleton.mpr rfl))
    · have hfilter : tidied.filter (· ≠ []) = rows := by
        have htidied := map_trimStart_segments hnil
          (fun row hrow => ht row (List.mem_filter.mp hrow).1) allBlank_nil
        rwa [he, hrows, eq_comm] at htidied
      have hall :=
        List.length_filter_eq_length_iff.mp ((congrArg List.length hfilter).trans hlength.symm)
      rw [← hfilter, List.filter_eq_self.mpr hall]
  · rintro rfl
    rw [List.filter_eq_self.mpr fun row hrow => by simpa using hsolid row hrow]

end

theorem tidyBody_of_one (multiline : Bool) {cs s : List Char} (h : segments cs = [s]) :
    tidyBody multiline cs = tidySegment s := by
  unfold tidyBody
  rw [h, List.map_singleton]
  by_cases hs : tidySegment s = []
  · rw [hs]
    rfl
  · rw [List.filter_cons_of_pos (by simpa using hs)]
    simp

/-- A body stays as it is exactly if its rows do. -/
theorem tidyBody_again (multiline : Bool) (cs : List Char) {gap : List Char} (hg : AllBlank gap) :
    tidyBody multiline (gap ++ (tidyBody multiline cs ++ ['.'])) = tidyBody multiline cs ↔
      ∀ row ∈ (segments (gap ++ tidyBody multiline cs)).map Text.trimStart, EndsSolid row ∧
      Nowhere BareNegation none row := by
  obtain ⟨rows, hne, htidy, hbody, hshape⟩ := exists_rows multiline cs
  have hperiod : ∀ c ∈ ['.'], c = '.' := by simp
  have hlaid := segments_laid hg hperiod hne fun row hrow => (htidy row hrow).line
  have hfixed : (laid ['.'] gap rows).map tidySegment = rows ↔
      ∀ row ∈ rows, EndsSolid row ∧ Nowhere BareNegation none row :=
    map_laid_iff hg fun row hrow gap hg =>
      ⟨by simpa using (htidy row hrow).tidySegment_eq_iff hg (by simp : ∀ c ∈ [], c = '.'),
        (htidy row hrow).tidySegment_eq_iff hg hperiod⟩
  have hrows := map_trimStart_segments hne htidy hg
  rw [← hbody] at hlaid hrows
  rw [hrows, ← hfixed]
  rcases hshape with he | ⟨rfl, hsolid⟩
  · rw [he] at hlaid
    rw [tidyBody_of_one multiline hlaid, he]
    simp [laid]
  · have hagain : tidyBody true (gap ++ (tidyBody true cs ++ ['.'])) =
        (separator true).intercalate
        (((laid ['.'] gap rows).map tidySegment).filter (· ≠ [])) := by
      rw [← hlaid]
      rfl
    rw [hagain, hbody]
    refine intercalate_filter_iff hne htidy hsolid (fun row hrow => ?_)
      (by rw [List.length_map, length_laid])
    obtain ⟨s, -, rfl⟩ := List.mem_map.mp hrow
    exact isTidy_tidySegment s

/-! ## Sentences -/

theorem Normalizes.unique {multiline : Bool} {cs out out' : List Char}
    (h : Normalizes multiline cs out) (h' : Normalizes multiline cs out') : out = out' := by
  have hsome := (normalChars?_of_normalizes h).symm.trans (normalChars?_of_normalizes h')
  exact Option.some.inj hsome

theorem Normalizes.same_iff {multiline : Bool} {lead body again : List Char}
    (h : Normalizes multiline (lead ++ body ++ ['.']) (lead ++ again ++ ['.'])) :
    Normalizes multiline (lead ++ body ++ ['.']) (lead ++ body ++ ['.']) ↔ again = body := by
  constructor
  · intro hsame
    have he := h.unique hsame
    exact List.append_cancel_left (List.append_cancel_right he)
  · rintro rfl
    exact h

/-- The body of a normal form is that of the text, behind a gap. Nothing else may change when it is
normalized again. -/
theorem Normalizes.again {multiline : Bool} {cs out : List Char} (h : Normalizes multiline cs out) :
    ∃ gap, AllBlank gap ∧
    bodyOf out = gap ++ (tidyBody multiline (bodyOf cs) ++ ['.']) ∧
    (Normalizes multiline out out ↔
      tidyBody multiline (bodyOf out) = tidyBody multiline (bodyOf cs)) := by
  cases h with
  | body hb =>
    have hout : Neckless (tidyBody multiline cs ++ ['.']) :=
      neckless_normal_body multiline hb allBlank_nil
    rw [bodyOf_of_neckless hb, bodyOf_of_neckless hout]
    have hagain : Normalizes multiline ([] ++ tidyBody multiline cs ++ ['.'])
        ([] ++ tidyBody multiline _ ++ ['.']) := .body hout
    exact ⟨[], allBlank_nil, rfl, hagain.same_iff⟩
  | @headed head body hh hb =>
    obtain ⟨front, gap, he, hgap, hfront⟩ := headed_eq multiline (Text.trim head)
    have hrest := neckless_normal_body multiline hb hgap
    have hneckless := neckless_front (hh.of_isInfix (Text.trim_isInfix head)) hfront
    have hout : Sentence.headed multiline (Text.trim head) ++ tidyBody multiline body ++ ['.'] =
        front ++ ':' :: '-' :: (gap ++ (tidyBody multiline body ++ ['.'])) := by simp [he]
    have hagain : Normalizes multiline _ _ := .headed hneckless hrest
    rw [← hout, trim_front hfront] at hagain
    rw [bodyOf_divided hh hb, hout, bodyOf_divided hneckless hrest, ← hout]
    exact ⟨gap, hgap, rfl, hagain.same_iff⟩

/-- The rows of a normal form. -/
def rowsOf (cs : List Char) : List (List Char) := (segments (bodyOf cs).dropLast).map Text.trimStart

end Sentence

open Sentence

/-- **Normalizing again.** A normal form stays as it is exactly if each of its rows ends in neither
a blank nor a period and no bare negation is left in any. -/
theorem normalize_again {multiline : Bool} {text u : String}
    (h : normalize multiline text = .ok u) :
    normalize multiline u = .ok u ↔
      ∀ row ∈ rowsOf u.toList, EndsSolid row ∧ Nowhere BareNegation none row := by
  obtain ⟨gap, hgap, hbody, hagain⟩ := (normalize_eq_ok.mp h).again
  have hrows : rowsOf u.toList =
      (segments (gap ++ tidyBody multiline (bodyOf text.toList))).map Text.trimStart := by
    unfold rowsOf
    rw [hbody, ← List.append_assoc, List.dropLast_concat]
  rw [normalize_eq_ok, hagain, hbody, hrows]
  exact tidyBody_again multiline _ hgap

theorem normalize_again_of_sample :
    normalize true "p :- not q(not),\n[X|Y] = Z. " = .ok "p :-\n\tnot(q(not)),\n\t[X, Y] = Z." ∧
    (∀ row ∈ rowsOf "p :-\n\tnot(q(not)),\n\t[X, Y] = Z.".toList,
      EndsSolid row ∧ Nowhere BareNegation none row) ∧
    normalize false "\\+ \\+ a" = .ok "not(\\+ a)." ∧
    ¬ ∀ row ∈ rowsOf "not(\\+ a).".toList,
      EndsSolid row ∧ Nowhere BareNegation none row := by
  have hkept : normalize true "p :- not q(not),\n[X|Y] = Z. " =
      .ok "p :-\n\tnot(q(not)),\n\t[X, Y] = Z." := by cbv
  have hleft : normalize false "\\+ \\+ a" = .ok "not(\\+ a)." := by cbv
  have hagain : normalize false "not(\\+ a)." = .ok "not(not(a))." := by cbv
  refine ⟨hkept, (normalize_again hkept).mp (by cbv), hleft, fun hrows => ?_⟩
  have hsame := (normalize_again hleft).mpr hrows
  rw [hagain, Except.ok.injEq] at hsame
  revert hsame
  decide

/-- A period that is left in front of the last one goes when the text is normalized again. -/
theorem normalize_again_of_two_periods :
    ¬ ∀ (multiline : Bool) (text u : String), normalize multiline text = .ok u →
    normalize multiline u = .ok u := by
  intro h
  have hsame := h false "a. ." "a.." (by cbv)
  have hagain : normalize false "a.." = .ok "a." := by cbv
  rw [hagain, Except.ok.injEq] at hsame
  revert hsame
  decide

end Clausal
