import Clausal.Proofs.Signs

/-!
# Rows of a normal form

A segment is stripped of the blanks around it, of the periods at its end and of the
blanks in front of those, in this order and once. What the passes make of the rest is
a row: it begins with no blank, holds no line feed and no bar, and ends as the rest
does, but for a bar and for the parenthesis of a negation.
-/

namespace Clausal

namespace Sentence

/-! ## Stripping -/

/-- What is left of a segment for the passes. -/
def strip (cs : List Char) : List Char := Text.trimEnd (dropPeriods (Text.trim cs))

/-- A segment and what is left of it. If that ends in a period, blanks and further periods stood
behind it. -/
inductive Strips : List Char → List Char → Prop
  | mk {lead rest blanks periods trail : List Char} : AllBlank lead → Text.Trimmed rest →
      AllBlank blanks →
      (∀ c ∈ periods, c = '.') → AllBlank trail →
      (rest.getLast? = some '.' → blanks ≠ [] ∧ periods ≠ []) →
      Strips (lead ++ (rest ++ (blanks ++ (periods ++ trail)))) rest

theorem exists_dropped (inside : Char → Bool) (cs : List Char) :
    ∃ tail, (∀ c ∈ tail, inside c = true) ∧
    cs = (cs.reverse.dropWhile inside).reverse ++ tail := by
  refine ⟨(cs.reverse.takeWhile inside).reverse, fun c hc => ?_, ?_⟩
  · exact List.all_eq_true.mp List.all_takeWhile c (List.mem_reverse.mp hc)
  · rw [← List.reverse_append, List.takeWhile_append_dropWhile, List.reverse_reverse]

theorem dropPeriods_isPrefix (cs : List Char) : dropPeriods cs <+: cs := by
  unfold dropPeriods
  rw [← List.reverse_suffix, List.reverse_reverse]
  exact List.dropWhile_suffix _

theorem getLast?_dropPeriods (cs : List Char) : (dropPeriods cs).getLast? ≠ some '.' := by
  intro h
  unfold dropPeriods at h
  rw [List.getLast?_reverse] at h
  have hstop := stops_dropWhile (· == '.') cs.reverse '.' h
  simp at hstop

theorem stops_of_isPrefix {u v : List Char} (hu : u <+: v) (hv : Stops Text.isBlank v) :
    Stops Text.isBlank u := by
  obtain ⟨t, rfl⟩ := hu
  intro c hc
  refine hv c ?_
  rw [List.head?_append, Option.mem_def.mp hc]
  rfl

theorem solid_of_getLast? {cs : List Char} (h : Stops Text.isBlank cs.reverse) {c : Char}
    (hc : cs.getLast? = some c) :
    Text.isBlank c = false := h c (by rw [List.head?_reverse]; exact hc)

theorem strip_isPrefix (cs : List Char) : strip cs <+: Text.trim cs :=
  (Text.trimEnd_isPrefix _).trans (dropPeriods_isPrefix _)

theorem trimmed_strip (cs : List Char) : Text.Trimmed (strip cs) where
  front := stops_of_isPrefix (strip_isPrefix cs) (Text.trimmed_trim cs).front
  back := by
    unfold strip Text.trimEnd
    rw [List.reverse_reverse]
    exact stops_dropWhile _ _

theorem strips_strip (cs : List Char) : Strips cs (strip cs) := by
  obtain ⟨trail, htrail, hcs⟩ := exists_dropped Text.isBlank (Text.trimStart cs)
  obtain ⟨periods, hperiods, htrim⟩ := exists_dropped (· == '.') (Text.trim cs)
  obtain ⟨blanks, hblanks, hdrop⟩ := exists_dropped Text.isBlank (dropPeriods (Text.trim cs))
  have htrim : Text.trim cs = dropPeriods (Text.trim cs) ++ periods := htrim
  have hdrop : dropPeriods (Text.trim cs) = strip cs ++ blanks := hdrop
  have hall : cs = cs.takeWhile Text.isBlank ++ (strip cs ++ (blanks ++ (periods ++ trail))) :=
    calc cs = cs.takeWhile Text.isBlank ++ Text.trimStart cs := List.takeWhile_append_dropWhile.symm
      _ = cs.takeWhile Text.isBlank ++ (Text.trim cs ++ trail) := congrArg _ hcs
      _ = cs.takeWhile Text.isBlank ++ (strip cs ++ blanks ++ periods ++ trail) := by
        rw [← hdrop, ← htrim]
      _ = _ := by simp
  have hlead : AllBlank (cs.takeWhile Text.isBlank) :=
    fun c hc => List.all_eq_true.mp List.all_takeWhile c hc
  have hstrips :=
    Strips.mk hlead (trimmed_strip cs) hblanks (fun c hc => by simpa using hperiods c hc) htrail ?_
  · rwa [← hall] at hstrips
  · intro hlast
    have hne : blanks ≠ [] := by
      intro he
      rw [he, List.append_nil] at hdrop
      exact getLast?_dropPeriods (Text.trim cs) (by rw [hdrop]; exact hlast)
    refine ⟨hne, fun he => ?_⟩
    -- a trimmed text does not end in the blanks
    rw [he, List.append_nil, hdrop] at htrim
    have hback : (Text.trim cs).getLast? = some (blanks.getLast hne) := by
      rw [htrim, List.getLast?_append, List.getLast?_eq_some_getLast hne]
      rfl
    have hsolid := solid_of_getLast? (Text.trimmed_trim cs).back hback
    rw [hblanks _ (List.getLast_mem hne)] at hsolid
    cases hsolid

theorem getLast?_append_blanks {u blanks : List Char} (hb : AllBlank blanks)
    (hu : u.getLast? = some '.' → blanks ≠ []) :
    (u ++ blanks).getLast? ≠ some '.' := by
  intro h
  rw [List.getLast?_append] at h
  cases hlast : blanks.getLast? with
  | none =>
    rw [hlast] at h
    exact hu h (List.getLast?_eq_none_iff.mp hlast)
  | some c =>
    rw [hlast, Option.some_or] at h
    cases hb '.' (List.mem_of_getLast? (hlast.trans h))

section
variable {rest blanks periods : List Char} (hr : Text.Trimmed rest) (hb : AllBlank blanks)
  (hp : ∀ c ∈ periods, c = '.')
  (hlast : rest.getLast? = some '.' → blanks ≠ [] ∧ periods ≠ [])
include hr hb hp hlast

/-- Trimming leaves the blanks between a text and periods, if there are both. -/
theorem exists_trim_eq :
    ∃ gap, AllBlank gap ∧ Text.trim (rest ++ blanks ++ periods) = rest ++ gap ++ periods ∧
    (rest ++ gap).getLast? ≠ some '.' := by
  by_cases hperiods : periods = []
  · refine ⟨[], allBlank_nil, ?_,
      getLast?_append_blanks allBlank_nil fun h => absurd hperiods (hlast h).2⟩
    rw [hperiods, List.append_nil, Text.trim_append_blanks hb, hr.trim_eq, List.append_nil,
      List.append_nil]
  · by_cases hrest : rest = []
    · have hsolid : ∀ c ∈ periods, Text.isBlank c = false := fun c hc => hp c hc ▸ rfl
      refine ⟨[], allBlank_nil, ?_, by simp [hrest]⟩
      rw [hrest, List.nil_append, Text.trim_blanks_append hb,
        (Text.trimmed_of_no_blank hsolid).trim_eq]
      rfl
    · refine ⟨blanks, hb, Text.Trimmed.trim_eq ⟨?_, fun c hc => ?_⟩,
        getLast?_append_blanks hb fun h => (hlast h).1⟩
      · obtain ⟨c, w, rfl⟩ := List.exists_cons_of_ne_nil hrest
        exact stops_cons.mpr (stops_cons.mp hr.front)
      · rw [List.head?_reverse, List.getLast?_append, List.getLast?_eq_some_getLast hperiods,
          Option.some_or] at hc
        rw [← Option.some.inj hc, hp _ (List.getLast_mem hperiods)]
        rfl

theorem strip_ends : strip (rest ++ blanks ++ periods) = rest := by
  obtain ⟨gap, hgap, htrim, hend⟩ := exists_trim_eq hr hb hp hlast
  unfold strip
  rw [htrim, dropPeriods_append hend hp, Text.trimEnd_append_blanks hgap,
    Text.trimEnd_of_stops hr.back]

end

theorem Strips.strip_eq {cs rest : List Char} (h : Strips cs rest) : strip cs = rest := by
  cases h with
  | @mk lead _ blanks periods trail hlead hrest hblanks hperiods htrail hlast =>
    have htrim : Text.trim (lead ++ (rest ++ (blanks ++ (periods ++ trail)))) =
        Text.trim (rest ++ blanks ++ periods) := by
      rw [Text.trim_blanks_append hlead,
        ← Text.trim_append_blanks htrail (rest ++ blanks ++ periods)]
      simp only [List.append_assoc]
    have hstrip := strip_ends hrest hblanks hperiods hlast
    unfold strip at hstrip ⊢
    rw [htrim, hstrip]

/-! ## Joining lines -/

theorem foldRun_line (run : List Char) : '\n' ∉ foldRun run := by
  unfold foldRun
  split
  · decide
  · rename_i h
    simpa using h

theorem joinLinesAfter_line (run cs : List Char) : '\n' ∉ joinLinesAfter run cs := by
  induction cs generalizing run with
  | nil => exact foldRun_line run
  | cons c cs ih =>
    rw [joinLinesAfter]
    split
    · exact ih _
    · rename_i hc
      simp only [List.mem_append, List.mem_cons, not_or]
      refine ⟨foldRun_line run, ?_, ih _⟩
      rintro rfl
      exact hc rfl

theorem joinLines_line (cs : List Char) : '\n' ∉ joinLines cs := joinLinesAfter_line [] cs

theorem stops_joinLines {cs : List Char} (h : Stops Text.isBlank cs) :
    Stops Text.isBlank (joinLines cs) := by
  cases cs with
  | nil => exact stops_nil _
  | cons c cs =>
    rw [joinLines_cons (stops_cons.mp h)]
    exact stops_cons.mpr (stops_cons.mp h)

theorem joinLinesAfter_concat (run cs : List Char) {c : Char} (hc : Text.isBlank c = false) :
    ∃ w, joinLinesAfter run (cs ++ [c]) = w ++ [c] := by
  induction cs generalizing run with
  | nil =>
    refine ⟨foldRun run, ?_⟩
    rw [List.nil_append, joinLinesAfter, hc]
    rfl
  | cons d cs ih =>
    rw [List.cons_append, joinLinesAfter]
    split
    · exact ih _
    · obtain ⟨w, hw⟩ := ih []
      exact ⟨foldRun run ++ d :: w, by rw [hw]; simp⟩

theorem joinLinesAfter_of_line {run cs : List Char} (hr : '\n' ∉ run) (hc : '\n' ∉ cs) :
    joinLinesAfter run cs = run.reverse ++ cs := by
  have hfold {run : List Char} (h : '\n' ∉ run) : foldRun run = run.reverse :=
    if_neg (by simpa using h)
  induction cs generalizing run with
  | nil => rw [joinLinesAfter, hfold hr, List.append_nil]
  | cons c cs ih =>
    simp only [List.mem_cons, not_or] at hc
    rw [joinLinesAfter]
    split
    · rw [ih (by simp [hr, hc.1]) hc.2]
      simp
    · rw [hfold hr, ih (by simp) hc.2]
      rfl

/-! ## Bars -/

theorem mem_spreadBarsAfter {run : Option (List Char)} {cs : List Char} {c : Char}
    (h : c ∈ spreadBarsAfter run cs) :
    c ∈ run.getD [] ∨ (c ∈ cs ∧ c ≠ '|') ∨ c ∈ [',', ' '] := by
  induction cs generalizing run with
  | nil => exact .inl (List.mem_reverse.mp h)
  | cons d cs ih =>
    rw [spreadBarsAfter] at h
    split at h
    · simp only [List.mem_cons] at h
      rcases h with h | h | h
      · exact .inr (.inr (by simp [h]))
      · exact .inr (.inr (by simp [h]))
      · have := ih h
        grind
    · split at h
      · have hbar : Text.isBlank '|' = false := rfl
        have := ih h
        cases run <;> grind
      · simp only [List.mem_append, List.mem_reverse, List.mem_cons] at h
        rcases h with h | h | h
        · exact .inl h
        · grind
        · have := ih h
          grind

theorem stops_spreadBars {cs : List Char} (h : Stops Text.isBlank cs) :
    Stops Text.isBlank (spreadBars cs) := by
  cases cs with
  | nil => exact stops_nil _
  | cons c cs =>
    unfold spreadBars
    rw [spreadBarsAfter]
    split
    · exact stops_cons.mpr rfl
    · rw [stops_cons.mp h]
      exact stops_cons.mpr (stops_cons.mp h)

theorem spreadBarsAfter_concat (run : Option (List Char)) (cs : List Char) {c : Char}
    (hc : Text.isBlank c = false) :
    ∃ w, spreadBarsAfter run (cs ++ [c]) = w ++ [if c = '|' then ' ' else c] := by
  induction cs generalizing run with
  | nil =>
    rw [List.nil_append, spreadBarsAfter]
    split
    · exact ⟨[','], rfl⟩
    · rw [hc]
      exact ⟨(run.getD []).reverse, rfl⟩
  | cons d cs ih =>
    rw [List.cons_append, spreadBarsAfter]
    split
    · obtain ⟨w, hw⟩ := ih none
      exact ⟨',' :: ' ' :: w, by rw [hw]; rfl⟩
    · split
      · exact ih _
      · obtain ⟨w, hw⟩ := ih (some [])
        exact ⟨(run.getD []).reverse ++ d :: w, by rw [hw]; simp⟩

/-! ## Negations -/

section
variable {before : Option Char} {cs out : List Char}

theorem Opens.mem (h : Opens before cs out) {c : Char} (hc : c ∈ out) :
    c ∈ cs ∨ c ∈ opening := by
  induction h with
  | nil => exact .inl hc
  | other _ _ ih => grind
  | group _ _ _ ih => grind

theorem Opens.stops (h : Opens before cs out) (hs : Stops Text.isBlank cs) :
    Stops Text.isBlank out := by
  cases h with
  | nil => exact hs
  | other _ _ => exact stops_cons.mpr (stops_cons.mp hs)
  | group _ _ _ => exact stops_cons.mpr rfl

theorem Opens.getLast?_eq (h : Opens before cs out) : out.getLast? = cs.getLast? := by
  induction h with
  | nil => rfl
  | other _ _ ih => rw [List.getLast?_cons, List.getLast?_cons, ih]
  | @group _ sign blanks cs out _ _ _ ih =>
    have hfront : opening ++ out = ['n', 'o', 't'] ++ '(' :: out := rfl
    have hend (u v : List Char) : (u ++ '(' :: v).getLast? = some (v.getLast?.getD '(') := by
      rw [List.getLast?_append, List.getLast?_cons, Option.some_or]
    rw [hfront, ← List.append_assoc, hend, hend, ih]

theorem Wraps.mem (h : Wraps before cs out) {c : Char} (hc : c ∈ out) :
    c ∈ cs ∨ c ∈ opening ++ [')'] := by
  induction h with
  | nil => exact .inl hc
  | other _ _ ih => grind
  | kept _ _ _ _ ih => grind
  | @wrapped _ _ _ literal _ _ _ _ _ _ ih =>
    have hstart := (Text.trimEnd_isPrefix literal).subset
    grind

theorem Wraps.stops (h : Wraps before cs out) (hs : Stops Text.isBlank cs) :
    Stops Text.isBlank out := by
  cases h with
  | nil => exact hs
  | other _ _ => exact stops_cons.mpr (stops_cons.mp hs)
  | @kept _ sign _ _ _ hl _ _ _ =>
    rcases hl.negation with he | he
    all_goals subst he; exact stops_cons.mpr rfl
  | wrapped _ _ _ _ => exact stops_cons.mpr rfl

/-- A text ends as before, or with a parenthesis that was put in. -/
theorem Wraps.getLast?_eq (h : Wraps before cs out) :
    out.getLast? = cs.getLast? ∨ out.getLast? = some ')' := by
  have hbehind (u : List Char) {v w : List Char}
      (hv : w.getLast? = v.getLast? ∨ w.getLast? = some ')') :
      (u ++ w).getLast? = (u ++ v).getLast? ∨ (u ++ w).getLast? = some ')' := by
    rw [List.getLast?_append, List.getLast?_append]
    exact hv.imp (fun he => by rw [he]) fun he => by rw [he]; rfl
  induction h with
  | nil => exact .inl rfl
  | @other _ c _ _ _ _ ih => exact hbehind [c] ih
  | kept _ _ _ _ ih => exact hbehind _ (hbehind _ ih)
  | @wrapped _ sign blanks literal cs out _ _ _ _ ih =>
    cases hout : out.getLast? with
    | none => exact .inr (by simp [List.getLast?_cons, hout])
    | some c =>
      rw [hout] at ih
      have hend : (opening ++ (Text.trimEnd literal ++ ')' :: out)).getLast? = some c := by
        simp [List.getLast?_cons, hout]
      rw [hend]
      refine ih.imp (fun he => ?_) id
      rw [List.getLast?_append, List.getLast?_append, List.getLast?_append, ← he]
      rfl

end

/-! ## Rows -/

/-- What a segment may become. -/
structure IsRow (row : List Char) : Prop where
  front : Stops Text.isBlank row
  line : '\n' ∉ row
  bar : '|' ∉ row

theorem exists_passes (cs : List Char) :
    ∃ opened, Opens none cs opened ∧ Wraps none opened (wrapNegations cs) :=
  ⟨_, opens_replaceAfter none cs, wraps_replaceAfter none _⟩

theorem tidySegment_eq_wrap (cs : List Char) :
    tidySegment cs = wrapNegations (spreadBars (joinLines (strip cs))) := rfl

theorem isRow_tidySegment (cs : List Char) : IsRow (tidySegment cs) := by
  have hspread : IsRow (spreadBars (joinLines (strip cs))) := by
    refine ⟨stops_spreadBars (stops_joinLines (trimmed_strip cs).front), fun h => ?_,
      fun h => ?_⟩
    · have hline := joinLines_line (strip cs)
      have hmem := mem_spreadBarsAfter h
      simp_all
    · have hmem := mem_spreadBarsAfter h
      simp at hmem
  obtain ⟨opened, hopens, hwraps⟩ := exists_passes (spreadBars (joinLines (strip cs)))
  have hmem {c : Char} (hc : c ∉ opening ++ [')'])
      (hn : c ∉ spreadBars (joinLines (strip cs))) : c ∉ tidySegment cs := by
    intro h
    rcases hwraps.mem h with h | h
    · rcases hopens.mem h with h | h
      · exact hn h
      · exact hc (List.mem_append_left _ h)
    · exact hc h
  exact ⟨hwraps.stops (hopens.stops hspread.front), hmem (by decide) hspread.line,
    hmem (by decide) hspread.bar⟩

/-- A row ends as what is left of its segment, but for a bar and a negation. -/
theorem getLast?_tidySegment {cs w : List Char} {c : Char} (h : strip cs = w ++ [c]) :
    (tidySegment cs).getLast? = some (if c = '|' then ' ' else c) ∨
    (tidySegment cs).getLast? = some ')' := by
  have hsolid : Text.isBlank c = false := by
    refine solid_of_getLast? (trimmed_strip cs).back ?_
    rw [h, List.getLast?_concat]
  obtain ⟨w, hjoin⟩ := joinLinesAfter_concat [] w hsolid
  obtain ⟨w, hspread⟩ := spreadBarsAfter_concat (some []) w hsolid
  obtain ⟨opened, hopens, hwraps⟩ := exists_passes (spreadBars (joinLines (strip cs)))
  have hlast : (spreadBars (joinLines (strip cs))).getLast? =
      some (if c = '|' then ' ' else c) := by
    unfold spreadBars joinLines
    rw [h, hjoin, hspread, List.getLast?_concat]
  rw [← hlast, ← hopens.getLast?_eq]
  exact hwraps.getLast?_eq

theorem tidySegment_eq_nil {cs : List Char} : tidySegment cs = [] ↔ strip cs = [] := by
  constructor
  · intro h
    cases hend : (strip cs).getLast? with
    | none => exact List.getLast?_eq_none_iff.mp hend
    | some c =>
      obtain ⟨w, he⟩ := List.getLast?_eq_some_iff.mp hend
      rcases getLast?_tidySegment he with hlast | hlast
      all_goals rw [h] at hlast; cases hlast
  · intro h
    rw [tidySegment_eq_wrap, h]
    rfl

end Sentence

end Clausal
