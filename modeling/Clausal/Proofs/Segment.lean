import Clausal.Proofs.Rendering

/-!
# Cutting and joining lines

A text without a neck is one part, and a line is one segment of it. Within a line
the blanks behind negation signs are all that joining and spreading may change.
-/

namespace Clausal

open Lexeme

/-! ## Characters -/

/-- The marks that a rendering may hold. -/
def renderMarks : List Char := ['-', '.', '(', '[', ')', ']', ',', ' ', '=', '\\', '+']

/-- A character that a rendering may hold. -/
def Occurs (c : Char) : Prop := isNameChar c = true ∨ Text.isBlank c = true ∨ c ∈ renderMarks

theorem IsWord.name_or_mark {w : List Char} (h : IsWord w) :
    ∀ c ∈ w, isNameChar c = true ∨ c ∈ ['-', '.'] := by
  have hdigits {ds : List Char} (hd : IsDigits ds) :
      ∀ c ∈ ds, isNameChar c = true ∨ c ∈ ['-', '.'] :=
    fun c hc => .inl (by simp [isNameChar, isAlphanum_iff, hd.2 c hc])
  cases h with
  | name _ hw => exact fun c hc => .inl (hw c hc)
  | numeral hs hw hf =>
    refine List.forall_mem_append.mpr ⟨List.forall_mem_append.mpr ⟨?_, hdigits hw⟩, ?_⟩
    · rcases hs with hs | hs
      all_goals subst hs; simp
    · cases hf with
      | none => simp
      | point hd => exact List.forall_mem_cons.mpr ⟨.inr (by simp), hdigits hd⟩

theorem occurs_of_mark {c : Char} (h : c ∈ renderMarks) : Occurs c := .inr (.inr h)

theorem AtomText.occurs {w : List Char} (h : AtomText w) : ∀ c ∈ w, Occurs c := by
  have hword : ∀ c ∈ ['-', '.'], c ∈ renderMarks := by decide
  have houtline : ∀ c ∈ ['(', '[', ')', ']', ',', ' ', '='], c ∈ renderMarks := by decide
  refine h.outline.all (fun v hv c hc => ?_) fun c hc => occurs_of_mark (houtline c hc)
  rcases hv.name_or_mark c hc with hn | hm
  · exact .inl hn
  · exact occurs_of_mark (hword c hm)

theorem occurs_of_sign {sign : List Char} (h : IsNegationSign sign) : ∀ c ∈ sign, Occurs c := by
  rcases h with h | h
  · subst h
    exact fun c hc => .inl (by revert c; decide)
  · subst h
    exact fun c hc => .inr (.inr (by revert c; decide))

theorem Line.occurs {due : Bool} {u v : List Char} (h : Line IsOpening due u v) :
    ∀ c ∈ u, Occurs c := by
  induction h with
  | done => simp
  | atom hw _ ih => exact List.forall_mem_append.mpr ⟨hw.occurs, ih⟩
  | bare hb hw _ ih =>
    exact List.forall_mem_append.mpr ⟨List.forall_mem_append.mpr
      ⟨occurs_of_sign hb.negation, fun c hc => .inr (.inl (hb.1 c hc))⟩,
      List.forall_mem_append.mpr ⟨hw.occurs, ih⟩⟩
  | opening hw _ ih =>
    obtain ⟨sign, blanks, hsign, hblank, he⟩ := hw
    subst he
    exact List.forall_mem_append.mpr ⟨List.forall_mem_append.mpr
      ⟨occurs_of_sign hsign, fun c hc => .inr (.inl (hblank c hc))⟩,
      List.forall_mem_cons.mpr ⟨occurs_of_mark (by decide), ih⟩⟩
  | closing _ ih => exact List.forall_mem_cons.mpr ⟨occurs_of_mark (by decide), ih⟩
  | comma _ ih =>
    exact List.forall_mem_cons.mpr ⟨occurs_of_mark (by decide), List.forall_mem_cons.mpr
      ⟨occurs_of_mark (by decide), ih⟩⟩

theorem IsLineEnd.blank {cut : List Char} (h : IsLineEnd cut) : AllBlank cut := by
  have hgap {gap : List Char} (hg : ∀ c ∈ gap, Sentence.isLineBlank c = true) :
      AllBlank gap := by
    intro c hc
    have hblank := hg c hc
    simp only [Sentence.isLineBlank, Bool.or_eq_true, beq_iff_eq] at hblank
    rcases hblank with he | he
    all_goals subst he; rfl
  cases h with
  | feed hg => exact List.forall_mem_append.mpr ⟨hgap hg, by decide⟩
  | returnFeed hg => exact List.forall_mem_append.mpr ⟨hgap hg, by decide⟩

theorem Sheet.occurs {sep : List Char} {due : Bool} {u v : List Char} (h : Sheet sep due u v) :
    ∀ c ∈ u, Occurs c := by
  induction h with
  | last hl hp =>
    exact List.forall_mem_append.mpr
      ⟨hl.occurs, fun c hc => occurs_of_mark (hp c hc ▸ by decide)⟩
  | more hl hc hb _ ih =>
    have hblank {w : List Char} (hw : AllBlank w) : ∀ c ∈ w, Occurs c :=
      fun c hc => .inr (.inl (hw c hc))
    exact List.forall_mem_append.mpr
      ⟨List.forall_mem_append.mpr
        ⟨hl.occurs, List.forall_mem_cons.mpr ⟨occurs_of_mark (by decide), hblank hc.blank⟩⟩,
        List.forall_mem_append.mpr ⟨hblank hb, ih⟩⟩

theorem Occurs.ne_colon {c : Char} (h : Occurs c) : c ≠ ':' := by
  intro he
  subst he
  rcases h with h | h | h
  · cases h
  · cases h
  · revert h
    decide

/-! ## The ends of a line -/

/-- Numerals hold no letters. -/
theorem IsWord.all_name {w : List Char} (h : IsWord w) (hn : 'n' ∈ w) :
    ∀ c ∈ w, isNameChar c = true := by
  cases h with
  | name _ hw => exact hw
  | @numeral sign whole fraction hs hw hf =>
    have hsign : 'n' ∉ sign := by
      rcases hs with hs | hs
      all_goals subst hs; decide
    have hdigits {ds : List Char} (hd : IsDigits ds) : 'n' ∉ ds := fun hc => by cases hd.2 _ hc
    have hfraction : 'n' ∉ fraction := by
      cases hf with
      | none => simp
      | point hd => simp [hdigits hd]
    simp [hsign, hdigits hw, hfraction] at hn

theorem IsWord.not_mem {w : List Char} (h : IsWord w) {c : Char}
    (hc : isNameChar c = false ∧ c ∉ ['-', '.']) : c ∉ w := by
  intro hmem
  rcases h.name_or_mark c hmem with hn | hm
  · rw [hc.1] at hn
    cases hn
  · exact hc.2 hm

theorem IsWord.solid {w : List Char} (h : IsWord w) : ∀ c ∈ w, Text.isBlank c = false := by
  have hmark : ∀ c ∈ ['-', '.'], Text.isBlank c = false := by decide
  intro c hc
  rcases h.name_or_mark c hc with hn | hm
  · exact Text.isBlank_of_isNameChar hn
  · exact hmark c hm

theorem IsWord.exists_front {w : List Char} (h : IsWord w) :
    ∃ c v, w = c :: v ∧ Text.isBlank c = false := by
  have hne : w ≠ [] := by
    cases h with
    | name hne _ => exact hne
    | numeral _ hw _ => simp [hw.1]
  obtain ⟨c, v, he⟩ := List.exists_cons_of_ne_nil hne
  exact ⟨c, v, he, h.solid c (by simp [he])⟩

/-- Inside brackets there is more to come. -/
theorem Outline.exists_front {depth : Nat} {w : List Char} (h : Outline IsWord (depth + 1) w) :
    ∃ c v, w = c :: v ∧ Text.isBlank c = false := by
  have hmark : ∀ c ∈ ['(', '[', ')', ']'], Text.isBlank c = false := by decide
  cases h with
  | word hw _ _ =>
    obtain ⟨c, v, he, hc⟩ := hw.exists_front
    exact ⟨c, _, by rw [he]; rfl, hc⟩
  | @opening c _ _ hc _ => exact ⟨_, _, rfl, hmark c (by grind)⟩
  | @closing c _ _ hc _ => exact ⟨_, _, rfl, hmark c (by grind)⟩
  | comma _ => exact ⟨_, _, rfl, rfl⟩
  | equals _ => exact ⟨_, _, rfl, rfl⟩

/-- A character that may end a line. -/
def EndsSolid (cs : List Char) : Prop := ∀ c ∈ cs.getLast?, Text.isBlank c = false ∧ c ≠ '.'

theorem endsSolid_of_back {w : List Char}
    (h : ∃ u d, w = u ++ [d] ∧ (isNameChar d = true ∨ d = ')')) :
    EndsSolid w := by
  obtain ⟨u, d, he, hd⟩ := h
  intro c hc
  rw [he, List.getLast?_concat, Option.mem_def, Option.some.injEq] at hc
  subst hc
  rcases hd with hd | hd
  · exact ⟨Text.isBlank_of_isNameChar hd, by intro he; subst he; cases hd⟩
  · subst hd
    exact ⟨rfl, by decide⟩

theorem AtomText.endsSolid {w : List Char} (h : AtomText w) : EndsSolid w :=
  endsSolid_of_back h.back

theorem AtomText.trimEnd_eq {w : List Char} (h : AtomText w) : Text.trimEnd w = w := by
  refine Text.trimEnd_of_stops fun c hc => ?_
  rw [List.head?_reverse] at hc
  exact (h.endsSolid c hc).1

theorem AtomText.not_all_blank {w : List Char} (h : AtomText w) : w.all Text.isBlank = false := by
  obtain ⟨c, t, he, hc⟩ := h.front
  have hb : Text.isBlank c = false := Text.isBlank_of_isNameChar (isNameChar_of_isLower c hc)
  rw [he, List.all_cons, hb, Bool.false_and]

theorem endsSolid_append {w u : List Char} (hw : u = [] → EndsSolid w) (hu : EndsSolid u) :
    EndsSolid (w ++ u) := by
  by_cases hne : u = []
  · rw [hne, List.append_nil]
    exact hw hne
  · unfold EndsSolid
    rw [List.getLast?_append, List.getLast?_eq_some_getLast hne, Option.some_or,
      ← List.getLast?_eq_some_getLast hne]
    exact hu

theorem Line.ne_nil {opening : List Char → Prop} {u v : List Char} (h : Line opening true u v) :
    u ≠ [] := by
  cases h with
  | atom hw _ =>
    obtain ⟨c, w, he, -⟩ := hw.front
    simp [he]
  | bare hb hw _ =>
    obtain ⟨c, w, he, -⟩ := hw.front
    simp [he]
  | opening _ _ => simp

theorem Line.exists_front {u v : List Char} (h : Line IsOpening true u v) :
    ∃ c t, u = c :: t ∧ Text.isBlank c = false := by
  have hsign {sign : List Char} (hs : IsNegationSign sign) (rest : List Char) :
      ∃ c t, sign ++ rest = c :: t ∧ Text.isBlank c = false := by
    rcases hs with hs | hs
    all_goals subst hs; exact ⟨_, _, rfl, rfl⟩
  cases h with
  | atom hw _ =>
    obtain ⟨c, t, he, hc⟩ := hw.front
    exact ⟨c, _, by rw [he]; rfl, Text.isBlank_of_isNameChar (isNameChar_of_isLower c hc)⟩
  | bare hb _ _ =>
    rw [List.append_assoc]
    exact hsign hb.negation _
  | opening hw _ =>
    obtain ⟨sign, blanks, hs, -, he⟩ := hw
    rw [he, List.append_assoc]
    exact hsign hs _

theorem Line.endsSolid {opening : List Char → Prop} {due : Bool} {u v : List Char}
    (h : Line opening due u v) : EndsSolid u := by
  induction h with
  | done => simp [EndsSolid]
  | atom hw _ ih => exact endsSolid_append (fun _ => hw.endsSolid) ih
  | bare _ hw _ ih =>
    refine endsSolid_append (fun he => ?_) (endsSolid_append (fun _ => hw.endsSolid) ih)
    obtain ⟨c, t, hc, -⟩ := hw.front
    simp [hc] at he
  | opening _ hl ih =>
    rw [List.append_cons]
    exact endsSolid_append (fun he => absurd he hl.ne_nil) ih
  | @closing u _ _ ih =>
    have hclose : EndsSolid [')'] := by intro c hc; simp at hc; subst hc; exact ⟨rfl, by decide⟩
    exact endsSolid_append (w := [')']) (fun _ => hclose) ih
  | @comma u _ hl ih => exact endsSolid_append (w := [',', ' ']) (fun he => absurd he hl.ne_nil) ih

namespace Sentence

/-! ## Parts -/

theorem neckParts_append {cs rest : List Char} (h : ¬ [':', '-'] <:+: cs)
    (hr : ∀ c ∈ rest.head?, c ≠ '-') :
    neckParts (cs ++ rest) = (neckParts rest).modifyHead (cs ++ ·) := by
  induction cs with
  | nil =>
    show neckParts rest = (neckParts rest).modifyHead id
    rw [List.modifyHead_id]
    rfl
  | cons c cs ih =>
    have hne : ∀ ds, c = ':' → cs ++ rest = '-' :: ds → False := by
      intro ds hc hd
      cases cs with
      | nil => exact hr '-' (by rw [List.nil_append] at hd; simp [hd]) rfl
      | cons d cs =>
        simp only [List.cons_append, List.cons.injEq] at hd
        exact h ⟨[], cs, by simp [hc, hd.1]⟩
    rw [List.cons_append, neckParts.eq_3 _ _ hne,
      ih fun hi => h (hi.trans (List.suffix_cons c cs).isInfix), List.modifyHead_modifyHead]
    rfl

theorem no_neck_of_no_colon {cs : List Char} (h : ':' ∉ cs) : ¬ [':', '-'] <:+: cs :=
  fun hi => h (hi.subset (by simp))

theorem neckParts_whole {cs : List Char} (h : ¬ [':', '-'] <:+: cs) : neckParts cs = [cs] := by
  have hparts := neckParts_append h (by simp : ∀ c ∈ ([] : List Char).head?, c ≠ '-')
  rw [List.append_nil] at hparts
  rw [hparts]
  show [cs ++ []] = [cs]
  rw [List.append_nil]

theorem neckParts_of_no_colon {cs : List Char} (h : ':' ∉ cs) : neckParts cs = [cs] :=
  neckParts_whole (no_neck_of_no_colon h)

/-- The first neck ends the head, blanks in front of it included. -/
theorem neckParts_neck {cs gap : List Char} (h : ¬ [':', '-'] <:+: cs) (hg : AllBlank gap)
    (rest : List Char) :
    neckParts (cs ++ gap ++ ':' :: '-' :: rest) = (cs ++ gap) :: neckParts rest := by
  have hgap : ':' ∉ gap := fun hc => by cases hg _ hc
  have hfront : ∀ c ∈ (gap ++ ':' :: '-' :: rest).head?, c ≠ '-' := by
    cases gap with
    | nil => simp
    | cons b gap =>
      intro c hc he
      rw [List.cons_append, List.head?_cons, Option.mem_def, Option.some.injEq] at hc
      have hb := hg b (by simp)
      rw [hc, he] at hb
      cases hb
  have hneck : neckParts (':' :: '-' :: rest) = [] :: neckParts rest := rfl
  rw [List.append_assoc, neckParts_append h hfront,
    neckParts_append (no_neck_of_no_colon hgap) (by simp), hneck]
  simp

/-! ## Segments -/

theorem segmentsAfter_eq (n : Nat) (cs : List Char) :
    segmentsAfter n cs = segments (cs.drop n) := by
  induction cs generalizing n with
  | nil => cases n <;> rfl
  | cons c cs ih =>
    cases n with
    | zero => rfl
    | succ n => exact ih n

theorem segments_cons {c : Char} {cs : List Char} (h : breakLength? (c :: cs) = none) :
    segments (c :: cs) = (segments cs).modifyHead (c :: ·) := by
  unfold segments
  rw [segmentsAfter, h]

/-- No line ends within the text, whatever stands behind it. -/
def OneSegment (w : List Char) : Prop :=
  ∀ rest, segments (w ++ rest) = (segments rest).modifyHead (w ++ ·)

theorem oneSegment_append {w v : List Char} (hw : OneSegment w) (hv : OneSegment v) :
    OneSegment (w ++ v) := by
  intro rest
  rw [List.append_assoc, hw, hv, List.modifyHead_modifyHead]
  congr 1
  funext x
  simp

theorem oneSegment_of_no_comma {w : List Char} (h : ',' ∉ w) : OneSegment w := by
  intro rest
  induction w with
  | nil =>
    show segments rest = (segments rest).modifyHead id
    rw [List.modifyHead_id]
    rfl
  | cons c w ih =>
    simp only [List.mem_cons, not_or] at h
    have hbreak : breakLength? (c :: (w ++ rest)) = none := by
      rw [breakLength?.eq_2]
      exact fun _ hc => h.1 (List.cons.inj hc).1.symm
    rw [List.cons_append, segments_cons hbreak, ih h.2, List.modifyHead_modifyHead]
    rfl

theorem oneSegment_comma {c : Char} {w : List Char} (hc : Text.isBlank c = false)
    (h : OneSegment (c :: w)) :
    OneSegment (',' :: ' ' :: c :: w) := by
  intro rest
  have hgap : isLineBlank c = false ∧ c ≠ '\n' ∧ c ≠ '\r' := by
    have hne {d : Char} (hd : Text.isBlank d = true) : c ≠ d := by
      intro he
      rw [he, hd] at hc
      cases hc
    have hblank : c ≠ ' ' := hne rfl
    have htab : c ≠ '\t' := hne rfl
    exact ⟨by simp [isLineBlank, hblank, htab], hne rfl, hne rfl⟩
  have hbreak : breakLength? (',' :: ' ' :: c :: (w ++ rest)) = none := by
    have hdrop : (' ' :: c :: (w ++ rest)).dropWhile isLineBlank = c :: (w ++ rest) := by
      rw [List.dropWhile_cons_of_pos rfl, List.dropWhile_cons_of_neg (by simp [hgap.1])]
    simp only [breakLength?, hdrop]
    split
    · rename_i he
      exact absurd (List.cons.inj he).1 hgap.2.1
    · rename_i he
      exact absurd (List.cons.inj he).1 hgap.2.2
    · rfl
  have hblank : OneSegment [' '] := oneSegment_of_no_comma (by decide)
  have hlater : segments (' ' :: c :: (w ++ rest)) = _ := oneSegment_append hblank h rest
  rw [List.cons_append, List.cons_append, List.cons_append, segments_cons hbreak, hlater,
    List.modifyHead_modifyHead]
  rfl

theorem oneSegment_cons {c : Char} {w : List Char} (hc : c ≠ ',') (h : OneSegment w) :
    OneSegment (c :: w) :=
  oneSegment_append (oneSegment_of_no_comma (w := [c]) (by simp [hc.symm])) h

theorem oneSegment_of_outline {depth : Nat} {w : List Char} (h : Outline IsWord depth w) :
    OneSegment w := by
  induction h with
  | done => exact oneSegment_of_no_comma (by simp)
  | word hw _ _ ih => exact oneSegment_append (oneSegment_of_no_comma (hw.not_mem (by decide))) ih
  | opening hc _ ih => exact oneSegment_cons (by grind) ih
  | closing hc _ ih => exact oneSegment_cons (by grind) ih
  | comma hrest ih =>
    obtain ⟨c, v, he, hc⟩ := hrest.exists_front
    subst he
    exact oneSegment_comma hc ih
  | equals _ ih => exact oneSegment_cons (by decide) ih

theorem oneSegment_of_blanks {blanks : List Char} (h : AllBlank blanks) : OneSegment blanks := by
  refine oneSegment_of_no_comma fun hc => ?_
  cases h ',' hc

theorem oneSegment_of_sign {sign : List Char} (h : IsNegationSign sign) : OneSegment sign := by
  rcases h with h | h
  all_goals subst h; exact oneSegment_of_no_comma (by decide)

theorem oneSegment_of_line {due : Bool} {u v : List Char} (h : Line IsOpening due u v) :
    OneSegment u := by
  induction h with
  | done => exact oneSegment_of_no_comma (by simp)
  | atom hw _ ih => exact oneSegment_append (oneSegment_of_outline hw.outline) ih
  | bare hb hw _ ih =>
    have hsign := oneSegment_append (oneSegment_of_sign hb.negation) (oneSegment_of_blanks hb.1)
    exact oneSegment_append hsign (oneSegment_append (oneSegment_of_outline hw.outline) ih)
  | opening hw _ ih =>
    obtain ⟨sign, blanks, hs, hb, he⟩ := hw
    subst he
    have hsign := oneSegment_append (oneSegment_of_sign hs) (oneSegment_of_blanks hb)
    exact oneSegment_append hsign (oneSegment_cons (by decide) ih)
  | closing _ ih => exact oneSegment_cons (by decide) ih
  | comma hl ih =>
    obtain ⟨c, t, he, hc⟩ := hl.exists_front
    subst he
    exact oneSegment_comma hc ih

theorem segments_lineEnd {cut : List Char} (h : IsLineEnd cut) (rest : List Char) :
    segments (',' :: cut ++ rest) = [] :: segments rest := by
  have hbreak {gap : List Char} (tail : List Char) (hg : ∀ c ∈ gap, isLineBlank c = true)
      (ht : Stops isLineBlank tail) :
      (gap ++ tail).takeWhile isLineBlank = gap ∧ (gap ++ tail).dropWhile isLineBlank = tail :=
    takeWhile_of_stops hg ht
  have hlength : breakLength? (',' :: (cut ++ rest)) = some (cut.length + 1) := by
    cases h with
    | @feed gap hg =>
      obtain ⟨htake, hdrop⟩ := hbreak ('\n' :: rest) hg (stops_cons.mpr rfl)
      simp [breakLength?, htake, hdrop]
    | @returnFeed gap hg =>
      obtain ⟨htake, hdrop⟩ := hbreak ('\r' :: '\n' :: rest) hg (stops_cons.mpr rfl)
      simp [breakLength?, htake, hdrop]
  show segmentsAfter 0 (',' :: (cut ++ rest)) = _
  rw [segmentsAfter, hlength]
  simp only [Nat.add_sub_cancel, segmentsAfter_eq, List.drop_left]

/-- A line is a segment by itself. -/
theorem segments_line {w cut : List Char} (hw : OneSegment w) (hc : IsLineEnd cut)
    (rest : List Char) :
    segments (w ++ ',' :: cut ++ rest) = w :: segments rest := by
  rw [List.append_assoc, hw, segments_lineEnd hc, List.modifyHead_cons, List.append_nil]

theorem segments_last {w periods : List Char} (hw : OneSegment w)
    (hp : ∀ c ∈ periods, c = '.') :
    segments (w ++ periods) = [w ++ periods] := by
  have hperiods : OneSegment periods := oneSegment_of_no_comma fun hc => by cases hp ',' hc
  have hnil : segments [] = [[]] := rfl
  have hall := oneSegment_append hw hperiods []
  rw [List.append_nil, hnil, List.modifyHead_cons, List.append_nil] at hall
  exact hall

/-! ## Joining lines -/

theorem allBlank_blank : AllBlank [' '] := fun _ hc => List.mem_singleton.mp hc ▸ rfl

theorem joinLinesAfter_blanks {blanks : List Char} (h : AllBlank blanks) (run : List Char)
    {c : Char} (hc : Text.isBlank c = false) (rest : List Char) :
    joinLinesAfter run (blanks ++ c :: rest) =
      foldRun (blanks.reverse ++ run) ++ c :: joinLines rest := by
  induction blanks generalizing run with
  | nil =>
    rw [List.nil_append, joinLinesAfter, hc]
    rfl
  | cons b blanks ih =>
    rw [List.cons_append, joinLinesAfter, if_pos (h b (by simp)), ih fun d hd => h d (by simp [hd])]
    simp

theorem joinLines_cons {c : Char} (hc : Text.isBlank c = false) (rest : List Char) :
    joinLines (c :: rest) = c :: joinLines rest :=
  joinLinesAfter_blanks (by simp [AllBlank] : AllBlank []) [] hc rest

theorem joinLines_solid {w : List Char} (hw : ∀ c ∈ w, Text.isBlank c = false)
    (rest : List Char) :
    joinLines (w ++ rest) = w ++ joinLines rest := by
  induction w with
  | nil => rfl
  | cons c w ih =>
    rw [List.cons_append, joinLines_cons (hw c (by simp)), ih fun d hd => hw d (by simp [hd])]
    rfl

section
variable {c : Char} (hc : Text.isBlank c = false) (rest : List Char)
include hc

/-- Blanks in front of a text that begins with none. -/
theorem joinLines_gap {blanks : List Char} (h : AllBlank blanks) :
    joinLines (blanks ++ c :: rest) = foldRun blanks.reverse ++ joinLines (c :: rest) := by
  have hgap := joinLinesAfter_blanks h [] hc rest
  rw [List.append_nil] at hgap
  rw [joinLines_cons hc]
  exact hgap

theorem joinLines_comma :
    joinLines (',' :: ' ' :: c :: rest) = ',' :: ' ' :: joinLines (c :: rest) := by
  have hgap : joinLines ([' '] ++ c :: rest) = [' '] ++ joinLines (c :: rest) :=
    joinLines_gap hc rest allBlank_blank
  rw [joinLines_cons rfl]
  exact congrArg (',' :: ·) hgap

end

theorem joinLines_outline {depth : Nat} {w : List Char} (h : Outline IsWord depth w)
    (rest : List Char) :
    joinLines (w ++ rest) = w ++ joinLines rest := by
  have hmark : ∀ c ∈ ['(', '[', ')', ']'], Text.isBlank c = false := by decide
  induction h with
  | done => rfl
  | word hw _ _ ih => rw [List.append_assoc, joinLines_solid hw.solid, ih, List.append_assoc]
  | opening hc _ ih =>
    rw [List.cons_append, joinLines_cons (hmark _ (by grind)), ih]
    rfl
  | closing hc _ ih =>
    rw [List.cons_append, joinLines_cons (hmark _ (by grind)), ih]
    rfl
  | comma hrest ih =>
    obtain ⟨c, v, he, hc⟩ := hrest.exists_front
    subst he
    have hlater : joinLines (c :: (v ++ rest)) = c :: v ++ joinLines rest := ih
    rw [List.cons_append, List.cons_append, List.cons_append, joinLines_comma hc, hlater]
    rfl
  | equals _ ih =>
    rw [List.cons_append, joinLines_cons rfl, ih]
    rfl

theorem foldRun_blank {blanks : List Char} (h : AllBlank blanks) :
    AllBlank (foldRun blanks.reverse) ∧ (blanks ≠ [] → foldRun blanks.reverse ≠ []) := by
  unfold foldRun
  split
  · exact ⟨allBlank_blank, by simp⟩
  · rw [List.reverse_reverse]
    exact ⟨h, id⟩

theorem solid_of_sign {sign : List Char} (h : IsNegationSign sign) :
    ∀ c ∈ sign, Text.isBlank c = false := by
  rcases h with h | h
  all_goals subst h; decide

/-- A line whose line ends are joined is a line with the same canonical text. -/
theorem line_joinLines {due : Bool} {u v : List Char} (h : Line IsOpening due u v) :
    Line IsOpening due (joinLines u) v := by
  induction h with
  | done => exact .done
  | atom hw _ ih =>
    rw [joinLines_outline hw.outline]
    exact .atom hw ih
  | @bare sign blanks w u v hb hw hl ih =>
    obtain ⟨hfold, hne⟩ := foldRun_blank hb.1
    obtain ⟨c, t, he, hc⟩ := (Line.atom hw hl).exists_front
    have hgap := joinLines_gap hc t hb.1
    rw [← he] at hgap
    rw [List.append_assoc, joinLines_solid (solid_of_sign hb.negation), hgap,
      joinLines_outline hw.outline, ← List.append_assoc]
    exact .bare ⟨hfold, hb.2.imp (fun ⟨hs, hb⟩ => ⟨hs, hne hb⟩) id⟩ hw ih
  | opening hw hl ih =>
    obtain ⟨sign, blanks, hsign, hblank, he⟩ := hw
    rw [he, List.append_assoc, joinLines_solid (solid_of_sign hsign), joinLines_gap rfl _ hblank,
      joinLines_cons rfl, ← List.append_assoc]
    exact .opening ⟨sign, _, hsign, (foldRun_blank hblank).1, rfl⟩ ih
  | closing _ ih =>
    rw [joinLines_cons rfl]
    exact .closing ih
  | comma hl ih =>
    obtain ⟨c, t, he, hc⟩ := hl.exists_front
    subst he
    rw [joinLines_comma hc]
    exact .comma ih

/-! ## Bars and periods -/

theorem spreadBarsAfter_of_no_bar {cs : List Char} (h : '|' ∉ cs) (run : List Char) :
    spreadBarsAfter (some run) cs = run.reverse ++ cs := by
  induction cs generalizing run with
  | nil => simp [spreadBarsAfter]
  | cons c cs ih =>
    simp only [List.mem_cons, not_or] at h
    rw [spreadBarsAfter, if_neg (Ne.symm h.1)]
    split
    · rw [Option.map_some, ih h.2]
      simp
    · rw [ih h.2]
      rfl

theorem spreadBars_line {due : Bool} {u v : List Char} (h : Line IsOpening due u v) :
    spreadBars u = u := by
  refine spreadBarsAfter_of_no_bar (fun hc => ?_) []
  rcases h.occurs '|' hc with hn | hb | hm
  · cases hn
  · cases hb
  · revert hm
    decide

theorem dropPeriods_append {u periods : List Char} (hu : u.getLast? ≠ some '.')
    (hp : ∀ c ∈ periods, c = '.') :
    dropPeriods (u ++ periods) = u := by
  have hback : Stops (· == '.') u.reverse := by
    intro c hc
    rw [List.head?_reverse] at hc
    simp only [beq_eq_false_iff_ne, ne_eq]
    rintro rfl
    exact hu hc
  have hdrop :=
    (takeWhile_of_stops (fun c hc => by simpa using hp c (List.mem_reverse.mp hc)) hback).2
  unfold dropPeriods
  rw [List.reverse_append, hdrop, List.reverse_reverse]

/-- Blanks in front of a line and periods at its end do not show in its segment. -/
theorem tidySegment_line {u v blanks periods : List Char} (h : Line IsOpening true u v)
    (hb : AllBlank blanks) (hp : ∀ c ∈ periods, c = '.') :
    tidySegment (blanks ++ (u ++ periods)) = wrapNegations (joinLines u) := by
  have hu := h.endsSolid
  have hsolid : Text.Trimmed (u ++ periods) := by
    obtain ⟨c, t, he, hc⟩ := h.exists_front
    refine ⟨by rw [he]; exact stops_cons.mpr hc, fun d hd => ?_⟩
    rw [List.head?_reverse, List.getLast?_append] at hd
    cases hlast : periods.getLast? with
    | none =>
      rw [hlast] at hd
      exact (hu d hd).1
    | some e =>
      rw [hlast, Option.some_or, Option.mem_def, Option.some.injEq] at hd
      rw [← hd, hp e (List.mem_of_getLast? hlast)]
      rfl
  have htrimEnd : Text.trimEnd u = u := by
    refine Text.trimEnd_of_stops fun c hc => ?_
    rw [List.head?_reverse] at hc
    exact (hu c hc).1
  unfold tidySegment
  rw [Text.trim_blanks_append hb, hsolid.trim_eq, dropPeriods_append (fun h => (hu '.' h).2 rfl) hp,
    htrimEnd, spreadBars_line (line_joinLines h)]

end Sentence

end Clausal
