import Clausal.Proofs.Wrapping

/-!
# Normal forms of renderings

The normalizer tells the lines of a rendering apart, brings each of them to its
canonical text, and joins them again. Whatever the rendering of a body, the
normal form is its canonical text, with or without a head.
-/

namespace Clausal

open Lexeme

/-! ## Canonical texts as renderings -/

theorem renders_chars (b : Body) : Renders b b.chars := by
  induction b with
  | atom a => exact .atom
  | conj left right ihl ihr => simpa [Body.chars] using Renders.conj ihl .blank ihr
  | neg inner ih =>
    simpa [Body.chars] using Renders.neg (.inl rfl) (by simp [AllBlank] : AllBlank []) ih

theorem Body.spreadChars_conj (gap : List Char) (left right : Body) :
    (conj left right).spreadChars gap =
      left.spreadChars gap ++ ',' :: gap ++ right.spreadChars gap := by
  obtain ⟨k, ks, hk⟩ := left.exists_literals
  obtain ⟨m, ms, hm⟩ := right.exists_literals
  have hconj : (conj left right).literals = k :: (ks ++ m :: ms) := by simp [literals, hk, hm]
  rw [spreadChars_eq hk, spreadChars_eq hm, spreadChars_eq hconj]
  simp [moreChars]

theorem Body.IsLiteral.spreadChars {l : Body} (h : l.IsLiteral) (gap : List Char) :
    l.spreadChars gap = l.chars := by
  rw [spreadChars_eq h]
  simp [moreChars]

/-- The layouts of a body render it. -/
theorem renders_spreadChars {gap : List Char} (hg : IsSeparator (',' :: gap)) (b : Body) :
    Renders b (b.spreadChars gap) := by
  induction b with
  | atom a =>
    have hl : (Body.atom a).IsLiteral := rfl
    rw [hl.spreadChars]
    exact renders_chars _
  | neg inner _ =>
    have hl : (Body.neg inner).IsLiteral := rfl
    rw [hl.spreadChars]
    exact renders_chars _
  | conj left right ihl ihr =>
    rw [Body.spreadChars_conj]
    exact .conj ihl hg ihr

namespace Sentence

/-! ## Lines -/

theorem wrapNegations_line {u v : List Char} (h : Line IsOpening true u v) :
    wrapNegations u = v := by
  obtain ⟨u', hline, heq⟩ := line_opened h
  have hopened : replaceAll openingRule u = u' := heq none fun _ => rfl
  unfold wrapNegations
  rw [hopened]
  exact line_wrapped hline none fun _ => rfl

theorem tidySegment_eq {u v blanks periods : List Char} (h : Line IsOpening true u v)
    (hb : AllBlank blanks) (hp : ∀ c ∈ periods, c = '.') :
    tidySegment (blanks ++ (u ++ periods)) = v := by
  rw [tidySegment_line h hb hp, wrapNegations_line (line_joinLines h)]

theorem canonical_ne_nil {u v : List Char} (h : Line IsOpening true u v) : v ≠ [] := by
  cases h with
  | atom hw _ =>
    obtain ⟨c, t, he, -⟩ := hw.front
    simp [he]
  | bare _ _ _ => simp
  | opening _ _ => simp

/-! ## Sheets -/

section
variable {multiline : Bool} {u v : List Char} (h : Sheet (separator multiline) true u v)
include h

theorem sheet_canonical_ne_nil : v ≠ [] := by
  cases h with
  | last hl _ => exact canonical_ne_nil hl
  | more hl _ _ _ => simp [canonical_ne_nil hl]

/-- The segments of a sheet, tidied and joined again, are its canonical text. -/
theorem tidyBody_sheet {blanks : List Char} (hb : AllBlank blanks) :
    tidyBody multiline (blanks ++ u) = v := by
  generalize hdue : true = due at h
  induction h generalizing blanks with
  | @last due u v periods hl hp =>
    subst hdue
    have hsegment :=
      segments_last (oneSegment_append (oneSegment_of_blanks hb) (oneSegment_of_line hl)) hp
    rw [List.append_assoc] at hsegment
    unfold tidyBody
    rw [hsegment, List.map_singleton, tidySegment_eq hl hb hp]
    simp [canonical_ne_nil hl]
  | @more due u v cut blanks' u' v' hl hc hb' hs ih =>
    subst hdue
    have hsegment := segments_line
      (oneSegment_append (oneSegment_of_blanks hb) (oneSegment_of_line hl)) hc (blanks' ++ u')
    have hfirst : tidySegment (blanks ++ u) = v := by
      have hnone : ∀ c ∈ ([] : List Char), c = '.' := by simp
      have htidy := tidySegment_eq hl hb hnone
      rwa [List.append_nil] at htidy
    have hlater := ih hb' rfl
    rw [List.append_assoc, List.append_assoc] at hsegment
    unfold tidyBody at hlater ⊢
    rw [List.append_assoc, hsegment, List.map_cons, hfirst,
      List.filter_cons_of_pos (by simpa using canonical_ne_nil hl)]
    generalize ((segments (blanks' ++ u')).map tidySegment).filter (· ≠ []) = later at hlater
    cases later with
    | nil => exact absurd hlater.symm (sheet_canonical_ne_nil hs)
    | cons w later => rw [List.intercalate_cons_cons, hlater, List.append_assoc]

end

end Sentence

/-! ## Sentences -/

theorem Atom.WellFormed.trim_chars {a : Atom} (h : a.WellFormed) {gap : List Char}
    (hg : AllBlank gap) :
    Text.trim (a.chars ++ gap) = a.chars := by
  obtain ⟨c, t, he, hc⟩ := h.exists_front
  rw [Text.trim_append_blanks hg]
  refine Text.Trimmed.trim_eq ⟨?_, fun d hd => ?_⟩
  · rw [he]
    exact stops_cons.mpr (Text.isBlank_of_isNameChar (isNameChar_of_isLower c hc))
  · rw [List.head?_reverse] at hd
    exact (endsSolid_of_back h.exists_back d hd).1

/-- A head without quoted constants can stand in front of a neck: it holds none itself. -/
theorem Atom.WellFormed.no_neck {a : Atom} (h : a.WellFormed) (hq : Unquoted a.constants) :
    ¬ [':', '-'] <:+: a.chars :=
  Sentence.no_neck_of_no_colon fun hc => ((h.atomText hq).occurs _ hc).ne_colon rfl

theorem Atom.WellFormed.headed_chars {a : Atom} (h : a.WellFormed) (multiline : Bool) :
    Sentence.headed multiline a.chars =
      a.chars ++ ' ' :: ':' :: '-' :: (if multiline then ['\n', '\t'] else [' ']) := by
  obtain ⟨c, t, he, -⟩ := h.exists_front
  rw [he]
  cases multiline <;> rfl

section
variable {b : Body} (hb : b.WellFormed) (hq : Unquoted b.constants) {w periods : List Char}
  (hw : Renders b w)
  (hp : ∀ c ∈ periods, c = '.') (multiline : Bool)
include hb hq hw hp

theorem rendering_parts {blanks : List Char} (hblanks : AllBlank blanks) :
    Sentence.neckParts (blanks ++ (w ++ periods)) = [blanks ++ (w ++ periods)] ∧
    ∃ n, NormalText (Sentence.separator multiline) b n ∧
    Sentence.tidyBody multiline (blanks ++ (w ++ periods)) = n := by
  obtain ⟨n, hn, hsheet⟩ := hw.sheet (Sentence.separator multiline) hb hq
  have hwhole := hsheet (Sheet.last .done hp)
  rw [List.nil_append, List.append_nil] at hwhole
  refine ⟨Sentence.neckParts_of_no_colon fun hc => ?_, n, hn,
    Sentence.tidyBody_sheet hwhole hblanks⟩
  rcases List.mem_append.mp hc with hc | hc
  · cases hblanks _ hc
  · exact (hwhole.occurs _ hc).ne_colon rfl

theorem normalize_body : ∃ n, NormalText (Sentence.separator multiline) b n ∧
    Sentence.normalize multiline (String.ofList (w ++ periods)) =
      .ok (String.ofList (n ++ ['.'])) := by
  obtain ⟨hparts, n, hn, htidy⟩ :=
    rendering_parts hb hq hw hp multiline (by simp [AllBlank] : AllBlank [])
  rw [List.nil_append] at hparts htidy
  have hchars : Sentence.normalChars? multiline (w ++ periods) = some (n ++ ['.']) := by
    unfold Sentence.normalChars?
    rw [hparts]
    simp only [htidy]
  refine ⟨n, hn, ?_⟩
  unfold Sentence.normalize
  rw [String.toList_ofList, hchars]

theorem normalize_rule {a : Atom} (ha : a.WellFormed) (hneck : ¬ [':', '-'] <:+: a.chars)
    {gap blanks : List Char} (hg : AllBlank gap) (hblanks : AllBlank blanks) :
    ∃ n, NormalText (Sentence.separator multiline) b n ∧
    Sentence.normalize multiline
      (String.ofList (a.chars ++ gap ++ ':' :: '-' :: (blanks ++ (w ++ periods)))) =
        .ok (String.ofList (Sentence.headed multiline a.chars ++ n ++ ['.'])) := by
  obtain ⟨hparts, n, hn, htidy⟩ := rendering_parts hb hq hw hp multiline hblanks
  have hchars :
      Sentence.normalChars? multiline (a.chars ++ gap ++ ':' :: '-' :: (blanks ++ (w ++ periods))) =
        some (Sentence.headed multiline a.chars ++ n ++ ['.']) := by
    unfold Sentence.normalChars?
    rw [Sentence.neckParts_neck hneck hg, hparts]
    simp only [ha.trim_chars hg, htidy]
  refine ⟨n, hn, ?_⟩
  unfold Sentence.normalize
  rw [String.toList_ofList, hchars]

end

/-- **Normal forms.** Every rendering of a body without quoted constants is normalized to its
canonical text, alone or behind a head. So the canonical text and every layout of a rule have the
canonical text as normal form. The head must hold no neck, and without quoted constants it does not
(`Atom.WellFormed.no_neck`). -/
theorem normalize_renders {b : Body} (hb : b.WellFormed) (hq : Unquoted b.constants) :
    (∀ w periods, Renders b w →
      Sentence.normalize false (String.ofList (w ++ List.replicate periods '.')) =
        .ok (b.text ++ ".")) ∧
    ∀ a : Atom, a.WellFormed → ¬ [':', '-'] <:+: a.chars →
      (∀ gap blanks w periods, AllBlank gap → AllBlank blanks → Renders b w →
        Sentence.normalize false (String.ofList
          (a.chars ++ gap ++ ':' :: '-' :: (blanks ++ (w ++ List.replicate periods '.')))) =
            .ok (Rule.text ⟨a, b⟩)) ∧
      Sentence.normalize false (Rule.text ⟨a, b⟩) = .ok (Rule.text ⟨a, b⟩) ∧
      ∀ indent, Sentence.normalize false (Rule.layout ⟨a, b⟩ indent) =
        .ok (Rule.text ⟨a, b⟩) := by
  have hperiods (n : Nat) : ∀ c ∈ List.replicate n '.', c = '.' :=
    fun c hc => (List.mem_replicate.mp hc).2
  refine ⟨fun w k hw => ?_, fun a ha hneck => ?_⟩
  · obtain ⟨n, hn, hbody⟩ := normalize_body hb hq hw (hperiods k) false
    rw [hbody, NormalText.eq_chars hn, String.ofList_append]
    rfl
  have hrule {gap blanks w periods : List Char} (hg : AllBlank gap) (hblanks : AllBlank blanks)
      (hw : Renders b w)
      (hp : ∀ c ∈ periods, c = '.') : Sentence.normalize false
        (String.ofList (a.chars ++ gap ++ ':' :: '-' :: (blanks ++ (w ++ periods)))) =
          .ok (Rule.text ⟨a, b⟩) := by
    obtain ⟨n, hn, hrule⟩ := normalize_rule hb hq hw hp false ha hneck hg hblanks
    rw [hrule, NormalText.eq_chars hn, ha.headed_chars]
    simp [Rule.text, Rule.chars]
  have hspread {gap : List Char} (hsep : IsSeparator (',' :: gap)) (hgap : AllBlank gap) :
      Sentence.normalize false (String.ofList (Rule.spreadChars gap ⟨a, b⟩)) =
        .ok (Rule.text ⟨a, b⟩) := by
    have hspread := hrule Sentence.allBlank_blank hgap (renders_spreadChars hsep b) (hperiods 1)
    simpa [Rule.spreadChars] using hspread
  refine ⟨fun gap blanks w n hg hblanks hw => hrule hg hblanks hw (hperiods n), ?_,
    fun indent => ?_⟩
  · have htext := hspread .blank Sentence.allBlank_blank
    rw [Rule.spreadChars_blank] at htext
    exact htext
  · have hindent : AllBlank (List.replicate indent ' ') :=
      fun c hc => (List.mem_replicate.mp hc).2 ▸ rfl
    have hgap : AllBlank ('\n' :: List.replicate indent ' ') :=
      List.forall_mem_cons.mpr ⟨rfl, hindent⟩
    have hend : IsLineEnd ['\n'] := .feed (by simp : ∀ c ∈ [], Sentence.isLineBlank c = true)
    have hsep : IsSeparator (',' :: '\n' :: List.replicate indent ' ') := .lineEnd hend hindent
    have hlayout := hspread hsep hgap
    rw [Rule.spreadChars_lines] at hlayout
    exact hlayout

theorem normalize_renders_of_sample :
    Sentence.normalize false "\\+q,\t\n not (r,\n not  s)..." = .ok "not(q), not(r, not(s))." ∧
    Sentence.normalize false "p:-\\+q,\t\n not (r,\n not  s)" =
      .ok "p :- not(q), not(r, not(s))." := by
  have hp : Atom.WellFormed ⟨"p", []⟩ := ⟨by decide, by decide, by simp⟩
  have hq : Atom.WellFormed ⟨"q", []⟩ := ⟨by decide, by decide, by simp⟩
  have hr : Atom.WellFormed ⟨"r", []⟩ := ⟨by decide, by decide, by simp⟩
  have hs : Atom.WellFormed ⟨"s", []⟩ := ⟨by decide, by decide, by simp⟩
  have hnil : AllBlank [] := Sentence.allBlank_nil
  have hblank : AllBlank [' '] := Sentence.allBlank_blank
  have hblanks : AllBlank [' ', ' '] := by unfold AllBlank; decide
  have hfeed : IsLineEnd ['\n'] := .feed (by simp : ∀ c ∈ [], Sentence.isLineBlank c = true)
  have htab : IsLineEnd ['\t', '\n'] :=
    .feed (by decide : ∀ c ∈ ['\t'], Sentence.isLineBlank c = true)
  have hw : Renders (.conj (.neg (.atom ⟨"q", []⟩))
      (.neg (.conj (.atom ⟨"r", []⟩) (.neg (.atom ⟨"s", []⟩))))) _ :=
    .conj (.bare ⟨hnil, .inr rfl⟩) (.lineEnd htab hblank)
      (.neg (.inl rfl) hblank
        (.conj .atom (.lineEnd hfeed hblank) (.bare ⟨hblanks, .inl ⟨rfl, by decide⟩⟩)))
  have hbodies := normalize_renders
    (.conj (.neg (.atom hq)) (.neg (.conj (.atom hr) (.neg (.atom hs))))) fun s hs => by cases hs
  have hneck := hp.no_neck fun s hs => by cases hs
  refine ⟨Eq.trans ?_ ((hbodies.1 _ 3 hw).trans ?_),
    Eq.trans ?_ (((hbodies.2 _ hp hneck).1 [] [] _ 0 hnil hnil hw).trans ?_)⟩
  all_goals rfl

end Clausal
