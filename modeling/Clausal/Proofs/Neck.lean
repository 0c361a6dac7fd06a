import Mathlib
import Clausal.Proofs.Rows

/-!
# Necks under normalization

No pass over a body brings a colon next to a hyphen: what a pass puts in begins with
no hyphen and ends with no colon. So a normal form has as many necks as its text, and
the head in front of it stays as it is.
-/

namespace Clausal

namespace Sentence

/-! ## Texts without a neck -/

/-- How many necks a text holds. -/
def neckCount : List Char → Nat
  | [] => 0
  | c :: cs => (if [':', '-'].isPrefixOf (c :: cs) then 1 else 0) + neckCount cs

def Neckless (cs : List Char) : Prop := ¬ [':', '-'] <:+: cs

theorem Neckless.of_isInfix {u v : List Char} (h : Neckless v) (hu : u <:+: v) : Neckless u :=
  fun hn => h (hn.trans hu)

theorem neckless_append {u v : List Char} :
    Neckless (u ++ v) ↔ Neckless u ∧ Neckless v ∧
    ¬ (u.getLast? = some ':' ∧ v.head? = some '-') := by
  constructor
  · intro h
    refine ⟨h.of_isInfix (List.prefix_append u v).isInfix,
      h.of_isInfix (List.suffix_append u v).isInfix, ?_⟩
    rintro ⟨hu, hv⟩
    obtain ⟨s, rfl⟩ := List.getLast?_eq_some_iff.mp hu
    obtain ⟨t, rfl⟩ := List.head?_eq_some_iff.mp hv
    exact h ⟨s, t, by simp⟩
  · rintro ⟨hu, hv, hmeet⟩ h
    rcases List.infix_append_iff.mp h with h | h | ⟨l, m, he, hl, hm⟩
    · exact hu h
    · exact hv h
    · -- the neck is cut in two where the texts meet, or all of it is on one side
      cases l with
      | nil =>
        rw [List.nil_append] at he
        exact hv (he ▸ hm.isInfix)
      | cons c l =>
        simp only [List.cons_append, List.cons.injEq] at he
        obtain ⟨rfl, he⟩ := he
        cases l with
        | nil =>
          obtain ⟨s, hs⟩ := hl
          obtain ⟨t, ht⟩ := hm
          rw [List.nil_append] at he
          exact hmeet ⟨by rw [← hs]; simp, by rw [← ht, ← he]; rfl⟩
        | cons d l =>
          simp only [List.cons_append, List.cons.injEq, List.nil_eq, List.append_eq_nil_iff] at he
          obtain ⟨rfl, rfl, -⟩ := he
          exact hu hl.isInfix

/-- What may be put in anywhere without making a neck. -/
structure Inert (w : List Char) : Prop where
  neckless : Neckless w
  front : ∃ c ∈ w.head?, c ≠ '-'
  back : ∃ c ∈ w.getLast?, c ≠ ':'

theorem neckless_nil : Neckless [] := by unfold Neckless; decide

section
variable {w : List Char} (h : Inert w) {u v : List Char}
include h

theorem Inert.between (hu : Neckless u) (hv : Neckless v) : Neckless (u ++ (w ++ v)) := by
  obtain ⟨c, hc, hfront⟩ := h.front
  obtain ⟨d, hd, hback⟩ := h.back
  have hhead : (w ++ v).head? = some c := by rw [List.head?_append, Option.mem_def.mp hc]; rfl
  refine neckless_append.mpr
    ⟨hu, neckless_append.mpr ⟨h.neckless, hv, fun hm => ?_⟩, fun hm => ?_⟩
  · rw [Option.mem_def.mp hd, Option.some.injEq] at hm
    exact hback hm.1
  · rw [hhead, Option.some.injEq] at hm
    exact hfront hm.2

theorem Inert.splice {t : List Char} (hall : Neckless (u ++ (t ++ v))) :
    Neckless (u ++ (w ++ v)) := by
  obtain ⟨hu, htv, -⟩ := neckless_append.mp hall
  obtain ⟨-, hv, -⟩ := neckless_append.mp htv
  exact h.between hu hv

end

theorem inert_blank : Inert [' '] :=
  ⟨by unfold Neckless; decide, ⟨' ', rfl, by decide⟩, ' ', rfl, by decide⟩

theorem inert_separator (multiline : Bool) : Inert (separator multiline) := by
  cases multiline with
  | false => exact ⟨by unfold Neckless; decide, ⟨',', rfl, by decide⟩, ' ', rfl, by decide⟩
  | true => exact ⟨by unfold Neckless; decide, ⟨',', rfl, by decide⟩, '\t', rfl, by decide⟩

theorem inert_opening : Inert opening :=
  ⟨by unfold Neckless; decide, ⟨'n', rfl, by decide⟩, '(', rfl, by decide⟩

theorem inert_wrapped {w : List Char} (h : Neckless w) : Inert (opening ++ (w ++ [')'])) := by
  refine ⟨?_, ⟨'n', rfl, by decide⟩, ')', by simp, by decide⟩
  refine neckless_append.mpr
    ⟨inert_opening.neckless, neckless_append.mpr ⟨h, by unfold Neckless; decide, ?_⟩, ?_⟩
  · rintro ⟨-, hm⟩
    cases hm
  · rintro ⟨hm, -⟩
    cases hm

/-! ## Passes -/

theorem Opens.neckless {before : Option Char} {cs out : List Char} (h : Opens before cs out) :
    ∀ u, Neckless (u ++ cs) → Neckless (u ++ out) := by
  induction h with
  | nil => exact fun _ hu => hu
  | @other _ c _ _ _ _ ih =>
    intro u hu
    rw [List.append_cons] at hu ⊢
    exact ih _ hu
  | @group _ sign blanks cs out _ _ _ ih =>
    intro u hu
    rw [← List.append_assoc]
    refine ih _ ?_
    rw [List.append_assoc]
    refine inert_opening.splice (t := sign ++ blanks ++ ['(']) ?_
    simpa using hu

theorem Wraps.neckless {before : Option Char} {cs out : List Char} (h : Wraps before cs out) :
    ∀ u, Neckless (u ++ cs) → Neckless (u ++ out) := by
  induction h with
  | nil => exact fun _ hu => hu
  | @other _ c _ _ _ _ ih =>
    intro u hu
    rw [List.append_cons] at hu ⊢
    exact ih _ hu
  | @kept _ sign blanks cs out _ _ _ _ ih =>
    intro u hu
    have hlater := ih (u ++ (sign ++ blanks)) (by simpa using hu)
    simpa using hlater
  | @wrapped _ sign blanks literal cs out _ _ _ _ ih =>
    intro u hu
    have hliteral : Neckless literal := by
      refine hu.of_isInfix ⟨u ++ (sign ++ blanks), cs, ?_⟩
      simp
    have hwrapped := inert_wrapped (hliteral.of_isInfix (Text.trimEnd_isPrefix literal).isInfix)
    have hlater := ih (u ++ (opening ++ (Text.trimEnd literal ++ [')']))) (by
      rw [List.append_assoc]
      exact hwrapped.splice (t := sign ++ blanks ++ literal) (by simpa using hu))
    simpa using hlater

theorem neckless_joinLinesAfter {run cs : List Char} (hr : AllBlank run) :
    ∀ u, Neckless (u ++ (run.reverse ++ cs)) → Neckless (u ++ joinLinesAfter run cs) := by
  have hfold (run v : List Char) (u : List Char) (hu : Neckless (u ++ (run.reverse ++ v))) :
      Neckless (u ++ (foldRun run ++ v)) := by
    unfold foldRun
    split
    · exact inert_blank.splice hu
    · exact hu
  induction cs generalizing run with
  | nil =>
    intro u hu
    have := hfold run [] u hu
    rwa [List.append_nil] at this
  | cons c cs ih =>
    intro u hu
    rw [joinLinesAfter]
    split
    · rename_i hc
      refine ih (List.forall_mem_cons.mpr ⟨hc, hr⟩) u ?_
      simpa using hu
    · have hlater :=
        @ih [] allBlank_nil (u ++ (foldRun run ++ [c])) (by simpa using hfold run (c :: cs) u hu)
      simpa using hlater

theorem neckless_spreadBarsAfter {run : Option (List Char)} {cs : List Char} :
    ∀ u, Neckless (u ++ ((run.getD []).reverse ++ cs)) →
      (run = none → u.getLast? ≠ some ':') →
      Neckless (u ++ spreadBarsAfter run cs) := by
  induction cs generalizing run with
  | nil =>
    intro u hu _
    rwa [List.append_nil] at hu
  | cons c cs ih =>
    intro u hu hlast
    rw [spreadBarsAfter]
    split
    · have hbar : Neckless (u ++ ([',', ' '] ++ cs)) :=
        (inert_separator false).splice (t := (run.getD []).reverse ++ [c]) (by simpa using hu)
      have hlater := @ih none (u ++ [',', ' ']) (by simpa using hbar) (by simp)
      simpa using hlater
    · split
      · cases run with
        | none =>
          obtain ⟨hfront, htail, -⟩ := neckless_append.mp hu
          refine ih u (neckless_append.mpr
            ⟨hfront, htail.of_isInfix (List.suffix_cons c cs).isInfix, ?_⟩) hlast
          exact fun hm => hlast rfl hm.1
        | some run => exact ih u (by simpa using hu) (by simp)
      · have hlater :=
          @ih (some []) (u ++ ((run.getD []).reverse ++ [c])) (by simpa using hu) (by simp)
        simpa using hlater

theorem neckless_tidySegment {cs : List Char} (h : Neckless cs) : Neckless (tidySegment cs) := by
  have hstrip : Neckless (strip cs) :=
    h.of_isInfix ((strip_isPrefix cs).isInfix.trans (Text.trim_isInfix cs))
  have hjoin : Neckless ([] ++ joinLines (strip cs)) :=
    neckless_joinLinesAfter allBlank_nil [] hstrip
  have hspread : Neckless ([] ++ spreadBars (joinLines (strip cs))) :=
    neckless_spreadBarsAfter [] hjoin (by simp)
  obtain ⟨opened, hopens, hwraps⟩ := exists_passes (spreadBars (joinLines (strip cs)))
  have htidy := hwraps.neckless [] (hopens.neckless [] hspread)
  rwa [List.nil_append, ← tidySegment_eq_wrap] at htidy

/-! ## Segments -/

theorem segments_isInfix (cs : List Char) :
    (∀ s ∈ (segments cs).head?, s <+: cs) ∧ ∀ s ∈ segments cs, s <:+: cs := by
  generalize hn : cs.length = n
  induction n using Nat.strongRecOn generalizing cs with
  | ind n ih =>
    cases cs with
    | nil =>
      exact ⟨fun s hs => Option.some.inj hs ▸ List.nil_prefix,
        fun s hs => List.mem_singleton.mp hs ▸ List.nil_infix⟩
    | cons c cs =>
      rw [List.length_cons] at hn
      cases hbreak : breakLength? (c :: cs) with
      | some k =>
        have hsegments : segments (c :: cs) = [] :: segments (cs.drop (k - 1)) := by
          show segmentsAfter 0 (c :: cs) = _
          rw [segmentsAfter, hbreak]
          exact congrArg _ (segmentsAfter_eq _ _)
        have hlater := (ih (cs.drop (k - 1)).length (by rw [List.length_drop]; omega) _ rfl).2
        rw [hsegments]
        refine ⟨fun s hs => Option.some.inj hs ▸ List.nil_prefix,
          List.forall_mem_cons.mpr ⟨List.nil_infix, fun s hs => ?_⟩⟩
        exact (hlater s hs).trans ((List.drop_suffix _ cs).trans (List.suffix_cons c cs)).isInfix
      | none =>
        obtain ⟨hhead, hall⟩ := ih cs.length (by omega) cs rfl
        rw [segments_cons hbreak]
        cases he : segments cs with
        | nil => exact ⟨by simp, by simp⟩
        | cons s later =>
          rw [he] at hhead hall
          have hfront : c :: s <+: c :: cs := List.cons_prefix_cons.mpr ⟨rfl, hhead s rfl⟩
          refine ⟨fun t ht => Option.some.inj ht ▸ hfront,
            List.forall_mem_cons.mpr ⟨hfront.isInfix, fun t ht => ?_⟩⟩
          exact (hall t (by simp [ht])).trans (List.suffix_cons c cs).isInfix

theorem neckless_intercalate (multiline : Bool) {rows : List (List Char)}
    (h : ∀ row ∈ rows, Neckless row) :
    Neckless ((separator multiline).intercalate rows) := by
  induction rows with
  | nil => exact neckless_nil
  | cons row rows ih =>
    have hrow := h row (by simp)
    have hlater := ih fun r hr => h r (by simp [hr])
    cases rows with
    | nil => simpa using hrow
    | cons r rows =>
      rw [List.intercalate_cons_cons, List.append_assoc]
      exact (inert_separator multiline).between hrow hlater

theorem neckless_tidyBody (multiline : Bool) {cs : List Char} (h : Neckless cs) :
    Neckless (tidyBody multiline cs) := by
  refine neckless_intercalate multiline fun row hrow => ?_
  obtain ⟨s, hs, he⟩ := List.mem_map.mp (List.mem_filter.mp hrow).1
  rw [← he]
  exact neckless_tidySegment (h.of_isInfix ((segments_isInfix cs).2 s hs))

/-! ## Sentences -/

/-- The first neck divides a sentence, if it has one. -/
theorem neckless_or_divided (cs : List Char) :
    Neckless cs ∨ ∃ head rest, Neckless head ∧ cs = head ++ ':' :: '-' :: rest := by
  induction cs with
  | nil => exact .inl neckless_nil
  | cons c cs ih =>
    by_cases hneck : [':', '-'] <+: c :: cs
    · obtain ⟨rest, he⟩ := hneck
      exact .inr ⟨[], rest, neckless_nil, he.symm⟩
    · rcases ih with h | ⟨head, rest, hh, he⟩
      · refine .inl fun hn => ?_
        rcases List.infix_cons_iff.mp hn with hp | hi
        · exact hneck hp
        · exact h hi
      · refine .inr ⟨c :: head, rest, fun hn => ?_, by rw [he]; rfl⟩
        rcases List.infix_cons_iff.mp hn with hp | hi
        · exact hneck (hp.trans ⟨':' :: '-' :: rest, by rw [he]; rfl⟩)
        · exact hh hi

theorem neckCount_cons {c : Char} {cs : List Char} (h : ¬ [':', '-'] <+: c :: cs) :
    neckCount (c :: cs) = neckCount cs := by
  rw [neckCount, if_neg fun hp => h (List.isPrefixOf_iff_prefix.mp hp), Nat.zero_add]

theorem neckCount_of_neckless {cs : List Char} (h : Neckless cs) : neckCount cs = 0 := by
  induction cs with
  | nil => rfl
  | cons c cs ih =>
    rw [neckCount_cons fun hp => h hp.isInfix]
    exact ih (h.of_isInfix (List.suffix_cons c cs).isInfix)

section
variable {head : List Char} (h : Neckless head) (rest : List Char)
include h

theorem neckCount_divided : neckCount (head ++ ':' :: '-' :: rest) = neckCount rest + 1 := by
  induction head with
  | nil =>
    have hhyphen : neckCount ('-' :: rest) = neckCount rest := neckCount_cons fun hp => by
      cases (List.cons_prefix_cons.mp hp).1
    show 1 + neckCount ('-' :: rest) = _
    rw [hhyphen, Nat.add_comm]
  | cons c head ih =>
    rw [List.cons_append, neckCount_cons, ih (h.of_isInfix (List.suffix_cons c head).isInfix)]
    intro hp
    obtain ⟨hc, hp⟩ := List.cons_prefix_cons.mp hp
    cases head with
    | nil => cases (List.cons_prefix_cons.mp hp).1
    | cons d head => exact h ⟨[], head, by rw [hc, (List.cons_prefix_cons.mp hp).1]; rfl⟩

theorem neckParts_divided : neckParts (head ++ ':' :: '-' :: rest) = head :: neckParts rest := by
  have hparts := neckParts_neck h allBlank_nil rest
  rwa [List.append_nil] at hparts

end

theorem neckParts_ne_nil (cs : List Char) : neckParts cs ≠ [] := by
  rcases neckless_or_divided cs with h | ⟨head, rest, hh, he⟩
  · rw [neckParts_whole h]
    simp
  · rw [he, neckParts_divided hh]
    simp

/-- What becomes of a sentence. -/
inductive Normalizes (multiline : Bool) : List Char → List Char → Prop
  | body {body} : Neckless body → Normalizes multiline body (tidyBody multiline body ++ ['.'])
  | headed {head body} : Neckless head → Neckless body →
      Normalizes multiline (head ++ ':' :: '-' :: body)
      (headed multiline (Text.trim head) ++ tidyBody multiline body ++ ['.'])

section
variable {multiline : Bool} {cs out : List Char}

theorem normalChars?_of_normalizes (h : Normalizes multiline cs out) :
    normalChars? multiline cs = some out := by
  unfold normalChars?
  cases h with
  | body hb => rw [neckParts_whole hb]
  | headed hh hb => rw [neckParts_divided hh, neckParts_whole hb]

theorem normalizes_or_none (multiline : Bool) (cs : List Char) :
    (neckCount cs ≤ 1 ∧ ∃ out, Normalizes multiline cs out) ∨
    (2 ≤ neckCount cs ∧ normalChars? multiline cs = none) := by
  rcases neckless_or_divided cs with h | ⟨head, rest, hh, rfl⟩
  · have hnone := neckCount_of_neckless h
    exact .inl ⟨by omega, _, .body h⟩
  · rcases neckless_or_divided rest with h | ⟨middle, rest, hm, rfl⟩
    · have hone := neckCount_divided hh rest
      have hnone := neckCount_of_neckless h
      exact .inl ⟨by omega, _, .headed hh h⟩
    · have hfirst := neckCount_divided hh (middle ++ ':' :: '-' :: rest)
      have hsecond := neckCount_divided hm rest
      refine .inr ⟨by omega, ?_⟩
      obtain ⟨part, parts, hparts⟩ := List.exists_cons_of_ne_nil (neckParts_ne_nil rest)
      unfold normalChars?
      rw [neckParts_divided hh, neckParts_divided hm, hparts]

theorem normalChars?_eq_some :
    normalChars? multiline cs = some out ↔ Normalizes multiline cs out := by
  refine ⟨fun h => ?_, normalChars?_of_normalizes⟩
  rcases normalizes_or_none multiline cs with ⟨-, out', h'⟩ | ⟨-, hnone⟩
  · rw [normalChars?_of_normalizes h', Option.some.injEq] at h
    exact h ▸ h'
  · rw [hnone] at h
    cases h

end

/-- The head of a normal form is that of the text, but for blanks. -/
theorem headed_eq (multiline : Bool) (head : List Char) :
    ∃ front gap, headed multiline head = front ++ ':' :: '-' :: gap ∧
    AllBlank gap ∧ (front = head ∨ front = head ++ [' ']) := by
  cases head with
  | nil => exact ⟨[], [' '], rfl, allBlank_blank, .inl rfl⟩
  | cons c head =>
    refine ⟨c :: head ++ [' '], if multiline then ['\n', '\t'] else [' '], ?_, ?_, .inr rfl⟩
    · cases multiline <;> simp [headed]
    · cases multiline <;> (unfold AllBlank; decide)

theorem normalize_eq_ok {multiline : Bool} {text u : String} :
    normalize multiline text = .ok u ↔ Normalizes multiline text.toList u.toList := by
  unfold normalize
  rw [← normalChars?_eq_some]
  cases normalChars? multiline text.toList with
  | none => simp
  | some cs => simp [← String.toList_inj]

theorem normalize_eq_error {multiline : Bool} {text : String} {e : NeckError} :
    normalize multiline text = .error e ↔ e = ⟨text⟩ ∧ 2 ≤ neckCount text.toList := by
  unfold normalize
  rcases normalizes_or_none multiline text.toList with ⟨hcount, out, hout⟩ | ⟨hcount, hnone⟩
  · rw [normalChars?_of_normalizes hout]
    exact iff_of_false (by simp) fun h => by omega
  · rw [hnone]
    simp [hcount, eq_comm]

/-- Only one place divides a sentence. -/
theorem eq_of_divided {head body front rest : List Char} (hh : Neckless head) (hb : Neckless body)
    (h : head ++ ':' :: '-' :: body = front ++ ':' :: '-' :: rest) : front = head := by
  rcases List.append_eq_append_iff.mp h with ⟨t, ht, hbody⟩ | ⟨t, ht, hrest⟩
  · cases t with
    | nil => rw [ht, List.append_nil]
    | cons c t =>
      simp only [List.cons_append, List.cons.injEq] at hbody
      obtain ⟨-, hbody⟩ := hbody
      cases t with
      | nil => cases (List.cons.inj hbody).1
      | cons d t =>
        simp only [List.cons_append, List.cons.injEq] at hbody
        exact absurd ⟨t, rest, by rw [hbody.2]; simp⟩ hb
  · cases t with
    | nil => rw [ht, List.append_nil]
    | cons c t =>
      simp only [List.cons_append, List.cons.injEq] at hrest
      obtain ⟨hc, hrest⟩ := hrest
      cases t with
      | nil => cases (List.cons.inj hrest).1
      | cons d t =>
        simp only [List.cons_append, List.cons.injEq] at hrest
        exact absurd ⟨front, t, by rw [ht, ← hc, ← hrest.1]; simp⟩ hh

theorem neckless_of_blanks {blanks : List Char} (h : AllBlank blanks) : Neckless blanks :=
  no_neck_of_no_colon fun hc => by cases h _ hc

/-- The body of a normal form, blanks in front of it included. -/
theorem neckless_normal_body (multiline : Bool) {body gap : List Char} (hb : Neckless body)
    (hg : AllBlank gap) :
    Neckless (gap ++ (tidyBody multiline body ++ ['.'])) := by
  have hcolon {w : List Char} (hw : AllBlank w) : w.getLast? ≠ some ':' := by
    intro hc
    cases hw _ (List.mem_of_getLast? hc)
  refine neckless_append.mpr ⟨neckless_of_blanks hg,
    neckless_append.mpr ⟨neckless_tidyBody multiline hb, ?_, ?_⟩, ?_⟩
  · unfold Neckless; decide
  · rintro ⟨-, hm⟩
    cases hm
  · exact fun hm => hcolon hg hm.1

theorem neckless_front {head front : List Char} (hh : Neckless head)
    (hf : front = head ∨ front = head ++ [' ']) :
    Neckless front := by
  rcases hf with rfl | rfl
  · exact hh
  · refine neckless_append.mpr ⟨hh, neckless_of_blanks allBlank_blank, ?_⟩
    rintro ⟨-, hm⟩
    cases hm

theorem trim_front {head front : List Char}
    (hf : front = Text.trim head ∨ front = Text.trim head ++ [' ']) :
    Text.trim front = Text.trim head := by
  rcases hf with rfl | rfl
  · exact (Text.trimmed_trim head).trim_eq
  · rw [Text.trim_append_blanks allBlank_blank, (Text.trimmed_trim head).trim_eq]

/-- A normal form is a sentence with the same head, or none. -/
theorem Normalizes.cases_on_head {multiline : Bool} {cs out : List Char}
    (h : Normalizes multiline cs out) :
    (Neckless cs ∧ Neckless out) ∨ ∃ head body front rest, cs = head ++ ':' :: '-' :: body ∧
    Neckless head ∧ Neckless body ∧
      out = front ++ ':' :: '-' :: rest ∧ Neckless front ∧ Neckless rest ∧
      Text.trim front = Text.trim head := by
  cases h with
  | body hb => exact .inl ⟨hb, by simpa using neckless_normal_body multiline hb allBlank_nil⟩
  | @headed head body hh hb =>
    obtain ⟨front, gap, he, hg, hf⟩ := headed_eq multiline (Text.trim head)
    refine .inr ⟨head, body, front, gap ++ (tidyBody multiline body ++ ['.']), rfl, hh, hb,
      by rw [he]; simp, neckless_front (hh.of_isInfix (Text.trim_isInfix head)) hf,
      neckless_normal_body multiline hb hg, trim_front hf⟩

end Sentence

open Sentence

/-- **Necks.** A text is malformed exactly if it holds two necks or more. Otherwise its normal form
has as many as the text, so that it can be normalized again, and the same head, but for the blanks
around it. -/
theorem normalize_keeps_neck (multiline : Bool) (text : String) :
    (∀ e, normalize multiline text = .error e ↔
      e = ⟨text⟩ ∧ 2 ≤ neckCount text.toList) ∧
    ∀ u, normalize multiline text = .ok u → neckCount u.toList = neckCount text.toList ∧
      (∀ again, ∃ v, normalize again u = .ok v) ∧
      ∀ head body front rest, text.toList = head ++ ':' :: '-' :: body →
        u.toList = front ++ ':' :: '-' :: rest →
        Text.trim front = Text.trim head := by
  refine ⟨fun e => normalize_eq_error, fun u hu => ?_⟩
  have hagain (hcount : neckCount u.toList ≤ 1) (again : Bool) :
      ∃ v, normalize again u = .ok v := by
    cases h : normalize again u with
    | ok v => exact ⟨v, rfl⟩
    | error e =>
      have := (normalize_eq_error.mp h).2
      omega
  rcases (normalize_eq_ok.mp hu).cases_on_head with
    ⟨ht, ho⟩ | ⟨head, body, front, rest, ht, hh, hb, ho, hf, hr, htrim⟩
  · have hcount := neckCount_of_neckless ho
    refine ⟨hcount.trans (neckCount_of_neckless ht).symm, hagain (by omega),
      fun head body _ _ he => ?_⟩
    exact absurd ⟨head, body, by rw [he]; simp⟩ ht
  · have hcount : neckCount u.toList = 1 := by
      rw [ho, neckCount_divided hf, neckCount_of_neckless hr]
    refine ⟨?_, hagain (by omega), fun head' body' front' rest' ht' ho' => ?_⟩
    · rw [hcount, ht, neckCount_divided hh, neckCount_of_neckless hb]
    · rw [eq_of_divided hh hb (ht.symm.trans ht'), eq_of_divided hf hr (ho.symm.trans ho'), htrim]

theorem normalize_keeps_neck_of_sample :
    normalize true " p : \n:-\\+ q,\n\\+\\+r:-s" = .error ⟨" p : \n:-\\+ q,\n\\+\\+r:-s"⟩ ∧
    normalize true " p : \n:-\\+ q:,\n|-r." = .ok "p : :-\n\tnot(q:),\n\t, -r." ∧
    neckCount "p : :-\n\tnot(q:),\n\t, -r.".toList = neckCount " p : \n:-\\+ q:,\n|-r.".toList ∧
    Text.trim " p : \n".toList = Text.trim "p : ".toList := by
  have hnormal : normalize true " p : \n:-\\+ q:,\n|-r." = .ok "p : :-\n\tnot(q:),\n\t, -r." := by
    cbv
  obtain ⟨hcount, -, hhead⟩ := (normalize_keeps_neck true " p : \n:-\\+ q:,\n|-r.").2 _ hnormal
  have hsame := hhead " p : \n".toList "\\+ q:,\n|-r.".toList "p : ".toList
    "\n\tnot(q:),\n\t, -r.".toList (by decide) (by decide)
  exact ⟨((normalize_keeps_neck true _).1 _).mpr ⟨rfl, by decide⟩, hnormal, hcount, hsame.symm⟩

end Clausal
