import Mathlib
import Clausal.Proofs.Lines
import Clausal.Proofs.Trim

/-!
# Blocks of lines

A batch divides its lines into blocks, and skips blank lines and lines of comment
between them. Each block is one statement, so that no line is lost, taken twice or
moved. What is said of one input holds of inputs that are put together.
-/

namespace Clausal.CommandLine

open Batch

/-! ## Divisions -/

/-- A blank line or a line of comment. -/
def Idle (line : List Char) : Prop := ∀ c ∈ (Text.trim line).head?, c = '%'

/-- A period stands at the end of the line, blanks behind it aside. -/
def EndsInPeriod (line : List Char) : Prop := (Text.trim line).getLast? = some '.'

instance (line : List Char) : Decidable (EndsInPeriod line) :=
  inferInstanceAs (Decidable ((Text.trim line).getLast? = some '.'))

/-- Lines that are read as one statement. -/
structure IsBlock (block : List (List Char)) : Prop where
  front : ∃ line ∈ block.head?, ¬ Idle line
  inner : ∀ line ∈ block.dropLast, ¬ EndsInPeriod line

def IsClosed (block : List (List Char)) : Prop := ∃ line ∈ block.getLast?, EndsInPeriod line

instance (block : List (List Char)) : Decidable (IsClosed block) :=
  inferInstanceAs (Decidable (∃ line ∈ block.getLast?, EndsInPeriod line))

/-- Blocks one behind the other, with idle lines anywhere around them. All but the last one are
closed. -/
inductive Divides : List (List Char) → List (List (List Char)) → Prop
  | nil : Divides [] []
  | idle {line lines blocks} : Idle line → Divides lines blocks → Divides (line :: lines) blocks
  | closed {block lines blocks} : IsBlock block → IsClosed block → Divides lines blocks →
      Divides (block ++ lines) (block :: blocks)
  | unclosed {block} : IsBlock block → ¬ IsClosed block → Divides block [block]

/-- The statement of a block. -/
def statementOf (block : List (List Char)) : List Char := Text.trim (['\n'].intercalate block)

/-! ## Gathering -/

theorem isSkipped_iff {line : List Char} : isSkipped line = true ↔ Idle line := by
  unfold isSkipped Idle
  cases Text.trim line <;> simp

theorem endsStatement_iff {line : List Char} : endsStatement line = true ↔ EndsInPeriod line := by
  unfold endsStatement EndsInPeriod
  exact beq_iff_eq

theorem gather_append (held : List Char) (lines more : List (List Char)) :
    gather held (lines ++ more) =
      ((gather held lines).1 ++ (gather (gather held lines).2 more).1,
        (gather (gather held lines).2 more).2) := by
  induction lines generalizing held with
  | nil => rfl
  | cons line lines ih =>
    rw [List.cons_append, gather, gather]
    split
    · exact ih held
    · split
      · simp [ih]
      · exact ih _

theorem statements_eq (lines : List (List Char)) :
    statements lines = (gather [] lines).1 ++ finish (gather [] lines).2 := rfl

/-- A line that goes on with a statement, or begins one. -/
def Extends (held line : List Char) : Prop := held = [] → ¬ Idle line

section
variable {held line : List Char} (h : Extends held line)
include h

theorem hold_ne_nil : hold held line ≠ [] := by
  unfold hold
  split
  · rename_i hnil
    have hblank : Idle [] := fun _ hc => by cases hc
    intro he
    exact h hnil (he ▸ hblank)
  · simp

theorem gather_cons (lines : List (List Char)) : gather held (line :: lines) =
    if EndsInPeriod line then
      (Text.trim (hold held line) :: (gather [] lines).1, (gather [] lines).2)
    else gather (hold held line) lines := by
  have hskip : ¬ (held = [] ∧ isSkipped line = true) :=
    fun ⟨hnil, hs⟩ => h hnil (isSkipped_iff.mp hs)
  rw [gather, if_neg hskip]
  by_cases hends : EndsInPeriod line
  · rw [if_pos (endsStatement_iff.mpr hends), if_pos hends]
  · rw [if_neg fun hs => hends (endsStatement_iff.mp hs), if_neg hends]

end

/-- Lines that neither begin a new statement nor end one are held. -/
theorem gather_inner {held : List Char} {lines : List (List Char)}
    (hfront : ∀ line ∈ lines.head?, Extends held line)
    (hinner : ∀ line ∈ lines, ¬ EndsInPeriod line) :
    gather held lines = ([], lines.foldl hold held) ∧
    (lines ≠ [] → lines.foldl hold held ≠ []) := by
  induction lines generalizing held with
  | nil => exact ⟨rfl, fun h => absurd rfl h⟩
  | cons line lines ih =>
    have hline := hfront line rfl
    have hne := hold_ne_nil hline
    have hfront : ∀ l ∈ lines.head?, Extends (hold held line) l :=
      fun _ _ hnil => absurd hnil hne
    obtain ⟨hgather, hlater⟩ := ih hfront fun l hl => hinner l (by simp [hl])
    rw [gather_cons hline, if_neg (hinner line (by simp)), List.foldl_cons]
    refine ⟨hgather, fun _ => ?_⟩
    cases lines with
    | nil => exact hne
    | cons l ls => exact hlater (by simp)

theorem foldl_hold {held : List Char} (hne : held ≠ []) (lines : List (List Char)) :
    lines.foldl hold held = ['\n'].intercalate (held :: lines) := by
  induction lines generalizing held with
  | nil => simp
  | cons line lines ih =>
    have hhold : hold held line = held ++ '\n' :: line := if_neg hne
    rw [List.foldl_cons, hhold, ih (by simp), List.intercalate_cons_cons]
    cases lines <;> simp [List.intercalate_cons_cons]

section
variable {block : List (List Char)} (h : IsBlock block)
include h

theorem IsBlock.foldl_hold : block.foldl hold [] = ['\n'].intercalate block := by
  obtain ⟨line, hline, hidle⟩ := h.front
  cases block with
  | nil => cases hline
  | cons first lines =>
    have he : first = line := Option.some.inj hline
    have hne : first ≠ [] := by
      intro hnil
      rw [← he, hnil] at hidle
      exact hidle fun _ hc => by cases hc
    have hfirst : hold [] first = first := if_pos rfl
    rw [List.foldl_cons, hfirst, CommandLine.foldl_hold hne]

theorem IsBlock.extends_front : ∀ line ∈ block.head?, Extends [] line := by
  obtain ⟨line, hline, hidle⟩ := h.front
  intro l hl _
  rw [Option.mem_def.mp hline, Option.mem_def, Option.some.injEq] at hl
  exact hl ▸ hidle

theorem IsBlock.gather_closed (hc : IsClosed block) :
    gather [] block = ([statementOf block], []) := by
  obtain ⟨last, hlast, hends⟩ := hc
  obtain ⟨lines, he⟩ := List.getLast?_eq_some_iff.mp hlast
  have hinner := h.inner
  have hfront := h.extends_front
  have htext := h.foldl_hold
  rw [he, List.dropLast_concat] at hinner
  rw [he, List.head?_append] at hfront
  have hbegin : ∀ line ∈ lines.head?, Extends [] line :=
    fun line hline => hfront line (by rw [Option.mem_def.mp hline]; rfl)
  obtain ⟨hgather, hne⟩ := gather_inner hbegin hinner
  have hextends : Extends (lines.foldl hold []) last := by
    intro hnil
    cases lines with
    | nil => exact hfront last rfl rfl
    | cons line lines => exact absurd hnil (hne (by simp))
  have hlines : hold (lines.foldl hold []) last = ['\n'].intercalate block := by
    rw [← htext, he, List.foldl_append]
    rfl
  conv => lhs; rw [he]
  rw [gather_append, hgather, gather_cons hextends, if_pos hends, hlines]
  rfl

theorem IsBlock.gather_unclosed (hc : ¬ IsClosed block) :
    gather [] block = ([], ['\n'].intercalate block) := by
  have hinner : ∀ line ∈ block, ¬ EndsInPeriod line := by
    intro line hline hends
    obtain ⟨last, hlast⟩ : ∃ last, block.getLast? = some last :=
      ⟨_, List.getLast?_eq_some_getLast (List.ne_nil_of_mem hline)⟩
    obtain ⟨lines, he⟩ := List.getLast?_eq_some_iff.mp hlast
    rw [he, List.mem_append, List.mem_singleton] at hline
    rcases hline with hline | hline
    · exact h.inner line (by rw [he, List.dropLast_concat]; exact hline) hends
    · exact hc ⟨last, hlast, hline ▸ hends⟩
  rw [(gather_inner h.extends_front hinner).1, h.foldl_hold]

/-- A block is not blank. -/
theorem IsBlock.finish_eq : finish (['\n'].intercalate block) = [statementOf block] := by
  obtain ⟨line, hline, hidle⟩ := h.front
  have hne : statementOf block ≠ [] := by
    intro hnil
    obtain ⟨lines, he⟩ := List.head?_eq_some_iff.mp hline
    have hblank := Text.trim_eq_nil.mp hnil
    have hfirst : ∀ c ∈ line, Text.isBlank c = true := by
      intro c hc
      refine hblank c ?_
      rw [he]
      cases lines with
      | nil => simpa using hc
      | cons l ls => rw [List.intercalate_cons_cons]; simp [hc]
    exact hidle fun c hc => by rw [Text.trim_eq_nil.mpr hfirst] at hc; cases hc
  unfold finish
  split
  · rename_i hnil
    exact absurd hnil hne
  · rfl

end

/-! ## What is evaluated -/

/-- The statements of a batch are its blocks. Those that are closed are complete before the input
ends. -/
theorem Divides.gather_eq {lines : List (List Char)} {blocks : List (List (List Char))}
    (h : Divides lines blocks) :
    (gather [] lines).1 = (blocks.filter (IsClosed ·)).map statementOf ∧
    statements lines = blocks.map statementOf ∧
    ((∀ block ∈ blocks.getLast?, IsClosed block) → (gather [] lines).2 = []) := by
  induction h with
  | nil => exact ⟨rfl, rfl, fun _ => rfl⟩
  | @idle line lines _ hidle _ ih =>
    have hskip : gather [] (line :: lines) = gather [] lines :=
      if_pos ⟨rfl, isSkipped_iff.mpr hidle⟩
    rw [statements_eq] at ih ⊢
    rw [hskip]
    exact ih
  | @closed block lines blocks hb hc _ ih =>
    obtain ⟨hcomplete, hall, hleft⟩ := ih
    rw [statements_eq] at hall ⊢
    rw [gather_append, hb.gather_closed hc]
    refine ⟨?_, ?_, fun hlast => hleft fun b hmem => hlast b ?_⟩
    · rw [List.filter_cons_of_pos (by simpa using hc), List.map_cons, ← hcomplete]
      rfl
    · rw [List.map_cons, ← hall]
      rfl
    · rw [List.getLast?_cons, Option.mem_def.mp hmem]
      rfl
  | @unclosed block hb hc =>
    rw [statements_eq, hb.gather_unclosed hc]
    refine ⟨?_, ?_, fun hlast => absurd (hlast block rfl) hc⟩
    · rw [List.filter_cons_of_neg (by simpa using hc)]
      rfl
    · exact hb.finish_eq

/-- Every input has a division. -/
theorem exists_divides (lines : List (List Char)) : ∃ blocks, Divides lines blocks := by
  generalize hn : lines.length = n
  induction n using Nat.strongRecOn generalizing lines with
  | ind n ih =>
    cases lines with
    | nil => exact ⟨[], .nil⟩
    | cons line lines =>
      rw [List.length_cons] at hn
      by_cases hidle : Idle line
      · obtain ⟨blocks, hb⟩ := ih lines.length (by omega) lines rfl
        exact ⟨blocks, .idle hidle hb⟩
      · -- the block goes on to the first line with a period at its end
        cases hfind : (line :: lines).find? (EndsInPeriod ·) with
        | none =>
          have hinner : ∀ l ∈ line :: lines, ¬ EndsInPeriod l := fun l hl hends => by
            simpa [hends] using List.find?_eq_none.mp hfind l hl
          refine ⟨[line :: lines], .unclosed ⟨⟨line, rfl, hidle⟩,
            fun l hl => hinner l ((List.dropLast_sublist _).subset hl)⟩ ?_⟩
          exact fun ⟨last, hlast, hends⟩ => hinner last (List.mem_of_getLast? hlast) hends
        | some last =>
          obtain ⟨hends, front, rest, hsplit, hinner⟩ := List.find?_eq_some_iff_append.mp hfind
          have hlen := congrArg List.length hsplit
          rw [List.length_cons, List.length_append, List.length_cons] at hlen
          obtain ⟨blocks, hb⟩ := ih rest.length (by omega) rest rfl
          have hfront : ∃ l ∈ (front ++ [last]).head?, ¬ Idle l := by
            refine ⟨line, ?_, hidle⟩
            cases front with
            | nil => exact congrArg List.head? hsplit.symm
            | cons l front => exact congrArg List.head? hsplit.symm
          have hblock : IsBlock (front ++ [last]) :=
            ⟨hfront, fun l hl => by rw [List.dropLast_concat] at hl; simpa using hinner l hl⟩
          have hdivides := Divides.closed hblock ⟨last, by simp, by simpa using hends⟩ hb
          rw [List.append_assoc, List.cons_append, List.nil_append, ← hsplit] at hdivides
          exact ⟨_, hdivides⟩

theorem present_append {α : Type} (xs : List α) (ys : List (Option α)) :
    present (xs.map some ++ ys) = (xs ++ (present ys).1, (present ys).2) := by
  induction xs with
  | nil => rfl
  | cons x xs ih => rw [List.map_cons, List.cons_append, present, ih]; rfl

theorem present_some {α : Type} (xs : List α) : present (xs.map some) = (xs, true) := by
  have hpresent : present (xs.map some ++ []) = (xs ++ [], true) := present_append xs []
  rwa [List.append_nil, List.append_nil] at hpresent

/-- An input that is cut where a line ends. -/
theorem byteLines_append_of_line {bytes : List UInt8} (h : ∀ b ∈ bytes.getLast?, b = 10)
    (more : List UInt8) :
    byteLines (bytes ++ more) = byteLines bytes ++ byteLines more := by
  induction bytes with
  | nil => rfl
  | cons b bytes ih =>
    rw [List.cons_append, byteLines_cons, byteLines_cons]
    cases bytes with
    | nil =>
      have hb : b = 10 := h b rfl
      rw [if_pos hb, if_pos hb]
      rfl
    | cons c bytes =>
      rw [ih fun d hd => h d (by rw [List.getLast?_cons, Option.mem_def.mp hd]; rfl)]
      have hne : byteLines (c :: bytes) ≠ [] := by
        rw [byteLines_cons]
        cases byteLines bytes <;> split <;> simp [lead]
      obtain ⟨line, lines, hl⟩ := List.exists_cons_of_ne_nil hne
      rw [hl]
      split <;> rfl

theorem respondAll_append (options : Options) (ss ts : List (List Char)) :
    respondAll options (ss ++ ts) = respondAll options ss ++ respondAll options ts := by
  unfold respondAll
  rw [List.map_append, String.join_append]

/-- **Blocks.** The lines of a batch divide into blocks, which are its statements in their order. If
a line cannot be read, those that are closed before it are evaluated, and no others. Behind a closed
block an input may be cut, and what is printed for it is cut there too. -/
theorem batch_evaluates_blocks (options : Options) (lines : List (List Char)) :
    (∃ blocks, Divides lines blocks) ∧ ∀ blocks, Divides lines blocks →
      statements lines = blocks.map statementOf ∧
      transcript options (lines.map some) = (respondAll options (blocks.map statementOf), true) ∧
      (∀ rest, transcript options (lines.map some ++ none :: rest) =
        (respondAll options ((blocks.filter (IsClosed ·)).map statementOf), false)) ∧
      ((∀ block ∈ blocks.getLast?, IsClosed block) →
        (∀ more, transcript options (lines.map some ++ more) =
          (respondAll options (blocks.map statementOf) ++ (transcript options more).1,
            (transcript options more).2)) ∧
        ∀ bytes more, batchLines bytes = lines.map some → (∀ b ∈ bytes.getLast?, b = 10) →
          Run.ofBatch options (bytes ++ more) =
            ⟨(Run.ofBatch options bytes).output ++ (Run.ofBatch options more).output,
              (Run.ofBatch options more).exitCode⟩) := by
  refine ⟨exists_divides lines, fun blocks h => ?_⟩
  obtain ⟨hcomplete, hall, hleft⟩ := h.gather_eq
  have hwhole : transcript options (lines.map some) =
      (respondAll options (blocks.map statementOf), true) := by
    unfold transcript
    rw [present_some]
    simp only [hall]
  have hcut (hclosed : ∀ block ∈ blocks.getLast?, IsClosed block) (more) :
      transcript options (lines.map some ++ more) =
        (respondAll options (blocks.map statementOf) ++ (transcript options more).1,
          (transcript options more).2) := by
    have hempty := hleft hclosed
    have hstatements : (gather [] lines).1 = blocks.map statementOf := by
      rw [← hall, statements_eq, hempty]
      exact (List.append_nil _).symm
    unfold transcript
    rw [present_append]
    cases present more with
    | mk present whole =>
      cases whole with
      | true =>
        simp only [statements_eq, gather_append, hempty, hstatements, respondAll_append,
          List.append_assoc]
      | false => simp only [gather_append, hempty, hstatements, respondAll_append]
  refine ⟨hall, hwhole, fun rest => ?_,
    fun hclosed => ⟨hcut hclosed, fun bytes more hb hend => ?_⟩⟩
  · unfold transcript
    rw [present_append]
    simp only [present, List.append_nil, hcomplete]
  · have hlines : batchLines (bytes ++ more) = lines.map some ++ batchLines more := by
      rw [← hb]
      unfold batchLines
      rw [byteLines_append_of_line hend, List.map_append]
    unfold Run.ofBatch
    rw [hlines, hcut hclosed, hb, hwhole]

theorem batch_evaluates_blocks_of_sample :
    statements ["% p.".toList, "p :-".toList, " q. ".toList] = ["p :-\n q.".toList] ∧
    transcript ⟨.normalize, false, false, false, none⟩
      [some "% p.".toList, some "p :-".toList, some " q. ".toList, none] = ("p :- q.\n", false) ∧
    Run.ofBatch ⟨.normalize, false, false, false, none⟩
      (encode "% p.\np :-\n q. \n".toList ++ encode "r".toList) = ⟨"p :- q.\nr.\n", 0⟩ := by
  have hdivides : Divides ["% p.".toList, "p :-".toList, " q. ".toList]
      [["p :-".toList, " q. ".toList]] := by
    have hblock : IsBlock ["p :-".toList, " q. ".toList] :=
      ⟨⟨_, rfl, fun h => absurd (h 'p' (by decide)) (by decide)⟩, by decide⟩
    refine .idle (fun c hc => ?_) (.closed hblock (by decide) .nil)
    exact (Option.some.inj hc).symm
  obtain ⟨hstatements, -, hunread, hcut⟩ :=
    (batch_evaluates_blocks ⟨.normalize, false, false, false, none⟩
      ["% p.".toList, "p :-".toList, " q. ".toList]).2 _ hdivides
  refine ⟨hstatements.trans (by decide), (hunread []).trans (by cbv), ?_⟩
  have hlines : batchLines (encode "% p.\np :-\n q. \n".toList) =
      ["% p.".toList, "p :-".toList, " q. ".toList].map some := by
    rw [batchLines_encode]
    decide
  have hend : (encode "% p.\np :-\n q. \n".toList).getLast? = some 10 := by cbv
  rw [(hcut (by decide)).2 _ _ hlines fun b hb => Option.some.inj (hb.symm.trans hend)]
  cbv

end Clausal.CommandLine
