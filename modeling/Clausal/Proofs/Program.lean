import Clausal.Proofs.Blocks
import Clausal.Proofs.EntryPoints
import Clausal.Proofs.Layout
import Clausal.Proofs.Outline

/-!
# Batches of rules

A program is written rule by rule, each on one line or laid out, with blank lines
and lines of comment anywhere around. Every rule is gathered from its own lines
and from nothing else, so a batch prints the rules of the program in their order.
-/

namespace Clausal

open Lexeme

/-! ## Line feeds -/

theorem Atom.WellFormed.no_feed {a : Atom} (h : a.WellFormed) : '\n' ∉ a.chars := by
  have hname : ∀ w, isLowerName w = true ∨ isUpperName w = true → IsToken w
    | _, .inl hw => .lower hw
    | _, .inr hw => .upper hw
  have hout := h.outline hname fun c _ hc => (hc.token follows_nil).1.isToken
  exact fun hmem => hout.all (fun _ hw => hw.no_feed) (by decide) _ hmem rfl

theorem Body.WellFormed.no_feed {b : Body} (h : b.WellFormed) : '\n' ∉ b.chars := by
  induction h with
  | atom ha => exact ha.no_feed
  | conj _ _ ihl ihr => simp [Body.chars, ihl, ihr]
  | neg _ ih => simp [Body.chars, ih]

namespace CommandLine

open Batch

/-! ## Programs -/

/-- A line that is skipped, or a rule on one line or laid out. -/
inductive Entry
  | skipped (line : List Char)
  | text (r : Rule)
  | layout (r : Rule) (indent : Nat)

namespace Entry

def chars : Entry → List Char
  | skipped line => line
  | text r => r.chars
  | layout r indent => r.layoutChars indent

def rules : Entry → List Rule
  | skipped _ => []
  | text r => [r]
  | layout r _ => [r]

/-- A skipped line is blank or begins with a percent sign, blanks in front aside. -/
inductive WellFormed : Entry → Prop
  | skipped {line} : '\n' ∉ line → (∀ c ∈ (Text.trim line).head?, c = '%') →
      WellFormed (.skipped line)
  | text {r} : r.WellFormed → WellFormed (.text r)
  | layout {r indent} : r.WellFormed → WellFormed (.layout r indent)

end Entry

/-- The entries one below the other. -/
def programChars (entries : List Entry) : List Char := ['\n'].intercalate (entries.map Entry.chars)

/-! ## Lines of statements -/

def textLines (cs : List Char) : List (List Char) := (charLines cs).map dropLineEnd

/-- The lines of one statement: only the last one ends in a period. -/
inductive IsStatement : List (List Char) → Prop
  | last {w} : '\n' ∉ w → IsStatement [w ++ ['.']]
  | more {w c lines} : '\n' ∉ w → c ∈ ['-', ','] → IsStatement lines →
      IsStatement ((w ++ [c]) :: lines)

theorem isSkipped_cons {c : Char} (hb : Text.isBlank c = false) (hc : c ≠ '%')
    (line : List Char) :
    isSkipped (c :: line) = false := by
  unfold isSkipped
  rw [Text.trim_cons hb]
  simpa using hc

theorem endsStatement_concat {c : Char} (hb : Text.isBlank c = false) (line : List Char) :
    endsStatement (line ++ [c]) = (c == '.') := by
  unfold endsStatement
  rw [Text.trim_concat hb, List.getLast?_concat]
  rfl

/-- What stands behind an entry: nothing, or a line feed and more. -/
def EndsLine (tail : List Char) : Prop := ∀ c ∈ tail.head?, c = '\n'

theorem textLines_concat {line : List Char} {c : Char} (h : '\n' ∉ line)
    (hc : c ∈ ['-', ',', '.']) {tail : List Char} (ht : EndsLine tail) :
    textLines (line ++ [c] ++ tail) = (line ++ [c]) :: textLines tail.tail := by
  have hn : c ≠ '\n' := by intro he; subst he; revert hc; decide
  have hr : c ≠ '\r' := by intro he; subst he; revert hc; decide
  have hline : '\n' ∉ line ++ [c] := by simp [h, hn.symm]
  unfold textLines
  cases tail with
  | nil =>
    rw [List.append_nil, charLines_last hline (by simp)]
    simp only [List.map_cons, (dropLineEnd_concat hn hr).1]
    rfl
  | cons d rest =>
    have hd : d = '\n' := ht d rfl
    subst hd
    rw [charLines_cons hline, List.map_cons, (dropLineEnd_concat hn hr).2]
    rfl

theorem IsStatement.intercalate_cons {lines : List (List Char)} (h : IsStatement lines)
    (line : List Char) :
    ['\n'].intercalate (line :: lines) = line ++ '\n' :: ['\n'].intercalate lines := by
  cases h with
  | last _ => simp [List.intercalate_cons_cons]
  | more _ _ _ => simp [List.intercalate_cons_cons]

section
variable {lines : List (List Char)} (h : IsStatement lines)
include h

theorem textLines_of_statement {tail : List Char} (ht : EndsLine tail) :
    textLines (['\n'].intercalate lines ++ tail) = lines ++ textLines tail.tail := by
  induction h with
  | last hw => simpa using textLines_concat hw (by simp) ht
  | @more w c lines hw hc hl ih =>
    have hends : EndsLine ('\n' :: (['\n'].intercalate lines ++ tail)) := by simp [EndsLine]
    rw [hl.intercalate_cons, List.append_assoc, List.cons_append,
      textLines_concat hw (by grind) hends, List.tail_cons, ih]
    rfl

/-- The lines of a statement are a closed block, if the first one is not skipped. -/
theorem IsStatement.closed :
    (∀ line ∈ lines.dropLast, ¬ EndsInPeriod line) ∧ IsClosed lines := by
  induction h with
  | @last w hw => exact ⟨by simp, _, rfl, endsStatement_iff.mp (endsStatement_concat rfl w)⟩
  | @more w c lines hw hc hl ih =>
    obtain ⟨hinner, last, hlast, hends⟩ := ih
    have hline : ¬ EndsInPeriod (w ++ [c]) := by
      simp only [List.mem_cons, List.not_mem_nil, or_false] at hc
      intro he
      rcases hc with hc | hc
      all_goals
        subst hc
        have := endsStatement_iff.mpr he
        rw [endsStatement_concat rfl] at this
        cases this
    obtain ⟨line, rest, he⟩ :=
      List.exists_cons_of_ne_nil (show lines ≠ [] by rintro rfl; cases hlast)
    rw [he] at hinner hlast
    rw [he, List.dropLast_cons_of_ne_nil (by simp)]
    exact ⟨List.forall_mem_cons.mpr ⟨hline, hinner⟩, last,
      by rw [List.getLast?_cons_cons]; exact hlast, hends⟩

end

theorem IsStatement.exists_period {lines : List (List Char)} (h : IsStatement lines) :
    ∃ u, ['\n'].intercalate lines = u ++ ['.'] := by
  induction h with
  | @last w _ => exact ⟨w, by simp⟩
  | @more w c lines _ _ hl ih =>
    obtain ⟨u, hu⟩ := ih
    exact ⟨w ++ [c] ++ '\n' :: u, by rw [hl.intercalate_cons, hu]; simp⟩

theorem IsStatement.of_head {lines : List (List Char)} (h : IsStatement lines) {line : List Char}
    (hline : line ∈ lines.head?) :
    line ≠ [] ∧ ∃ t, ['\n'].intercalate lines = line ++ t := by
  cases h with
  | last _ =>
    have he := Option.some.inj hline
    subst he
    exact ⟨by simp, [], by simp⟩
  | more _ _ hl =>
    have he := Option.some.inj hline
    subst he
    exact ⟨by simp, _, hl.intercalate_cons _⟩

/-- A statement is gathered from its lines, where none has begun before. -/
theorem gather_from_start {lines : List (List Char)} (h : IsStatement lines) {c : Char}
    {v : List Char} (hb : Text.isBlank c = false) (hc : c ≠ '%')
    (he : ['\n'].intercalate lines = c :: v) (rest : List (List Char)) :
    gather [] (lines ++ rest) =
      (['\n'].intercalate lines :: (gather [] rest).1, (gather [] rest).2) := by
  have hfirst : ∀ line ∈ lines.head?, isSkipped line = false := by
    intro line hline
    obtain ⟨hne, t, ht⟩ := h.of_head hline
    obtain ⟨d, u, hline⟩ := List.exists_cons_of_ne_nil hne
    rw [ht, hline, List.cons_append, List.cons.injEq] at he
    rw [hline, he.1]
    exact isSkipped_cons hb hc u
  have htrim : Text.trim (['\n'].intercalate lines) = ['\n'].intercalate lines := by
    obtain ⟨u, hu⟩ := h.exists_period
    refine Text.Trimmed.trim_eq ⟨?_, ?_⟩
    · rw [he]; exact stops_cons.mpr hb
    · rw [hu, List.reverse_concat]; exact stops_cons.mpr rfl
  obtain ⟨hinner, hclosed⟩ := h.closed
  have hblock : IsBlock lines := by
    obtain ⟨last, hlast, -⟩ := hclosed
    obtain ⟨line, rest, hl⟩ :=
      List.exists_cons_of_ne_nil (show lines ≠ [] by rintro rfl; cases hlast)
    refine ⟨⟨line, by rw [hl]; rfl, fun hidle => ?_⟩, hinner⟩
    have := hfirst line (by rw [hl]; rfl)
    rw [isSkipped_iff.mpr hidle] at this
    cases this
  rw [gather_append, hblock.gather_closed hclosed, statementOf, htrim]
  rfl

/-! ## Lines of rules -/

def literalRows (indent : Nat) : List Body → List (List Char)
  | [] => []
  | [b] => [List.replicate indent ' ' ++ b.chars ++ ['.']]
  | b :: bs => (List.replicate indent ' ' ++ b.chars ++ [',']) :: literalRows indent bs

theorem isStatement_literalRows (indent : Nat) {l : Body} {ls : List Body}
    (h : ∀ m ∈ l :: ls, m.WellFormed) :
    IsStatement (literalRows indent (l :: ls)) ∧
    ['\n'].intercalate (literalRows indent (l :: ls)) = Rule.literalLines indent (l :: ls) := by
  have hfeed {m : Body} (hm : m.WellFormed) : '\n' ∉ List.replicate indent ' ' ++ m.chars := by
    simp [hm.no_feed]
  induction ls generalizing l with
  | nil => exact ⟨.last (hfeed (h l (by simp))), by simp [literalRows, Rule.literalLines]⟩
  | cons m ms ih =>
    obtain ⟨hs, he⟩ := ih fun k hk => h k (List.mem_cons_of_mem _ hk)
    refine ⟨.more (hfeed (h l (by simp))) (by simp) hs, ?_⟩
    unfold literalRows Rule.literalLines
    rw [hs.intercalate_cons, he]
    simp

def layoutRows (r : Rule) (indent : Nat) : List (List Char) :=
  (r.head.chars ++ [' ', ':'] ++ ['-']) :: literalRows indent r.body.literals

section
variable {r : Rule} (h : r.WellFormed)
include h

theorem isStatement_text : IsStatement [r.chars] := by
  have hchars : r.chars = (r.head.chars ++ ' ' :: ':' :: '-' :: ' ' :: r.body.chars) ++ ['.'] := by
    simp [Rule.chars]
  rw [hchars]
  exact .last (by simp [h.head.no_feed, h.body.no_feed])

theorem isStatement_layout (indent : Nat) : IsStatement (layoutRows r indent) ∧
    ['\n'].intercalate (layoutRows r indent) = r.layoutChars indent := by
  obtain ⟨l, ls, hl⟩ := r.body.exists_literals
  obtain ⟨hs, he⟩ := isStatement_literalRows indent fun m hm => h.body.of_mem (hl ▸ hm)
  unfold layoutRows Rule.layoutChars
  rw [hl]
  refine ⟨.more (by simp [h.head.no_feed]) (by simp) hs, ?_⟩
  rw [hs.intercalate_cons, he]
  simp

end

/-- The statements that the entry completes. -/
def Entry.statements : Entry → List (List Char)
  | skipped _ => []
  | text r => [r.chars]
  | layout r indent => [r.layoutChars indent]

section
variable {r : Rule} (h : r.WellFormed)
include h

theorem gather_rule {lines : List (List Char)} (hl : IsStatement lines) {w : List Char}
    (he : ['\n'].intercalate lines = r.head.chars ++ w) {tail : List Char} (ht : EndsLine tail) :
    gather [] (textLines (['\n'].intercalate lines ++ tail)) =
      (['\n'].intercalate lines :: (gather [] (textLines tail.tail)).1,
        (gather [] (textLines tail.tail)).2) := by
  obtain ⟨c, v, hfront, hc⟩ := h.head.exists_front
  have hpercent : c ≠ '%' := by intro hp; subst hp; cases hc
  rw [hfront, List.cons_append] at he
  rw [textLines_of_statement hl ht]
  exact gather_from_start hl (Text.isBlank_of_isNameChar (isNameChar_of_isLower c hc)) hpercent he _

end

theorem trim_dropLineEnd (cs : List Char) : Text.trim (dropLineEnd cs) = Text.trim cs := by
  have hback : cs = cs.reverse.reverse := (List.reverse_reverse cs).symm
  unfold dropLineEnd
  split
  · rename_i rest he
    rw [hback, he, List.reverse_cons, List.reverse_cons, List.append_assoc]
    exact (Text.trim_append_blanks (by decide) _).symm
  · rename_i rest _ he
    rw [hback, he, List.reverse_cons]
    exact (Text.trim_append_blanks (by decide) _).symm
  · rfl

theorem gather_skipped {line : List Char} (hn : '\n' ∉ line)
    (hs : ∀ c ∈ (Text.trim line).head?, c = '%') {tail : List Char} (ht : EndsLine tail) :
    gather [] (textLines (line ++ tail)) = gather [] (textLines tail.tail) := by
  have hskip {row : List Char} (hr : Text.trim row = Text.trim line) :
      isSkipped (dropLineEnd row) = true := by
    unfold isSkipped
    rw [trim_dropLineEnd, hr]
    split
    · rfl
    · rename_i c _ he
      have := hs c (by simp [he])
      simpa using this
  unfold textLines
  cases tail with
  | nil =>
    rw [List.append_nil]
    by_cases hne : line = []
    · subst hne
      rfl
    · rw [charLines_last hn hne, List.map_singleton, gather, if_pos ⟨rfl, hskip rfl⟩]
      rfl
  | cons d rest =>
    have hd : d = '\n' := ht d rfl
    subst hd
    rw [charLines_cons hn, List.map_cons, gather,
      if_pos ⟨rfl, hskip (Text.trim_append_blanks (by decide) line)⟩]
    rfl

/-- What one entry adds to the statements that are gathered. -/
theorem gather_entry {e : Entry} (h : e.WellFormed) {tail : List Char} (ht : EndsLine tail) :
    gather [] (textLines (e.chars ++ tail)) =
      (e.statements ++ (gather [] (textLines tail.tail)).1,
        (gather [] (textLines tail.tail)).2) := by
  cases h with
  | skipped hn hs => exact gather_skipped hn hs ht
  | @text r h =>
    have hchars : ['\n'].intercalate [r.chars] = r.chars := List.intercalate_singleton
    have hfront : ['\n'].intercalate [r.chars] =
        r.head.chars ++ (' ' :: ':' :: '-' :: ' ' :: r.body.chars ++ ['.']) := by
      rw [hchars, Rule.chars, List.append_assoc]
    have hgather := gather_rule h (isStatement_text h) hfront ht
    rw [hchars] at hgather
    exact hgather
  | @layout r indent h =>
    obtain ⟨hs, he⟩ := isStatement_layout h indent
    have hgather := gather_rule h hs he ht
    rw [he] at hgather
    exact hgather

theorem gather_program {entries : List Entry} (h : ∀ e ∈ entries, e.WellFormed) :
    gather [] (textLines (programChars entries)) = (entries.flatMap Entry.statements, []) := by
  unfold programChars
  induction entries with
  | nil => rfl
  | cons e entries ih =>
    have hlater := ih fun f hf => h f (by simp [hf])
    cases entries with
    | nil =>
      have hgather := gather_entry (h e (by simp)) (by simp [EndsLine] : EndsLine [])
      rw [List.append_nil] at hgather
      simpa [textLines, charLines, gather] using hgather
    | cons f entries =>
      have hends : EndsLine ('\n' :: ['\n'].intercalate ((f :: entries).map Entry.chars)) := by
        simp [EndsLine]
      have hgather := gather_entry (h e (by simp)) hends
      rw [List.tail_cons, hlater] at hgather
      rw [List.map_cons, List.map_cons, List.intercalate_cons_cons]
      simpa using hgather

/-! ## What is printed -/

def printed (options : Options) (r : Rule) : String :=
  (if options.multiline then r.layout 4 else r.text) ++ "\n"

section
variable {options : Options} (hn : options.normalize = false) (hv : options.verbose = false)
include hn

theorem respond_parsed {kind : Kind} (hm : options.mode = .parse kind) {cs : List Char}
    {c : Construct} (h : Construct.parse kind (String.ofList cs) = .ok c) :
    respond options cs = (Outcome.ofConstruct options.multiline c).written options.verbose := by
  have he : evaluate options (String.ofList cs) = .ok (.ofConstruct options.multiline c) := by
    unfold evaluate
    rw [hm]
    simp only [hn, Bool.false_eq_true, ite_false]
    show (Construct.parse kind (String.ofList cs)).bind _ = _
    rw [h]
    rfl
  unfold respond
  rw [he]

include hv in
theorem respond_rule (hm : options.mode = .parse .rule ∨ options.mode = .parse .formula)
    {r : Rule} {cs : List Char} (h : Rule.parse (String.ofList cs) = .ok r.leftNested) :
    respond options cs = printed options r := by
  have hwritten {c : Construct} (hc : c.rule? = some r.leftNested)
      (ht : c.text = r.leftNested.text) :
      (Outcome.ofConstruct options.multiline c).written options.verbose = printed options r := by
    unfold Outcome.written Outcome.ofConstruct Construct.layout? printed
    rw [hc, ht, hv, Rule.text_leftNested]
    simp [Rule.layout_leftNested]
  rcases hm with hm | hm
  · have hc : Construct.parse .rule (String.ofList cs) = .ok (.rule r.leftNested) := by
      unfold Construct.parse
      rw [h]
      rfl
    rw [respond_parsed hn hm hc, hwritten rfl rfl]
  · have hf : Formula.parse (String.ofList cs) = .ok (.rule r.leftNested) :=
      Formula.parse_iff.mpr (takes_formula_rule.mpr (Rule.parse_iff.mp h))
    have hc : Construct.parse .formula (String.ofList cs) =
        .ok (.formula (.rule r.leftNested)) := by
      unfold Construct.parse
      rw [hf]
      rfl
    rw [respond_parsed hn hm hc, hwritten rfl rfl]

include hv in
theorem respond_entry (hm : options.mode = .parse .rule ∨ options.mode = .parse .formula)
    {e : Entry} (h : e.WellFormed) :
    e.statements.map (respond options) = e.rules.map (printed options) := by
  cases h with
  | skipped _ _ => rfl
  | text h => exact congrArg (fun s => [s]) (respond_rule hn hv hm h.parse_text)
  | layout h => exact congrArg (fun s => [s]) (respond_rule hn hv hm (h.parse_layout _))

end

/-- **Batches print what they parse.** A program of well-formed rules, each in its canonical text or
in any layout, with skipped lines anywhere, is answered with the rules in their order. -/
theorem batch_prints_rules {options : Options}
    (hm : options.mode = .parse .rule ∨ options.mode = .parse .formula)
    (hn : options.normalize = false) (hv : options.verbose = false) {entries : List Entry}
    (h : ∀ e ∈ entries, e.WellFormed) :
    Run.ofBatch options (String.ofList (programChars entries)).toUTF8.data.toList =
      ⟨String.join ((entries.flatMap Entry.rules).map (printed options)), 0⟩ := by
  have hlines : batchLines (String.ofList (programChars entries)).toUTF8.data.toList =
      (textLines (programChars entries)).map some := by
    rw [encode_toUTF8, String.toList_ofList, batchLines_encode]
    rfl
  have hstatements : statements (textLines (programChars entries)) =
      entries.flatMap Entry.statements := by
    unfold statements
    rw [gather_program h]
    exact List.append_nil _
  have hanswers : (entries.flatMap Entry.statements).map (respond options) =
      (entries.flatMap Entry.rules).map (printed options) := by
    rw [List.map_flatMap, List.map_flatMap, List.flatMap_def, List.flatMap_def,
      List.map_congr_left fun e he => respond_entry hn hv hm (h e he)]
  unfold Run.ofBatch transcript respondAll
  rw [hlines, present_some]
  simp only [hstatements, hanswers]
  rfl

theorem batch_prints_rules_of_sample :
    Run.ofBatch ⟨.parse .rule, false, false, false, none⟩ (String.ofList (programChars
      [.skipped ['%', ' ', 'p', '.'], .layout ⟨⟨"p", []⟩,
        .conj (.atom ⟨"q", []⟩) (.neg (.atom ⟨"r", []⟩))⟩ 2, .skipped [' '],
        .text ⟨⟨"q", []⟩, .atom ⟨"r", [.var "X"]⟩⟩])).toUTF8.data.toList =
      ⟨"p :- q, not(r).\nq :- r(X).\n", 0⟩ := by
  have hp : Atom.WellFormed ⟨"p", []⟩ := ⟨by decide, by decide, by simp⟩
  have hq : Atom.WellFormed ⟨"q", []⟩ := ⟨by decide, by decide, by simp⟩
  have hr : Atom.WellFormed ⟨"r", []⟩ := ⟨by decide, by decide, by simp⟩
  have hrx : Atom.WellFormed ⟨"r", [.var "X"]⟩ :=
    ⟨by decide, by decide, List.forall_mem_cons.mpr ⟨.var (by decide), by simp⟩⟩
  have hcomment : ∀ c ∈ (Text.trim ['%', ' ', 'p', '.']).head?, c = '%' :=
    fun c hc => (Option.some.inj hc).symm
  have hblank : ∀ c ∈ (Text.trim [' ']).head?, c = '%' := by
    intro c hc
    have hnone : (Text.trim [' ']).head? = none := by decide
    rw [hnone] at hc
    cases hc
  rw [batch_prints_rules (.inl rfl) rfl rfl]
  · rfl
  · refine List.forall_mem_cons.mpr
      ⟨.skipped (by decide) hcomment, List.forall_mem_cons.mpr ⟨?_, ?_⟩⟩
    · exact .layout ⟨hp, .conj (.atom hq) (.neg (.atom hr))⟩
    · exact List.forall_mem_cons.mpr ⟨.skipped (by decide) hblank, List.forall_mem_cons.mpr
        ⟨.text ⟨hq, .atom hrx⟩, by simp⟩⟩

end CommandLine

end Clausal
