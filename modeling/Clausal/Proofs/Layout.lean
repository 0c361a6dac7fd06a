import Clausal.Proofs.FormulaText
import Clausal.Proofs.Parse

/-!
# Layouts of rules

The canonical text of a rule and its layouts are spreads of the rule: they differ
in the gaps between its literals only. Every spread is parsed as the rule, with
its conjunctions nested to the left, and the nesting shows in no spread.
-/

namespace Clausal

open Reader Reader.Unbounded

/-! ## Spreads -/

namespace Body

/-- The literals of a body with commas between them and a gap behind each comma. -/
def spreadChars (gap : List Char) (b : Body) : List Char :=
  match b.literals with
  | [] => []
  | l :: ls => l.chars ++ moreChars gap ls

theorem spreadChars_eq {b l : Body} {ls : List Body} (h : b.literals = l :: ls) (gap : List Char) :
    b.spreadChars gap = l.chars ++ moreChars gap ls := by
  unfold spreadChars
  rw [h]

theorem spreadChars_blank (b : Body) : b.spreadChars [' '] = b.chars := by
  obtain ⟨l, ls, h⟩ := b.exists_literals
  rw [spreadChars_eq h, chars_of_literals h]

end Body

namespace Rule

def spreadChars (gap : List Char) (r : Rule) : List Char :=
  r.head.chars ++ ' ' :: ':' :: '-' :: (gap ++ (r.body.spreadChars gap ++ ['.']))

theorem spreadChars_blank (r : Rule) : r.spreadChars [' '] = r.chars := by
  unfold spreadChars
  rw [Body.spreadChars_blank]
  simp [chars]

theorem literalLines_cons (indent : Nat) (l : Body) (ls : List Body) :
    literalLines indent (l :: ls) = List.replicate indent ' ' ++
      (l.chars ++ (Body.moreChars ('\n' :: List.replicate indent ' ') ls ++ ['.'])) := by
  induction ls generalizing l with
  | nil => simp [literalLines, Body.moreChars]
  | cons m ms ih =>
    unfold literalLines
    rw [ih m]
    simp [Body.moreChars]

theorem spreadChars_lines (r : Rule) (indent : Nat) :
    r.spreadChars ('\n' :: List.replicate indent ' ') = r.layoutChars indent := by
  obtain ⟨l, ls, h⟩ := r.body.exists_literals
  unfold spreadChars layoutChars
  rw [Body.spreadChars_eq h, h, literalLines_cons]
  simp

end Rule

/-! ## Nesting -/

namespace Body

theorem chars_join (first : Body) (others : List Body) :
    (first.join others).chars = first.chars ++ moreChars [' '] others := by
  induction others generalizing first with
  | nil => simp [join, moreChars]
  | cons b others ih =>
    have hjoin : first.join (b :: others) = (conj first b).join others := rfl
    rw [hjoin, ih (conj first b)]
    simp [chars, moreChars]

theorem chars_leftNested (b : Body) : b.leftNested.chars = b.chars := by
  induction b with
  | atom a => rfl
  | neg inner ih => simp only [leftNested, chars, ih]
  | conj left right ihl ihr =>
    obtain ⟨l, ls, h⟩ := right.leftNested.exists_literals
    simp only [leftNested, chars]
    rw [chars_join, h, ihl, ← ihr, chars_of_literals h]
    simp [moreChars]

theorem spreadChars_leftNested (gap : List Char) (b : Body) :
    b.leftNested.spreadChars gap = b.spreadChars gap := by
  obtain ⟨l, ls, h⟩ := b.exists_literals
  have hnested : b.leftNested.literals = l.leftNested :: ls.map leftNested := by
    rw [literals_leftNested, h, List.map_cons]
  rw [spreadChars_eq h, spreadChars_eq hnested]
  simp only [moreChars, List.flatMap_map, chars_leftNested]

end Body

namespace Rule

def leftNested (r : Rule) : Rule := ⟨r.head, r.body.leftNested⟩

theorem spreadChars_leftNested (gap : List Char) (r : Rule) :
    r.leftNested.spreadChars gap = r.spreadChars gap := by
  unfold spreadChars leftNested
  rw [Body.spreadChars_leftNested]

theorem text_leftNested (r : Rule) : r.leftNested.text = r.text := by
  unfold text
  rw [← spreadChars_blank, spreadChars_leftNested, spreadChars_blank]

theorem layout_leftNested (r : Rule) (indent : Nat) :
    r.leftNested.layout indent = r.layout indent := by
  unfold layout
  rw [← spreadChars_lines, spreadChars_leftNested, spreadChars_lines]

end Rule

/-! ## Parsing -/

section
variable {r : Rule} (h : r.WellFormed)
include h

theorem Rule.WellFormed.parse_spread {gap : List Char} (hg : ∀ c ∈ gap, isGap c = true) :
    Rule.parse (String.ofList (r.spreadChars gap)) = .ok r.leftNested := by
  obtain ⟨l, ls, hl⟩ := r.body.exists_literals
  have hneck : skipJunk (' ' :: ':' :: '-' :: (gap ++ (r.body.spreadChars gap ++ ['.']))) =
      [':', '-'] ++ (gap ++ (r.body.spreadChars gap ++ ['.'])) := by
    rw [skipJunk_blank rfl, skipJunk_solid rfl]
    rfl
  have hperiod : skipJunk ['.'] = '.' :: [] := rfl
  have hhead : Unbounded.atom .commit (r.spreadChars gap) = .done r.head _ :=
    atom_of_text h.head .none (stops_cons.mpr rfl) (avoids_of_skipJunk hneck (by decide))
  have hjunk : Junk (gap ++ (r.body.spreadChars gap ++ ['.']))
      (l.chars ++ (Body.moreChars gap ls ++ ['.'])) := by
    rw [Body.spreadChars_eq hl, List.append_assoc]
    exact junk_of_gaps hg _
  have hbody : Unbounded.body .commit (gap ++ (r.body.spreadChars gap ++ ['.'])) =
      .done r.body.leftNested ['.'] :=
    body_of_spread hg (ends_cons (by simp) []) (avoids_of_skipJunk hperiod (by decide)) hl
      h.body.literalsRead hjunk
  rw [Rule.parse_iff, String.toList_ofList]
  refine ⟨[], ?_, rfl⟩
  unfold Unbounded.rule
  rw [bind_of_done hhead, bind_of_done (p := neck) ((symbol_eq_done (u := ())).mpr hneck),
    bind_of_done hbody, bind_of_done (p := period) (mark_of_skipJunk hperiod)]
  rfl

theorem Rule.WellFormed.parse_text : Rule.parse r.text = .ok r.leftNested := by
  have hgap : ∀ c ∈ [' '], isGap c = true := by decide
  have hspread := h.parse_spread hgap
  rw [Rule.spreadChars_blank] at hspread
  exact hspread

theorem Rule.WellFormed.parse_layout (indent : Nat) :
    Rule.parse (r.layout indent) = .ok r.leftNested := by
  have hgap : ∀ c ∈ '\n' :: List.replicate indent ' ', isGap c = true :=
    List.forall_mem_cons.mpr ⟨rfl, fun c hc => (List.mem_replicate.mp hc).2 ▸ rfl⟩
  have hspread := h.parse_spread hgap
  rw [Rule.spreadChars_lines] at hspread
  exact hspread

end

/-- **Two layouts, one rule.** Both on one line and with a literal to a line, a well-formed rule is
parsed as the rule that has its literals nested to the left. -/
theorem layouts_agree {r : Rule} (h : r.WellFormed) (indent : Nat) :
    Rule.parse (r.layout indent) = .ok ⟨r.head, r.body.leftNested⟩ ∧
    Rule.parse r.text = .ok ⟨r.head, r.body.leftNested⟩ :=
  ⟨h.parse_layout indent, h.parse_text⟩

theorem layouts_agree_of_sample :
    Rule.parse "p :-\n  q('A, | %'),\n  not(r, s, r),\n  s." =
      Rule.parse "p :- q('A, | %'), not(r, s, r), s." ∧
    Rule.parse "p :- q('A, | %'), not(r, s, r), s." = .ok ⟨⟨"p", []⟩, .conj
      (.conj (.atom ⟨"q", [.const (.str "'A, | %'")]⟩)
        (.neg (.conj (.conj (.atom ⟨"r", []⟩) (.atom ⟨"s", []⟩)) (.atom ⟨"r", []⟩))))
      (.atom ⟨"s", []⟩)⟩ := by
  have hp : Atom.WellFormed ⟨"p", []⟩ := ⟨by decide, by decide, by simp⟩
  have hr : Atom.WellFormed ⟨"r", []⟩ := ⟨by decide, by decide, by simp⟩
  have hs : Atom.WellFormed ⟨"s", []⟩ := ⟨by decide, by decide, by simp⟩
  have hquoted : IsQuoted ('\'' :: 'A' :: [',', ' ', '|', ' ', '%'] ++ ['\'']) :=
    .mk rfl (List.all_eq_true.mp rfl) rfl rfl
  have hq : Atom.WellFormed ⟨"q", [.const (.str "'A, | %'")]⟩ :=
    ⟨by decide, by decide, List.forall_mem_cons.mpr ⟨.const (.quoted hquoted), by simp⟩⟩
  -- every conjunction of the rule that is written nests to the right
  let r : Rule := ⟨⟨"p", []⟩, .conj (.atom ⟨"q", [.const (.str "'A, | %'")]⟩)
    (.conj (.neg (.conj (.atom ⟨"r", []⟩) (.conj (.atom ⟨"s", []⟩) (.atom ⟨"r", []⟩))))
      (.atom ⟨"s", []⟩))⟩
  have hbody : r.body.WellFormed :=
    .conj (.atom hq) (.conj (.neg (.conj (.atom hr) (.conj (.atom hs) (.atom hr)))) (.atom hs))
  have hrule : r.WellFormed := ⟨hp, hbody⟩
  have hlayout : r.layout 2 = "p :-\n  q('A, | %'),\n  not(r, s, r),\n  s." := by decide +kernel
  have htext : r.text = "p :- q('A, | %'), not(r, s, r), s." := by decide +kernel
  obtain ⟨hlines, hline⟩ := layouts_agree hrule 2
  rw [hlayout] at hlines
  rw [htext] at hline
  exact ⟨hlines.trans hline.symm, hline⟩

end Clausal
