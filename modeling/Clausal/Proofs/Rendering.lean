import Clausal.Proofs.Layout
import Clausal.Proofs.Outline
import Clausal.Proofs.Trim
import Clausal.Sentence.Normal

/-!
# Renderings of bodies

A body may be written with either negation sign, with bare negations of atoms, and
over any number of lines. To the normalizer such a rendering is a sheet of lines:
it sees atoms, negation signs, parentheses and commas in a row, and not which
parentheses belong together.
-/

namespace Clausal

open Lexeme

/-! ## Texts of atoms -/

/-- A name or a numeral. -/
inductive IsWord : List Char → Prop
  | name {w} : w ≠ [] → (∀ c ∈ w, isNameChar c = true) → IsWord w
  | numeral {sign whole fraction} : IsSign sign → IsDigits whole → IsFraction fraction →
      IsWord (sign ++ whole ++ fraction)

/-- Without quoted constants. -/
def Unquoted (cs : List Constant) : Prop := ∀ s, .str s ∈ cs → isPlain s.toList = true

/-- What the normalizer finds in the text of an atom. -/
structure AtomText (w : List Char) : Prop where
  outline : Outline IsWord 0 w
  front : ∃ c v, w = c :: v ∧ c.isLower = true
  back : ∃ u d, w = u ++ [d] ∧ (isNameChar d = true ∨ d = ')')

theorem IsWord.of_token {c : Constant} (h : c.WellFormed)
    (hq : ∀ s, c = .str s → isPlain s.toList = true) :
    IsWord c.chars := by
  have hname {w : List Char} (hw : isLowerName w = true) : IsWord w :=
    .name (by intro he; subst he; cases hw) (isName_all isNameChar_of_isLower hw)
  cases h with
  | @bool b =>
    cases b
    all_goals exact hname (by decide)
  | @int n =>
    have hint := IsWord.numeral (Numeral.isSign_sign (decide (n.toInt < 0)))
      (Numeral.isDigits_ofNat n.toInt.natAbs) .none
    rw [List.append_nil, ← Numeral.ofInt_eq] at hint
    exact hint
  | @float x hx =>
    obtain ⟨whole, ds, he, hw, hd, -⟩ := Binary64.chars_eq hx
    simp only [Constant.chars, he]
    exact .numeral (Numeral.isSign_sign _) hw (.point hd)
  | @plain s hs =>
    simp only [isPlain, Bool.and_eq_true] at hs
    exact hname hs.1
  | @quoted s _ =>
    have hs := hq s rfl
    simp only [isPlain, Bool.and_eq_true] at hs
    exact hname hs.1

theorem Atom.WellFormed.exists_back {a : Atom} (h : a.WellFormed) :
    ∃ u d, a.chars = u ++ [d] ∧ (isNameChar d = true ∨ d = ')') := by
  by_cases hne : a.args = []
  · have hchars : a.chars = a.name.toList := by unfold Atom.chars; rw [hne]
    obtain ⟨c, v, he, -⟩ := Reader.exists_cons_of_isName h.name
    have hall := isName_all isNameChar_of_isLower h.name
    refine ⟨_, _, hchars.trans (List.dropLast_concat_getLast (by rw [he]; simp)).symm, .inl ?_⟩
    exact hall _ (List.getLast_mem _)
  · have hchars := Atom.chars_of_ne hne []
    rw [List.append_nil] at hchars
    exact ⟨a.name.toList ++ '(' :: Text.listed (charsOf a.args), ')',
      by simp [hchars], .inr rfl⟩

theorem Atom.WellFormed.atomText {a : Atom} (h : a.WellFormed) (hq : Unquoted a.constants) :
    AtomText a.chars where
  outline := by
    have hname : ∀ w, isLowerName w = true ∨ isUpperName w = true → IsWord w
      | _, .inl hw => .name (by intro he; subst he; cases hw) (isName_all isNameChar_of_isLower hw)
      | _, .inr hw => .name (by intro he; subst he; cases hw) (isName_all isNameChar_of_isUpper hw)
    exact h.outline hname fun c hc hw => .of_token hw fun s hs => hq s (hs ▸ hc)
  front := h.exists_front
  back := h.exists_back

/-! ## Renderings -/

def AllBlank (cs : List Char) : Prop := ∀ c ∈ cs, Text.isBlank c = true

def IsNegationSign (sign : List Char) : Prop := sign = ['n', 'o', 't'] ∨ sign = ['\\', '+']

/-- A negation sign and blanks in front of a bare atom, from which blanks keep the word apart. -/
def IsBareSign (sign blanks : List Char) : Prop :=
  AllBlank blanks ∧ (sign = ['n', 'o', 't'] ∧ blanks ≠ [] ∨ sign = ['\\', '+'])

theorem IsBareSign.negation {sign blanks : List Char} (h : IsBareSign sign blanks) :
    IsNegationSign sign :=
  h.2.imp And.left id

theorem IsBareSign.blanks_ne {sign blanks : List Char} (h : IsBareSign sign blanks)
    (hs : sign = ['n', 'o', 't']) :
    blanks ≠ [] := by
  rcases h.2 with ⟨-, hne⟩ | hslash
  · exact hne
  · rw [hs] at hslash
    cases hslash

/-- What ends a line behind its comma. -/
inductive IsLineEnd : List Char → Prop
  | feed {gap} : (∀ c ∈ gap, Sentence.isLineBlank c = true) → IsLineEnd (gap ++ ['\n'])
  | returnFeed {gap} : (∀ c ∈ gap, Sentence.isLineBlank c = true) →
      IsLineEnd (gap ++ ['\r', '\n'])

/-- What stands between two literals: a comma with a blank, or with a line end and any blanks. -/
inductive IsSeparator : List Char → Prop
  | blank : IsSeparator [',', ' ']
  | lineEnd {cut blanks} : IsLineEnd cut → AllBlank blanks → IsSeparator (',' :: cut ++ blanks)

/-- The texts that a body may have. -/
inductive Renders : Body → List Char → Prop
  | atom {a} : Renders (.atom a) a.chars
  | conj {left right u v sep} : Renders left u → IsSeparator sep → Renders right v →
      Renders (.conj left right) (u ++ sep ++ v)
  | neg {inner u sign blanks} : IsNegationSign sign → AllBlank blanks → Renders inner u →
      Renders (.neg inner) (sign ++ blanks ++ '(' :: u ++ [')'])
  | bare {a sign blanks} : IsBareSign sign blanks →
      Renders (.neg (.atom a)) (sign ++ blanks ++ a.chars)

/-! ## Lines and sheets -/

/-- What a negation sign and the blanks behind it may look like in front of a parenthesis. -/
def IsOpening (w : List Char) : Prop :=
  ∃ sign blanks, IsNegationSign sign ∧ AllBlank blanks ∧ w = sign ++ blanks

/-- `Line opening due u v`: the text `u` is part of a line whose canonical text is `v`, with negated
groups opened as in `opening`. A literal is due at its front, or has just been read. -/
inductive Line (opening : List Char → Prop) : (due : Bool) → List Char → List Char → Prop
  | done : Line opening false [] []
  | atom {w u v} : AtomText w → Line opening false u v → Line opening true (w ++ u) (w ++ v)
  | bare {sign blanks w u v} : IsBareSign sign blanks → AtomText w → Line opening false u v →
      Line opening true (sign ++ blanks ++ (w ++ u)) (['n', 'o', 't', '('] ++ w ++ ')' :: v)
  | opening {w u v} : opening w → Line opening true u v →
      Line opening true (w ++ '(' :: u) (['n', 'o', 't', '('] ++ v)
  | closing {u v} : Line opening false u v → Line opening false (')' :: u) (')' :: v)
  | comma {u v} : Line opening true u v → Line opening false (',' :: ' ' :: u) (',' :: ' ' :: v)

/-- Lines, each but the last with a comma and a line end behind it, and periods at the end. In the
canonical text the separator stands for the comma and the line end. -/
inductive Sheet (sep : List Char) : (due : Bool) → List Char → List Char → Prop
  | last {due u v periods} : Line IsOpening due u v → (∀ c ∈ periods, c = '.') →
      Sheet sep due (u ++ periods) v
  | more {due u v cut blanks u' v'} : Line IsOpening due u v → IsLineEnd cut →
      AllBlank blanks → Sheet sep true u' v' →
      Sheet sep due (u ++ ',' :: cut ++ (blanks ++ u')) (v ++ (sep ++ v'))

/-- The texts of a body in which all negations are groups, and separators are of two kinds. -/
inductive NormalText (sep : List Char) : Body → List Char → Prop
  | atom {a} : NormalText sep (.atom a) a.chars
  | conj {left right u v s} : NormalText sep left u → s = [',', ' '] ∨ s = sep →
      NormalText sep right v →
      NormalText sep (.conj left right) (u ++ s ++ v)
  | neg {inner u} : NormalText sep inner u →
      NormalText sep (.neg inner) (['n', 'o', 't', '('] ++ u ++ [')'])

theorem NormalText.eq_chars {b : Body} {n : List Char} (h : NormalText [',', ' '] b n) :
    n = b.chars := by
  induction h with
  | atom => rfl
  | conj _ hs _ ihl ihr =>
    rw [ihl, ihr, hs.elim id id]
    simp [Body.chars]
  | neg _ ih =>
    rw [ih]
    simp [Body.chars]

section
variable {sep : List Char}

theorem Sheet.prepend (x y : List Char) {due due' : Bool} {u v : List Char} (h : Sheet sep due u v)
    (hx : ∀ u v, Line IsOpening due u v → Line IsOpening due' (x ++ u) (y ++ v)) :
    Sheet sep due' (x ++ u) (y ++ v) := by
  cases h with
  | last hl hp =>
    rw [← List.append_assoc]
    exact .last (hx _ _ hl) hp
  | more hl hc hb hs => simpa using Sheet.more (hx _ _ hl) hc hb hs

theorem IsSeparator.sheet {gap : List Char} (h : IsSeparator gap) :
    ∃ s, (s = [',', ' '] ∨ s = sep) ∧
    ∀ {u v}, Sheet sep true u v → Sheet sep false (gap ++ u) (s ++ v) := by
  cases h with
  | blank =>
    exact ⟨_, .inl rfl, fun hs => hs.prepend [',', ' '] [',', ' '] fun _ _ hl => .comma hl⟩
  | lineEnd hc hb => exact ⟨_, .inr rfl, fun hs => by simpa using Sheet.more .done hc hb hs⟩

end

/-- The rendering of a body stands on its lines wherever a literal is due. -/
theorem Renders.sheet (sep : List Char) {b : Body} {w : List Char} (h : Renders b w)
    (hb : b.WellFormed) (hq : Unquoted b.constants) :
    ∃ n, NormalText sep b n ∧ ∀ {u v}, Sheet sep false u v →
      Sheet sep true (w ++ u) (n ++ v) := by
  induction h with
  | atom =>
    cases hb with
    | atom ha =>
      exact ⟨_, .atom, fun hs => hs.prepend _ _ fun _ _ hl => .atom (ha.atomText hq) hl⟩
  | @conj left right _ _ _ _ hsep _ ihl ihr =>
    cases hb with
    | conj hbl hbr =>
      obtain ⟨n, hn, hleft⟩ := ihl hbl fun s hs => hq s (Distinct.mem_union.mpr (.inl hs))
      obtain ⟨m, hm, hright⟩ := ihr hbr fun s hs => hq s (Distinct.mem_union.mpr (.inr hs))
      obtain ⟨s, hs, hbetween⟩ := hsep.sheet
      exact ⟨_, .conj hn hs hm, fun hsheet => by simpa using hleft (hbetween (hright hsheet))⟩
  | @neg _ _ sign blanks hsign hblank _ ih =>
    cases hb with
    | neg hi =>
      obtain ⟨n, hn, hinner⟩ := ih hi hq
      refine ⟨_, .neg hn, fun {u v} hs => ?_⟩
      have hclose : Sheet sep false (')' :: u) (')' :: v) :=
        hs.prepend [')'] [')'] fun _ _ hl => .closing hl
      have hopening : IsOpening (sign ++ blanks) := ⟨sign, blanks, hsign, hblank, rfl⟩
      have hopen :=
        (hinner hclose).prepend (sign ++ blanks ++ ['(']) ['n', 'o', 't', '('] fun _ _ hl => by
          simpa using Line.opening hopening hl
      simpa using hopen
  | @bare a sign blanks hbare =>
    cases hb with
    | neg hi =>
      cases hi with
      | atom ha =>
        refine ⟨_, .neg .atom, fun {u v} hs => ?_⟩
        have hsheet := hs.prepend (sign ++ blanks ++ a.chars)
          (['n', 'o', 't', '('] ++ a.chars ++ [')']) fun _ _ hl => by
            simpa using Line.bare hbare (ha.atomText hq) hl
        simpa using hsheet

end Clausal
