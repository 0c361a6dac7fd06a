import Clausal.Text.Blank
import Clausal.Text.Word

/-! # Negation in free text

A negation is written `not` or `\+`, with or without parentheses. Both spellings become `not(`, and
a bare one is wrapped around the literal that follows, up to the next comma outside brackets. -/

namespace Clausal.Sentence

/-- What a rule makes of the front of a text, and how many characters that takes. The rule is also
told the character before, unless that belongs to the last match. -/
abbrev MatchRule := (before : Option Char) → List Char → Option (List Char × Nat)

/-- A text with its matches replaced from left to right. Its first `skip` characters belong to the
last match. -/
def replaceAfter (rule : MatchRule) (before : Option Char) :
    (skip : Nat) → List Char → List Char
  | _, [] => []
  | skip + 1, _ :: cs => replaceAfter rule none skip cs
  | 0, c :: cs =>
    match rule before (c :: cs) with
    | some (replacement, n) => replacement ++ replaceAfter rule none (n - 1) cs
    | none => c :: replaceAfter rule (some c) 0 cs

def replaceAll (rule : MatchRule) (cs : List Char) : List Char := replaceAfter rule none 0 cs

/-- The length of a negation sign. The word must not go on to the left. -/
def signLength? (before : Option Char) : List Char → Option Nat
  | 'n' :: 'o' :: 't' :: _ => if before.any Text.isWord then none else some 3
  | '\\' :: '+' :: _ => some 2
  | _ => none

/-- The length of a negation sign that does not go on to the right either. -/
def loneSignLength? (before : Option Char) (cs : List Char) : Option Nat :=
  match signLength? before cs with
  | some 3 => if (cs[3]?).any Text.isWord then none else some 3
  | n => n

def blankCount (cs : List Char) : Nat := (cs.takeWhile Text.isBlank).length

def opening : List Char := ['n', 'o', 't', '(']

def openingRule : MatchRule := fun before cs =>
  match signLength? before cs with
  | none => none
  | some n =>
    let blanks := blankCount (cs.drop n)
    match cs.drop (n + blanks) with
    | '(' :: _ => some (opening, n + blanks + 1)
    | _ => none

/-- The text up to the first comma or closing bracket outside brackets. -/
def literalExtent (depth : Nat) : List Char → List Char
  | [] => []
  | c :: cs =>
    if c = '(' ∨ c = '[' then c :: literalExtent (depth + 1) cs
    else if c = ')' ∨ c = ']' then
      match depth with
      | 0 => []
      | outer + 1 => c :: literalExtent outer cs
    else if c = ',' ∧ depth = 0 then []
    else c :: literalExtent depth cs

/-- A negation sign before a bare literal. Before a parenthesis, or with no literal behind it, the
sign stays as it is. -/
def wrappingRule : MatchRule := fun before cs =>
  match loneSignLength? before cs with
  | none => none
  | some n =>
    let sign := n + blankCount (cs.drop n)
    let after := cs.drop sign
    let extent := literalExtent 0 after
    if after.head? = some '(' ∨ extent.all Text.isBlank then some (cs.take sign, sign)
    else some (opening ++ Text.trimEnd extent ++ [')'], sign + extent.length)

def wrapNegations (cs : List Char) : List Char :=
  replaceAll wrappingRule (replaceAll openingRule cs)

end Clausal.Sentence
