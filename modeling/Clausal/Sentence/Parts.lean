/-! # The parts of a sentence

The neck `:-` divides a sentence into head and body, and a comma at the end of a line divides the
body into segments. -/

namespace Clausal.Sentence

/-- The texts before, between and after the necks. -/
def neckParts : List Char → List (List Char)
  | [] => [[]]
  | ':' :: '-' :: cs => [] :: neckParts cs
  | c :: cs => (neckParts cs).modifyHead (c :: ·)

def isLineBlank (c : Char) : Bool := c == ' ' || c == '\t'

/-- How many characters a comma takes with the blanks and the line end behind it. -/
def breakLength? : List Char → Option Nat
  | ',' :: cs =>
    let blanks := (cs.takeWhile isLineBlank).length
    match cs.dropWhile isLineBlank with
    | '\n' :: _ => some (blanks + 2)
    | '\r' :: '\n' :: _ => some (blanks + 3)
    | _ => none
  | _ => none

/-- The segments of a text whose first `skip` characters belong to a break. -/
def segmentsAfter : (skip : Nat) → List Char → List (List Char)
  | _, [] => [[]]
  | skip + 1, _ :: cs => segmentsAfter skip cs
  | 0, c :: cs =>
    match breakLength? (c :: cs) with
    | some n => [] :: segmentsAfter (n - 1) cs
    | none => (segmentsAfter 0 cs).modifyHead (c :: ·)

def segments (cs : List Char) : List (List Char) := segmentsAfter 0 cs

end Clausal.Sentence
