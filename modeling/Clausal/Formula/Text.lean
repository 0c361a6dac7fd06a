import Clausal.Term.Text
import Clausal.Formula.Basic

/-! # Formulas as text

The canonical text keeps a formula on one line and does not show how its conjunctions nest. The
layout of a rule sets each literal of the body on a line of its own. -/

namespace Clausal

namespace Atom

/-- An atom without arguments has no parentheses. -/
def chars (a : Atom) : List Char :=
  match a.args with
  | [] => a.name.toList
  | args => a.name.toList ++ '(' :: Text.listed (charsOf args) ++ [')']

def text (a : Atom) : String := String.ofList a.chars

end Atom

namespace Body

def chars : Body → List Char
  | atom a => a.chars
  | conj left right => left.chars ++ ',' :: ' ' :: right.chars
  | neg inner => 'n' :: 'o' :: 't' :: '(' :: inner.chars ++ [')']

def text (b : Body) : String := String.ofList b.chars

end Body

namespace Rule

def chars (r : Rule) : List Char :=
  r.head.chars ++ ' ' :: ':' :: '-' :: ' ' :: r.body.chars ++ ['.']

def text (r : Rule) : String := String.ofList r.chars

/-- Lines of one literal each: a comma ends all but the last, which ends in a period. -/
def literalLines (indent : Nat) : List Body → List Char
  | [] => []
  | [b] => List.replicate indent ' ' ++ b.chars ++ ['.']
  | b :: bs => List.replicate indent ' ' ++ b.chars ++ ',' :: '\n' :: literalLines indent bs

def layoutChars (r : Rule) (indent : Nat) : List Char :=
  r.head.chars ++ ' ' :: ':' :: '-' :: '\n' :: literalLines indent r.body.literals

def layout (r : Rule) (indent : Nat) : String := String.ofList (r.layoutChars indent)

end Rule

namespace Formula

def chars : Formula → List Char
  | body b => b.chars
  | rule r => r.chars

def text (φ : Formula) : String := String.ofList φ.chars

end Formula

end Clausal
