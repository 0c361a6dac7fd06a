import Clausal.Numeral
import Clausal.Binary64.Text
import Clausal.Text.Listed
import Clausal.Term.Basic

/-! # Terms as text

The canonical text of constants and terms. A tuple that is the only value of a call keeps its
parentheses inside those of the value list, since `=(a, b)` means two values. -/

namespace Clausal

def Constant.chars : Constant → List Char
  | .bool true => ['t', 'r', 'u', 'e']
  | .bool false => ['f', 'a', 'l', 's', 'e']
  | .int n => Numeral.ofInt n.toInt
  | .float x => x.chars
  | .str s => s.toList

def valueChars (loneTuple : Bool) : List (List Char) → List Char
  | [] => []
  | [value] => if loneTuple then '=' :: '(' :: value ++ [')'] else '=' :: value
  | values => '=' :: '(' :: Text.listed values ++ [')']

def isLoneTuple : List Term → Bool
  | [value] => value.isTuple
  | _ => false

mutual

def Term.chars : Term → List Char
  | .var name => name.toList
  | .const c => c.chars
  | .compound name args values =>
    name.toList ++ '(' :: Text.listed (charsOf args) ++ ')' ::
      valueChars (isLoneTuple values) (charsOf values)
  | .list items => '[' :: Text.listed (charsOf items) ++ [']']

def charsOf : List Term → List (List Char)
  | [] => []
  | t :: ts => t.chars :: charsOf ts

end

def Constant.text (c : Constant) : String := String.ofList c.chars

def Term.text (t : Term) : String := String.ofList t.chars

def Compound.text (f : Compound) : String := f.toTerm.text

/-- The name that a term goes by: a compound's name, and one symbol for all lists. -/
def Term.symbol : Term → String
  | .var name => name
  | .const c => c.text
  | .compound name .. => name
  | .list _ => listSymbol

end Clausal
