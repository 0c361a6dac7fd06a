import Clausal.Numeral
import Clausal.Binary64.Nearest
import Clausal.Term.Basic

/-! # Lexemes

The meaning of a single word, numeral or quoted literal. Quotes around a plain name carry no
information and are dropped, unless the bare name would be a truth value; all other quotes stay in
the constant. -/

namespace Clausal.Lexeme

def isNameChar (c : Char) : Bool := c.isAlphanum || c == '_'

def isName (initial : Char → Bool) : List Char → Bool
  | [] => false
  | c :: cs => initial c && cs.all isNameChar

def isLowerName (cs : List Char) : Bool := isName Char.isLower cs

def isUpperName (cs : List Char) : Bool := isName Char.isUpper cs

def truthValue? (cs : List Char) : Option Bool :=
  if cs = ['t', 'r', 'u', 'e'] then some true
  else if cs = ['f', 'a', 'l', 's', 'e'] then some false
  else none

/-- A name that can stand without quotes. -/
def isPlain (cs : List Char) : Bool := isLowerName cs && (truthValue? cs).isNone

def isInside (quote c : Char) : Bool := c != quote && c != '\n'

def isQuote (c : Char) : Bool := c == '\'' || c == '"'

/-- The text between the quotes of a literal. -/
def quotedInner? : List Char → Option (List Char)
  | [] => none
  | quote :: cs =>
    if isQuote quote && cs.dropWhile (isInside quote) == [quote] then
      some (cs.takeWhile (isInside quote))
    else none

/-- The constant that a quoted literal with this inner text stands for. -/
def quotedMeaning? (literal inner : List Char) : Option Constant :=
  match inner with
  | [] => none
  | c :: _ =>
    if c.isUpper || c.isDigit then some (.str (String.ofList literal))
    else if c.isLower then some (.str (String.ofList (if isPlain inner then inner else literal)))
    else none

/-- A numeral without its sign. Whole numbers have to fit 64 bits; decimals are rounded. -/
def unsignedMeaning? (negative : Bool) (cs : List Char) : Option Constant :=
  let whole := cs.takeWhile Char.isDigit
  match cs.dropWhile Char.isDigit with
  | [] =>
    if whole = [] then none else (Numeral.int64? (Numeral.signed negative whole)).map .int
  | '.' :: fraction =>
    if whole ≠ [] ∧ fraction ≠ [] ∧ fraction.all Char.isDigit then
      some (.float (.ofDecimal negative (Numeral.value (whole ++ fraction)) fraction.length))
    else none
  | _ => none

def numberMeaning? : List Char → Option Constant
  | '-' :: cs => unsignedMeaning? true cs
  | cs => unsignedMeaning? false cs

def meaning? (cs : List Char) : Option Term :=
  match quotedInner? cs with
  | some inner => (quotedMeaning? cs inner).map .const
  | none =>
    if isLowerName cs then
      match truthValue? cs with
      | some b => some (.const (.bool b))
      | none => some (.const (.str (String.ofList cs)))
    else if isUpperName cs then some (.var (String.ofList cs))
    else (numberMeaning? cs).map .const

end Clausal.Lexeme
