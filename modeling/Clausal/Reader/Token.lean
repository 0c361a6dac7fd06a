import Clausal.Lexeme
import Clausal.Reader.Basic

/-! # Tokens

Marks, names, numerals and quoted literals. Junk may stand before each of them: blanks, comments
from `%` or `//` to the end of the line, and comments between `/*` and `*/`. A token that does not
fit is stuck behind the junk. -/

namespace Clausal.Reader

def isGap (c : Char) : Bool := c == ' ' || c == '\t' || c == '\r' || c == '\n'

mutual

/-- The text behind its leading junk. -/
def skipJunk : List Char → List Char
  | [] => []
  | '%' :: cs => skipLine ('%' :: cs) cs
  | '/' :: '/' :: cs => skipLine ('/' :: '/' :: cs) cs
  | '/' :: '*' :: cs => skipBlock ('/' :: '*' :: cs) cs
  | c :: cs => if isGap c then skipJunk cs else c :: cs

/-- Inside a comment that lasts to the end of the line. With a carriage return that ends no line,
the text from `start` is no comment. -/
def skipLine (start : List Char) : List Char → List Char
  | [] => []
  | '\n' :: cs => skipJunk cs
  | '\r' :: '\n' :: cs => skipJunk cs
  | '\r' :: _ => start
  | _ :: cs => skipLine start cs

/-- Inside a comment between brackets. If it is not closed, the text from `start` is no comment. -/
def skipBlock (start : List Char) : List Char → List Char
  | [] => start
  | '*' :: '/' :: cs => skipJunk cs
  | _ :: cs => skipBlock start cs

end

variable {α : Type}

def token (p : Reader α) : Reader α := fun cs => p (skipJunk cs)

/-- The rest of a text behind `word`, if it begins so. -/
def dropWord? : (word text : List Char) → Option (List Char)
  | [], cs => some cs
  | _ :: _, [] => none
  | w :: ws, c :: cs => if w = c then dropWord? ws cs else none

def exactly (word : List Char) : Reader Unit := fun cs =>
  match dropWord? word cs with
  | some rest => .done () rest
  | none => .stuck cs

/-- As many characters of a class as there are. -/
def run (inside : Char → Bool) : Reader (List Char) := fun cs =>
  .done (cs.takeWhile inside) (cs.dropWhile inside)

def run1 (inside : Char → Bool) : Reader (List Char) := fun cs =>
  match cs.takeWhile inside with
  | [] => .stuck cs
  | word => .done word (cs.dropWhile inside)

def one (inside : Char → Bool) : Reader Char
  | [] => .stuck []
  | c :: cs => if inside c then .done c cs else .stuck (c :: cs)

/-- Nothing is read, but a name must not go on here. -/
def nameEnd : Reader Unit
  | [] => .done () []
  | c :: cs => if Lexeme.isNameChar c then .stuck (c :: cs) else .done () (c :: cs)

def symbol (word : List Char) : Reader Unit := token (exactly word)

def mark (c : Char) : Reader Unit := symbol [c]

/-- A word that no longer name begins with. -/
def keyword (word : List Char) : Reader Unit := token do
  exactly word
  nameEnd

def nameFrom (initial : Char → Bool) : Reader (List Char) := token do
  let c ← one initial
  let cs ← run Lexeme.isNameChar
  return c :: cs

def lowerName : Reader (List Char) := nameFrom Char.isLower

def upperName : Reader (List Char) := nameFrom Char.isUpper

def minus : Reader (List Char)
  | '-' :: cs => .done ['-'] cs
  | cs => .done [] cs

def wholeNumeral : Reader (List Char) := token do
  let sign ← minus
  let digits ← run1 Char.isDigit
  return sign ++ digits

def decimalNumeral : Reader (List Char) := token do
  let sign ← minus
  let whole ← run1 Char.isDigit
  exactly ['.']
  let fraction ← run1 Char.isDigit
  return sign ++ whole ++ '.' :: fraction

def quotedInner (quote : Char) : Reader (List Char) := token do
  exactly [quote]
  let inner ← run (Lexeme.isInside quote)
  exactly [quote]
  return inner

def quotedLiteral (quote : Char) : Reader (List Char) := do
  let inner ← quotedInner quote
  return quote :: inner ++ [quote]

end Clausal.Reader
