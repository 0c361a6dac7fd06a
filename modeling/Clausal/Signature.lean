import Clausal.Numeral
import Clausal.Text.Blank
import Clausal.Text.Quoted

/-! # Signatures

A name and a number of arguments, which tell predicates and functions of one name apart. They are
written `name/arity`. -/

namespace Clausal

inductive SignatureError
  | emptyName
  | invalidName (name : String)
  | negativeArity (arity : Int)
  | malformed (text : String)
deriving DecidableEq

def SignatureError.message : SignatureError → String
  | .emptyName => "signature name must not be empty"
  | .invalidName name => "invalid signature name " ++ Text.quoted name
  | .negativeArity arity =>
    "arity must not be negative, got " ++ String.ofList (Numeral.ofInt arity)
  | .malformed text => "malformed signature " ++ Text.quoted text ++ ", expected name/arity"

structure Signature where
  name : String
  arity : Nat
deriving DecidableEq

namespace Signature

/-- What a name must not hold: a blank or the slash. -/
def isBarred (c : Char) : Bool := Text.isBlank c || c == '/'

def of (name : String) (arity : Nat) : Except SignatureError Signature :=
  if name.toList = [] then .error .emptyName
  else if name.toList.any isBarred then .error (.invalidName name)
  else .ok ⟨name, arity⟩

def chars (s : Signature) : List Char := s.name.toList ++ '/' :: Numeral.ofNat s.arity

def text (s : Signature) : String := String.ofList s.chars

/-- By name in the order of code points, then by arity. -/
def le (s t : Signature) : Bool := s.name < t.name || (s.name == t.name && s.arity ≤ t.arity)

/-- The parts of a text around its last slash. -/
def splitAtLastSlash? : List Char → Option (List Char × List Char)
  | [] => none
  | c :: cs =>
    match splitAtLastSlash? cs with
    | some (before, after) => some (c :: before, after)
    | none => if c = '/' then some ([], cs) else none

/-- A whole number of 64 bits, with a sign or without one. -/
def arity? (cs : List Char) : Option Int64 :=
  let (negative, digits) :=
    match cs with
    | '-' :: digits => (true, digits)
    | '+' :: digits => (false, digits)
    | digits => (false, digits)
  if digits ≠ [] ∧ digits.all Char.isDigit then
    Numeral.int64? (Numeral.signed negative digits)
  else none

/-- Blanks around the whole text, the name and the arity do not count. -/
def parse (text : String) : Except SignatureError Signature :=
  match splitAtLastSlash? (Text.trim text.toList) with
  | none => .error (.malformed text)
  | some (name, arity) =>
    match arity? (Text.trim arity) with
    | none => .error (.malformed text)
    | some n =>
      if n.toInt < 0 then .error (.negativeArity n.toInt)
      else of (String.ofList (Text.trim name)) n.toInt.toNat

end Signature

end Clausal
