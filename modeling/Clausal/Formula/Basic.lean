import Clausal.Signature
import Clausal.Term.Basic

/-! # Formulas

Atoms, clause bodies made of them by conjunction and negation, rules, and the formulas that are
either a body or a rule. The literals of a body are what its conjunctions join. -/

namespace Clausal

structure Atom where
  name : String
  args : List Term
deriving DecidableEq

inductive Body
  | atom (a : Atom)
  | conj (left right : Body)
  | neg (inner : Body)
deriving DecidableEq

structure Rule where
  head : Atom
  body : Body
deriving DecidableEq

inductive Formula
  | body (b : Body)
  | rule (r : Rule)
deriving DecidableEq

/-- The comparisons, which are written between their operands. -/
inductive Comparison
  | equal
  | notEqual
  | less
  | greater
  | lessOrEqual
  | greaterOrEqual
deriving DecidableEq

namespace Comparison

def all : List Comparison := [equal, notEqual, less, greater, lessOrEqual, greaterOrEqual]

def sign : Comparison → List Char
  | equal => ['=', ':', '=']
  | notEqual => ['=', '\\', '=']
  | less => ['<']
  | greater => ['>']
  | lessOrEqual => ['=', '<']
  | greaterOrEqual => ['>', '=']

def ofSign? (sign : List Char) : Option Comparison := all.find? fun c => c.sign == sign

def predicate : Comparison → String
  | equal => "equals"
  | notEqual => "not_equals"
  | less => "lessThan"
  | greater => "greaterThan"
  | lessOrEqual => "lessThanEq"
  | greaterOrEqual => "greaterThanEq"

end Comparison

namespace Atom

def compare (c : Comparison) (left right : Term) : Atom := ⟨c.predicate, [left, right]⟩

def arity (a : Atom) : Nat := a.args.length

def signature (a : Atom) : Except SignatureError Signature := Signature.of a.name a.arity

end Atom

def Compound.signature (f : Compound) : Except SignatureError Signature :=
  Signature.of f.name f.arity

namespace Body

def literals : Body → List Body
  | conj left right => left.literals ++ right.literals
  | b => [b]

def literalCount : Body → Nat
  | conj left right => left.literalCount + right.literalCount
  | _ => 1

/-- Literals joined to the left. -/
def join (first : Body) (others : List Body) : Body := others.foldl conj first

/-- The bodies directly below. -/
def parts : Body → List Body
  | atom _ => []
  | conj left right => [left, right]
  | neg inner => [inner]

/-- A single atom under any number of negations. -/
def isUnit : Body → Bool
  | atom _ => true
  | conj .. => false
  | neg inner => inner.isUnit

def atom? : Body → Option Atom
  | atom a => some a
  | _ => none

end Body

namespace Formula

def parts : Formula → List Body
  | body b => b.parts
  | rule r => [r.body]

/-- The head of a rule counts as a literal. -/
def literalCount : Formula → Nat
  | body b => b.literalCount
  | rule r => 1 + r.body.literalCount

def isUnit : Formula → Bool
  | body b => b.isUnit
  | rule _ => false

def atom? : Formula → Option Atom
  | body b => b.atom?
  | rule _ => none

def rule? : Formula → Option Rule
  | body _ => none
  | rule r => some r

end Formula

end Clausal
