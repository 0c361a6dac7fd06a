import Clausal.Formula.Basic
import Clausal.Include
import Clausal.Reader.Term

/-! # Reading formulas

Atoms, literals, bodies, rules and include directives. An atom is first tried as a comparison, a
negated text as an atom before it is tried as a body in parentheses, and a formula as a rule before
it is tried as a body. -/

namespace Clausal.Reader

section

variable (term : Reader Term)

def comparisonSign (c : Comparison) : Reader Comparison := do
  exactly c.sign
  return c

/-- Longer signs come before those they begin with. -/
def comparison : Reader Comparison := token <|
  comparisonSign .equal <|>
  comparisonSign .notEqual <|>
  comparisonSign .lessOrEqual <|>
  comparisonSign .greaterOrEqual <|>
  comparisonSign .less <|>
  comparisonSign .greater

def operand (policy : Policy) : Reader Term :=
  (do let f ← compound term; return f.toTerm) <|>
  lexeme policy upperName <|>
  lexeme policy lowerName <|>
  lexeme policy decimalNumeral <|>
  lexeme policy wholeNumeral

def relationalAtom (policy : Policy) : Reader Atom := do
  let left ← operand term policy
  let c ← comparison
  let right ← operand term policy
  return Atom.compare c left right

/-- The name of a predicate, which is never the word of negation. Where that word stands, the reader
is stuck in front of the junk. -/
def predicateName : Reader (List Char) := fun cs =>
  match lowerName cs with
  | .done name rest => if name = ['n', 'o', 't'] then .stuck cs else .done name rest
  | reply => reply

def typicalAtom : Reader Atom := do
  let name ← predicateName
  let args ← optional (arguments term)
  return ⟨String.ofList name, args.getD []⟩

def anyAtom (policy : Policy) : Reader Atom := relationalAtom term policy <|> typicalAtom term

end

section

variable (atom : Reader Atom) (body : Reader Body)

def negationSign : Reader Unit := keyword ['n', 'o', 't'] <|> symbol ['\\', '+']

def negation : Reader Body := do
  negationSign
  (do let a ← atom; return .neg (.atom a)) <|>
  (do let a ← parenthesized atom; return .neg (.atom a)) <|>
  (do let b ← parenthesized body; return .neg b)

def literal : Reader Body := negation atom body <|> (do let a ← atom; return .atom a)

def anyBody : Reader Body := do
  let first ← literal atom body
  let others ← many do
    mark ','
    literal atom body
  return first.join others

end

/-- Terms nest one level less than the body that holds them. -/
def atom (policy : Policy) (bound : Nat) : Reader Atom := anyAtom (term policy bound) policy

def body (policy : Policy) : Nat → Reader Body
  | 0 => exhausted
  | n + 1 => anyBody (atom policy n) fun cs => body policy n cs

def neck : Reader Unit := symbol [':', '-']

def period : Reader Unit := mark '.'

def rule (policy : Policy) (bound : Nat) : Reader Rule := do
  let head ← atom policy bound
  neck
  let b ← body policy bound
  period
  return ⟨head, b⟩

def closedBody (policy : Policy) (bound : Nat) : Reader Body := do
  let b ← body policy bound
  let _ ← optional period
  return b

def formula (policy : Policy) (bound : Nat) : Reader Formula :=
  (do let r ← rule policy bound; return .rule r) <|>
  (do let b ← closedBody policy bound; return .body b)

def isPathChar (c : Char) : Bool :=
  !isGap c && c != '(' && c != ')' && c != '\'' && c != '"'

def path : Reader (List Char) :=
  quotedInner '\'' <|> quotedInner '"' <|> token (run1 isPathChar)

def directive : Reader Include := do
  let _ ← optional neck
  keyword ['i', 'n', 'c', 'l', 'u', 'd', 'e']
  let p ← parenthesized path
  let _ ← optional period
  return ⟨String.ofList p⟩

end Clausal.Reader
