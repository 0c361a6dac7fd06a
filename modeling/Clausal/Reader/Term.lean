import Clausal.Reader.Token

/-! # Reading terms

Each reader below takes the reader of nested terms as an argument; `term` ties the knot, at most as
many levels deep as its bound says. A text of `n` characters nests less than `n + 1` terms. -/

namespace Clausal.Reader

/-- What a lexeme without meaning does: it ends the reading, or the reader is just stuck before it.
Both accept the same texts. -/
inductive Policy
  | commit
  | backtrack
deriving DecidableEq

variable {α : Type}

def Policy.reject (policy : Policy) (start lexeme : List Char) : Reply α :=
  match policy with
  | commit => .rejected lexeme
  | backtrack => .stuck start

def lexeme (policy : Policy) (p : Reader (List Char)) : Reader Term := fun cs =>
  match p cs with
  | .done word rest =>
    match Lexeme.meaning? word with
    | some t => .done t rest
    | none => policy.reject cs word
  | .stuck rest => .stuck rest
  | .rejected w => .rejected w
  | .exhausted => .exhausted

def parenthesized (p : Reader α) : Reader α := do
  mark '('
  let x ← p
  mark ')'
  return x

/-- One or more, with commas between them. -/
def commaList1 (p : Reader α) : Reader (List α) := do
  let x ← p
  let xs ← many do
    mark ','
    p
  return x :: xs

def commaList (p : Reader α) : Reader (List α) := do
  let xs ← optional (commaList1 p)
  return xs.getD []

section

variable (term : Reader Term)

def arguments : Reader (List Term) := parenthesized (commaList term)

def tuple : Reader (List Term) := parenthesized (commaList1 term)

/-- The values of a call: those in parentheses are several, not one tuple. -/
def values : Reader (List Term) := do
  mark '='
  tuple term <|> (do let t ← term; return [t])

def call : Reader Compound := do
  let name ← lowerName
  let args ← arguments term
  let vals ← optional (values term)
  return ⟨String.ofList name, args, vals.getD []⟩

def compound : Reader Compound :=
  call term <|> (do let args ← tuple term; return Compound.tuple args)

/-- The end of a list behind its elements. A bar brings one more variable or the elements of another
list. -/
def listEnd (policy : Policy) (list : Reader (List Term)) : Reader (List Term) :=
  (do
    mark '|'
    let tail ← (do let v ← lexeme policy upperName; return [v]) <|> list
    mark ']'
    return tail) <|>
  (do
    mark ']'
    return [])

def bracketed (policy : Policy) (list : Reader (List Term)) : Reader (List Term) := do
  mark '['
  (do
    let items ← commaList1 term
    let tail ← listEnd policy list
    return items ++ tail) <|>
  (do
    mark ']'
    return [])

def anyTerm (policy : Policy) (list : Reader (List Term)) : Reader Term :=
  (do let f ← compound term; return f.toTerm) <|>
  (do let items ← bracketed term policy list; return .list items) <|>
  lexeme policy lowerName <|>
  lexeme policy upperName <|>
  lexeme policy decimalNumeral <|>
  lexeme policy wholeNumeral <|>
  lexeme policy (quotedLiteral '\'') <|>
  lexeme policy (quotedLiteral '"')

end

mutual

def term (policy : Policy) : Nat → Reader Term
  | 0 => exhausted
  | n + 1 => anyTerm (fun cs => term policy n cs) policy (fun cs => list policy n cs)

def list (policy : Policy) : Nat → Reader (List Term)
  | 0 => exhausted
  | n + 1 => bracketed (fun cs => term policy n cs) policy (fun cs => list policy n cs)

end

end Clausal.Reader
