/-! # Kinds of construct -/

namespace Clausal

inductive Kind
  | term
  | list
  | compound
  | atom
  | body
  | rule
  | formula
  | directive
  | signature
deriving DecidableEq

namespace Kind

def all : List Kind := [term, list, compound, atom, body, rule, formula, directive, signature]

/-- The word by which a kind is asked for. -/
def name : Kind → String
  | term => "term"
  | list => "list"
  | compound => "function"
  | atom => "atom"
  | body => "body"
  | rule => "rule"
  | formula => "formula"
  | directive => "include"
  | signature => "signature"

def ofName? (name : String) : Option Kind := all.find? fun k => k.name == name

/-- What messages call a construct of this kind. -/
def title : Kind → String
  | term => "term"
  | list => "term-list"
  | compound => "function"
  | atom => "atomic-formula"
  | body => "clause body"
  | rule => "rule"
  | formula => "formula"
  | directive => "include directive"
  | signature => "signature"

end Kind

end Clausal
