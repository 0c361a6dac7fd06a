import Clausal.Dump
import Clausal.Error
import Clausal.Formula.Contents

/-! # Constructs

A construct of any kind, with what all kinds have in common: parsing, text, dump and contents.
Constructs of different kinds are never equal. -/

namespace Clausal

inductive Construct
  | term (t : Term)
  | list (items : List Term)
  | compound (f : Compound)
  | atom (a : Atom)
  | body (b : Body)
  | rule (r : Rule)
  | formula (φ : Formula)
  | directive (i : Include)
  | signature (s : Signature)
deriving DecidableEq

namespace Construct

def kind : Construct → Kind
  | term _ => .term
  | list _ => .list
  | compound _ => .compound
  | atom _ => .atom
  | body _ => .body
  | rule _ => .rule
  | formula _ => .formula
  | directive _ => .directive
  | signature _ => .signature

def parse (kind : Kind) (text : String) : Except Error Construct :=
  match kind with
  | .term => ((Term.parse text).map term).mapError .read
  | .list => ((Term.parseList text).map list).mapError .read
  | .compound => ((Compound.parse text).map compound).mapError .read
  | .atom => ((Atom.parse text).map atom).mapError .read
  | .body => ((Body.parse text).map body).mapError .read
  | .rule => ((Rule.parse text).map rule).mapError .read
  | .formula => ((Formula.parse text).map formula).mapError .read
  | .directive => ((Include.parse text).map directive).mapError .read
  | .signature => ((Signature.parse text).map signature).mapError .signature

def text : Construct → String
  | term t => t.text
  | list items => (Term.list items).text
  | compound f => f.text
  | atom a => a.text
  | body b => b.text
  | rule r => r.text
  | formula φ => φ.text
  | directive i => i.text
  | signature s => s.text

/-- The construct without its kind, except where one kind holds several sorts. -/
def dump : Construct → String
  | term t => t.dump
  | list items => Dump.listRecord (dumps items)
  | compound f => f.dump
  | atom a => a.dump
  | body b => b.dump
  | rule r => r.dump
  | formula φ => φ.dump
  | directive i => i.dump
  | signature s => s.dump

def vars : Construct → List String
  | term t => t.vars
  | list items => varsOf items
  | compound f => f.vars
  | atom a => a.vars
  | body b => b.vars
  | rule r => r.vars
  | formula φ => φ.vars
  | directive _ => []
  | signature _ => []

def constants : Construct → List Constant
  | term t => t.constants
  | list items => constantsOf items
  | compound f => f.constants
  | atom a => a.constants
  | body b => b.constants
  | rule r => r.constants
  | formula φ => φ.constants
  | directive _ => []
  | signature _ => []

def compounds : Construct → List Compound
  | term t => t.compounds
  | list items => compoundsOf items
  | compound f => f.compounds
  | atom a => a.compounds
  | body b => b.compounds
  | rule r => r.compounds
  | formula φ => φ.compounds
  | directive _ => []
  | signature _ => []

def rule? : Construct → Option Rule
  | rule r => some r
  | formula φ => φ.rule?
  | _ => none

/-- The text over several lines, for constructs that are rules. -/
def layout? (c : Construct) (indent : Nat) : Option String := c.rule?.map (·.layout indent)

end Construct

end Clausal
