import Clausal.Term.Contents
import Clausal.Formula.Basic

/-! # What occurs in a formula

The variables, constants and compounds of atoms, bodies, rules and formulas, each listed once. -/

namespace Clausal

open Distinct

namespace Atom

def vars (a : Atom) : List String := varsOf a.args

def constants (a : Atom) : List Constant := constantsOf a.args

def compounds (a : Atom) : List Compound := compoundsOf a.args

def isGround (a : Atom) : Bool := a.vars.isEmpty

end Atom

namespace Body

def vars : Body → List String
  | atom a => a.vars
  | conj left right => union left.vars right.vars
  | neg inner => inner.vars

def constants : Body → List Constant
  | atom a => a.constants
  | conj left right => union left.constants right.constants
  | neg inner => inner.constants

def compounds : Body → List Compound
  | atom a => a.compounds
  | conj left right => union left.compounds right.compounds
  | neg inner => inner.compounds

def isGround (b : Body) : Bool := b.vars.isEmpty

end Body

namespace Rule

def vars (r : Rule) : List String := union r.head.vars r.body.vars

def constants (r : Rule) : List Constant := union r.head.constants r.body.constants

def compounds (r : Rule) : List Compound := union r.head.compounds r.body.compounds

def isGround (r : Rule) : Bool := r.vars.isEmpty

end Rule

namespace Formula

def vars : Formula → List String
  | body b => b.vars
  | rule r => r.vars

def constants : Formula → List Constant
  | body b => b.constants
  | rule r => r.constants

def compounds : Formula → List Compound
  | body b => b.compounds
  | rule r => r.compounds

def isGround (φ : Formula) : Bool := φ.vars.isEmpty

end Formula

end Clausal
