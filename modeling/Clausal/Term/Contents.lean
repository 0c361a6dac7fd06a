import Clausal.Distinct
import Clausal.Term.Basic

/-! # What occurs in a term

The variables, constants and compounds of a term, each listed once. A compound occurs in itself only
as a term: its own contents are those of its arguments and values. -/

namespace Clausal

open Distinct

mutual

def Term.vars : Term → List String
  | .var name => [name]
  | .const _ => []
  | .compound _ args values => union (varsOf args) (varsOf values)
  | .list items => varsOf items

def varsOf : List Term → List String
  | [] => []
  | t :: ts => union t.vars (varsOf ts)

end

mutual

def Term.constants : Term → List Constant
  | .var _ => []
  | .const c => [c]
  | .compound _ args values => union (constantsOf args) (constantsOf values)
  | .list items => constantsOf items

def constantsOf : List Term → List Constant
  | [] => []
  | t :: ts => union t.constants (constantsOf ts)

end

mutual

def Term.compounds : Term → List Compound
  | .var _ => []
  | .const _ => []
  | .compound name args values =>
    List.insert ⟨name, args, values⟩ (union (compoundsOf args) (compoundsOf values))
  | .list items => compoundsOf items

def compoundsOf : List Term → List Compound
  | [] => []
  | t :: ts => union t.compounds (compoundsOf ts)

end

def varsOfAll (sequences : List (List Term)) : List String := varsOf sequences.flatten

namespace Compound

def vars (f : Compound) : List String := union (varsOf f.args) (varsOf f.values)

def constants (f : Compound) : List Constant := union (constantsOf f.args) (constantsOf f.values)

def compounds (f : Compound) : List Compound := union (compoundsOf f.args) (compoundsOf f.values)

def isGround (f : Compound) : Bool := f.vars.isEmpty

end Compound

mutual

def Term.isGround : Term → Bool
  | .var _ => false
  | .const _ => true
  | .compound _ args values => areGround args && areGround values
  | .list items => areGround items

def areGround : List Term → Bool
  | [] => true
  | t :: ts => t.isGround && areGround ts

end

end Clausal
