import Clausal.Formula.Text

/-! # Formulas as parts of a rule

A rule can be made of two formulas if the first is an atom and the second is no rule itself. -/

namespace Clausal

inductive ClauseError
  /-- The head is something other than an atom. -/
  | headless (text : String)
  /-- A rule stands where a body is needed. -/
  | notDefinite (text : String)
deriving DecidableEq

def ClauseError.message : ClauseError → String
  | .headless text => "rule head must be an atom, got `" ++ text ++ "`"
  | .notDefinite text => "expected a definite-clause construct, got rule `" ++ text ++ "`"

def Formula.toBody : Formula → Except ClauseError Body
  | .body b => .ok b
  | .rule r => .error (.notDefinite r.text)

/-- The head is looked at first. -/
def Rule.ofFormulas (head body : Formula) : Except ClauseError Rule :=
  match head.atom? with
  | none => .error (.headless head.text)
  | some a => body.toBody.map (Rule.mk a)

end Clausal
