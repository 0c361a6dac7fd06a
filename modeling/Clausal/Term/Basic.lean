import Clausal.Binary64.Basic

/-! # Terms

Variables, constants, compounds and lists. A compound is a named call or a tuple, which has no name;
a call may carry the values it stands for. -/

namespace Clausal

/-- Floating-point constants are compared by their bits, so that they can be members of a set. -/
inductive Constant
  | bool (b : Bool)
  | int (n : Int64)
  | float (x : Binary64)
  | str (s : String)
deriving DecidableEq

inductive Term
  | var (name : String)
  | const (c : Constant)
  | compound (name : String) (args values : List Term)
  | list (items : List Term)

mutual

def Term.decEq : (s t : Term) → Decidable (s = t)
  | .var x, .var y => decidable_of_iff (x = y) (by simp)
  | .const c, .const d => decidable_of_iff (c = d) (by simp)
  | .compound f as vs, .compound g bs ws =>
    if h : f = g then
      match Term.decEqs as bs with
      | .isTrue ha =>
        match Term.decEqs vs ws with
        | .isTrue hv => .isTrue (by subst h ha hv; rfl)
        | .isFalse hv => .isFalse (by simp [hv])
      | .isFalse ha => .isFalse (by simp [ha])
    else .isFalse (by simp [h])
  | .list as, .list bs =>
    match Term.decEqs as bs with
    | .isTrue h => .isTrue (by subst h; rfl)
    | .isFalse h => .isFalse (by simp [h])
  | .var _, .const _ | .var _, .compound .. | .var _, .list _ => .isFalse (by simp)
  | .const _, .var _ | .const _, .compound .. | .const _, .list _ => .isFalse (by simp)
  | .compound .., .var _ | .compound .., .const _ | .compound .., .list _ => .isFalse (by simp)
  | .list _, .var _ | .list _, .const _ | .list _, .compound .. => .isFalse (by simp)

def Term.decEqs : (ss ts : List Term) → Decidable (ss = ts)
  | [], [] => .isTrue rfl
  | s :: ss, t :: ts =>
    match Term.decEq s t with
    | .isTrue h =>
      match Term.decEqs ss ts with
      | .isTrue hs => .isTrue (by subst h hs; rfl)
      | .isFalse hs => .isFalse (by simp [hs])
    | .isFalse h => .isFalse (by simp [h])
  | [], _ :: _ | _ :: _, [] => .isFalse (by simp)

end

instance : DecidableEq Term := Term.decEq

/-- A call `name(args)` with its values, or a tuple. -/
structure Compound where
  name : String
  args : List Term
  values : List Term
deriving DecidableEq

namespace Compound

def tuple (args : List Term) : Compound := ⟨"", args, []⟩

def isTuple (f : Compound) : Bool := f.name.isEmpty

/-- Arguments and values count alike. -/
def arity (f : Compound) : Nat := f.args.length + f.values.length

def toTerm (f : Compound) : Term := .compound f.name f.args f.values

end Compound

namespace Term

def compound? : Term → Option Compound
  | .compound name args values => some ⟨name, args, values⟩
  | _ => none

def var? : Term → Option String
  | .var name => some name
  | _ => none

def list? : Term → Option (List Term)
  | .list items => some items
  | _ => none

def isTuple : Term → Bool
  | .compound name .. => name.isEmpty
  | _ => false

/-- The symbol that every list stands under. -/
def listSymbol : String := "\x7bL\x7d"

end Term

end Clausal
