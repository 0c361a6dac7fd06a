import Clausal.Kind
import Clausal.Text.Quoted
import Clausal.Reader.Formula

/-! # Parsing

A text is parsed by reading one construct that takes all of it, up to junk at its end. The error
tells where the text stopped making sense, or which lexeme has no meaning. -/

namespace Clausal

inductive ReadError
  /-- This lexeme stands for no term. -/
  | unclassified (lexeme : String)
  /-- Nothing that belongs to the target fits the rest of the text. -/
  | unexpected (target : Kind) (rest : String)
deriving DecidableEq

def ReadError.message : ReadError → String
  | .unclassified lexeme => "cannot classify " ++ Text.quoted lexeme ++ " as a term"
  | .unexpected target rest =>
    "failed to parse " ++ target.title ++ ": unexpected input at " ++ Text.quoted rest

namespace Reader

variable {α : Type}

def complete (target : Kind) (p : Reader α) (cs : List Char) : Except ReadError α :=
  match p cs with
  | .done x rest =>
    match skipJunk rest with
    | [] => .ok x
    | rest => .error (.unexpected target (String.ofList rest))
  | .stuck rest => .error (.unexpected target (String.ofList rest))
  | .rejected lexeme => .error (.unclassified (String.ofList lexeme))
  | .exhausted => .error (.unexpected target "")

/-- More levels than a text of this length can nest. -/
def boundFor (cs : List Char) : Nat := cs.length + 1

/-- A text under a reader whose bound its length provides. -/
def parseUnder (target : Kind) (p : Nat → Reader α) (text : String) : Except ReadError α :=
  complete target (p (boundFor text.toList)) text.toList

def parseTerm (policy : Policy) : String → Except ReadError Term :=
  parseUnder .term (term policy)

def parseList (policy : Policy) : String → Except ReadError (List Term) :=
  parseUnder .list (list policy)

def parseCompound (policy : Policy) : String → Except ReadError Compound :=
  parseUnder .compound fun n => compound (term policy n)

def parseAtom (policy : Policy) : String → Except ReadError Atom :=
  parseUnder .atom (atom policy)

def parseBody (policy : Policy) : String → Except ReadError Body :=
  parseUnder .body (closedBody policy)

def parseRule (policy : Policy) : String → Except ReadError Rule :=
  parseUnder .rule (rule policy)

def parseFormula (policy : Policy) : String → Except ReadError Formula :=
  parseUnder .formula (formula policy)

end Reader

def Term.parse : String → Except ReadError Term := Reader.parseTerm .commit

def Term.parseList : String → Except ReadError (List Term) := Reader.parseList .commit

def Compound.parse : String → Except ReadError Compound := Reader.parseCompound .commit

def Atom.parse : String → Except ReadError Atom := Reader.parseAtom .commit

def Body.parse : String → Except ReadError Body := Reader.parseBody .commit

def Rule.parse : String → Except ReadError Rule := Reader.parseRule .commit

def Formula.parse : String → Except ReadError Formula := Reader.parseFormula .commit

def Include.parse (text : String) : Except ReadError Include :=
  Reader.complete .directive Reader.directive text.toList

end Clausal
