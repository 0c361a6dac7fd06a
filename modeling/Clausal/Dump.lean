import Clausal.Include
import Clausal.Formula.Basic
import Clausal.Numeral
import Clausal.Binary64.Text
import Clausal.Text.Quoted

/-! # Dumps

The make-up of a construct as text: every part under its name, nested as in the construct itself.
What is derived from the parts is not written out. -/

namespace Clausal

namespace Dump

def record (name : String) (fields : List (String × String)) : String :=
  name ++ " \x7b " ++ ", ".intercalate (fields.map fun (field, value) => field ++ ": " ++ value)
    ++ " \x7d"

/-- A record of parts from which more is derived. -/
def derivedRecord (name : String) (fields : List (String × String)) : String :=
  record name (fields ++ [("derived", "..")])

def wrapped (name inner : String) : String := name ++ "(" ++ inner ++ ")"

def sequence (items : List String) : String := "[" ++ ", ".intercalate items ++ "]"

/-- A compound whose arguments and values are dumped already. -/
def compoundRecord (name : String) (args values : List String) : String :=
  derivedRecord "Function"
    [("symbol", Text.quoted name), ("args", sequence args), ("values", sequence values)]

def listRecord (items : List String) : String :=
  derivedRecord "TermList" [("terms", sequence items)]

end Dump

open Dump

def Constant.dump : Constant → String
  | .bool b => wrapped "Boolean" (if b then "true" else "false")
  | .int n => wrapped "Integer" (String.ofList (Numeral.ofInt n.toInt))
  | .float x => wrapped "Float" (String.ofList x.compactChars)
  | .str s => wrapped "String" (Text.quoted s)

mutual

def Term.dump : Term → String
  | .var name => wrapped "Variable" (wrapped "Variable" (Text.quoted name))
  | .const c => wrapped "Constant" c.dump
  | .compound name args values =>
    wrapped "Function" (compoundRecord name (dumps args) (dumps values))
  | .list items => wrapped "List" (listRecord (dumps items))

def dumps : List Term → List String
  | [] => []
  | t :: ts => t.dump :: dumps ts

end

def Compound.dump (f : Compound) : String := compoundRecord f.name (dumps f.args) (dumps f.values)

def Atom.dump (a : Atom) : String :=
  derivedRecord "Atom" [("symbol", Text.quoted a.name), ("args", sequence (dumps a.args))]

def Body.dump : Body → String
  | .atom a => wrapped "Atom" a.dump
  | .conj left right =>
    wrapped "Conjunction"
      (derivedRecord "Conjunction" [("left", left.dump), ("right", right.dump)])
  | .neg inner => wrapped "Negation" (derivedRecord "Negation" [("inner", inner.dump)])

def Rule.dump (r : Rule) : String :=
  derivedRecord "Rule" [("head", r.head.dump), ("body", r.body.dump)]

def Formula.dump : Formula → String
  | .body b => b.dump
  | .rule r => wrapped "Rule" r.dump

def Include.dump (i : Include) : String :=
  record "IncludeFileExpression" [("path", Text.quoted i.path)]

def Signature.dump (s : Signature) : String :=
  record "AtomSignature"
    [("name", Text.quoted s.name), ("arity", String.ofList (Numeral.ofNat s.arity))]

end Clausal
