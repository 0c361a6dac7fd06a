import Clausal.Parse
import Clausal.Term.Text

/-! # Fragments

A fragment is the text of a lexeme or a term that has been read already. Of the terms only compounds
and lists stand for themselves: the others have to come as lexemes. -/

namespace Clausal

inductive Fragment
  | lexeme (text : String)
  | term (t : Term)

def Fragment.classify : Fragment → Except ReadError Term
  | .lexeme text =>
    match Lexeme.meaning? text.toList with
    | some t => .ok t
    | none => .error (.unclassified text)
  | .term t =>
    match t with
    | .compound .. | .list _ => .ok t
    | .var _ | .const _ => .error (.unclassified t.text)

end Clausal
