import Clausal.CommandLine.Options
import Clausal.Construct
import Clausal.Sentence.Normal

/-! # Statements

One statement under the options of the command line: what it comes to, and what is printed of it. -/

namespace Clausal.CommandLine

structure Outcome where
  text : String
  dump : String
  vars : List String

namespace Outcome

def ofText (text : String) : Outcome := ⟨text, Text.quoted text, []⟩

/-- Rules are laid out over several lines if that is wanted. -/
def ofConstruct (multiline : Bool) (c : Construct) : Outcome :=
  let text := if multiline then (c.layout? 4).getD c.text else c.text
  ⟨text, c.dump, Text.sorted c.vars⟩

/-- The dump and the variables are printed on request. -/
def written (verbose : Bool) (o : Outcome) : String :=
  o.text ++ "\n" ++
    if verbose then
      "  " ++ o.dump ++ "\n  variables: \x7b" ++ ", ".intercalate o.vars ++ "\x7d\n"
    else ""

end Outcome

def evaluate (options : Options) (statement : String) : Except Error Outcome :=
  match options.mode with
  | .normalize =>
    match Sentence.normalize options.multiline statement with
    | .ok text => .ok (.ofText text)
    | .error e => .error (.neck e)
  | .parse kind => do
    let text ←
      if options.normalize then (Sentence.normalize options.multiline statement).mapError .neck
      else .ok statement
    return .ofConstruct options.multiline (← Construct.parse kind text)

def respond (options : Options) (statement : List Char) : String :=
  match evaluate options (String.ofList statement) with
  | .ok o => o.written options.verbose
  | .error e => "Parse error: " ++ e.message ++ "\n"

end Clausal.CommandLine
