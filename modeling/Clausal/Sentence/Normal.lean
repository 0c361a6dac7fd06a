import Clausal.Error
import Clausal.Sentence.Parts
import Clausal.Sentence.Segment

/-! # Normal form of sentences

A sentence in free layout is brought to the form that parsers expect: one head, one neck, segments
joined by commas, one period. The head is kept as it is, but for the blanks around it. -/

namespace Clausal.Sentence

def separator (multiline : Bool) : List Char :=
  if multiline then [',', '\n', '\t'] else [',', ' ']

def tidyBody (multiline : Bool) (cs : List Char) : List Char :=
  (separator multiline).intercalate (((segments cs).map tidySegment).filter (· ≠ []))

/-- A neck with what separates it from head and body. Without a head it is a directive, which stays
on one line. -/
def headed (multiline : Bool) : (head : List Char) → List Char
  | [] => [':', '-', ' ']
  | head => head ++ (if multiline then [' ', ':', '-', '\n', '\t'] else [' ', ':', '-', ' '])

def normalChars? (multiline : Bool) (cs : List Char) : Option (List Char) :=
  match neckParts cs with
  | [body] => some (tidyBody multiline body ++ ['.'])
  | [head, body] => some (headed multiline (Text.trim head) ++ tidyBody multiline body ++ ['.'])
  | _ => none

def normalize (multiline : Bool) (text : String) : Except NeckError String :=
  match normalChars? multiline text.toList with
  | some cs => .ok (String.ofList cs)
  | none => .error ⟨text⟩

end Clausal.Sentence
