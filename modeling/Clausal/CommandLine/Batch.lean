import Clausal.CommandLine.Line
import Clausal.CommandLine.Statement

/-! # Batches

A file of statements. A statement may take several lines, the last of which ends in a period. Blank
lines and lines of comment are skipped where no statement has begun. -/

namespace Clausal.CommandLine.Batch

def isSkipped (line : List Char) : Bool :=
  match Text.trim line with
  | [] => true
  | c :: _ => c == '%'

def endsStatement (line : List Char) : Bool := (Text.trim line).getLast? == some '.'

def hold (held line : List Char) : List Char :=
  if held = [] then line else held ++ '\n' :: line

/-- The statements that some lines complete, and what they leave unfinished. -/
def gather (held : List Char) : List (List Char) → List (List Char) × List Char
  | [] => ([], held)
  | line :: lines =>
    if held = [] ∧ isSkipped line then gather held lines
    else if endsStatement line then
      let (statements, left) := gather [] lines
      (Text.trim (hold held line) :: statements, left)
    else gather (hold held line) lines

/-- What is left unfinished at the end counts as a statement, unless it is blank. -/
def finish (left : List Char) : List (List Char) :=
  match Text.trim left with
  | [] => []
  | statement => [statement]

def statements (lines : List (List Char)) : List (List Char) :=
  let (complete, left) := gather [] lines
  complete ++ finish left

def respondAll (options : Options) (statements : List (List Char)) : String :=
  String.join (statements.map (respond options))

/-- The longest beginning of a list in which nothing is missing, and whether that is all of it. -/
def present {α : Type} : List (Option α) → List α × Bool
  | [] => ([], true)
  | none :: _ => ([], false)
  | some x :: xs =>
    let (ys, whole) := present xs
    (x :: ys, whole)

/-- What is printed for the lines of a file, and whether all of them could be read. Those behind an
unreadable line are not looked at, and a statement that it cuts off is lost. -/
def transcript (options : Options) (lines : List (Option (List Char))) : String × Bool :=
  match present lines with
  | (lines, true) => (respondAll options (statements lines), true)
  | (lines, false) => (respondAll options (gather [] lines).1, false)

end Clausal.CommandLine.Batch
