import Clausal.Sentence.Negation

/-! # Segments

A segment loses the blanks around it and the periods at its end. Its line breaks become single
blanks and its bars commas, and its negations are brought to one form. -/

namespace Clausal.Sentence

def dropPeriods (cs : List Char) : List Char := (cs.reverse.dropWhile (· == '.')).reverse

/-- A run of blanks, last one first, as it is kept. -/
def foldRun (run : List Char) : List Char := if run.contains '\n' then [' '] else run.reverse

/-- A text behind a run of blanks, with every run that holds a line end made a single blank. -/
def joinLinesAfter (run : List Char) : List Char → List Char
  | [] => foldRun run
  | c :: cs =>
    if Text.isBlank c then joinLinesAfter (c :: run) cs
    else foldRun run ++ c :: joinLinesAfter [] cs

def joinLines (cs : List Char) : List Char := joinLinesAfter [] cs

/-- A text behind a run of blanks, or behind a bar if there is no run, with every bar and the blanks
around it made a comma and a blank. -/
def spreadBarsAfter (run : Option (List Char)) : List Char → List Char
  | [] => (run.getD []).reverse
  | c :: cs =>
    if c = '|' then ',' :: ' ' :: spreadBarsAfter none cs
    else if Text.isBlank c then spreadBarsAfter (run.map (c :: ·)) cs
    else (run.getD []).reverse ++ c :: spreadBarsAfter (some []) cs

def spreadBars (cs : List Char) : List Char := spreadBarsAfter (some []) cs

def tidySegment (cs : List Char) : List Char :=
  wrapNegations (spreadBars (joinLines (Text.trimEnd (dropPeriods (Text.trim cs)))))

end Clausal.Sentence
