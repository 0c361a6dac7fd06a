import Clausal.CommandLine.Line
import Clausal.CommandLine.Statement

/-! # The prompt

A conversation in which each line is a statement. It ends with the input, or at a line that is no
text. -/

namespace Clausal.CommandLine

def versionNumber : String := "0.1.0"

namespace Prompt

def greeting (options : Options) : String :=
  "Logic Expression Parser v" ++ versionNumber ++ "\nMode: " ++ options.mode.name.capitalize ++
    ". Type statements to parse, or Ctrl-D to exit\n\n"

def invitation : String := "logic> "

def farewell : String := "\nGoodbye!\n"

def unreadable : String := "Error reading input: stream did not contain valid UTF-8\n"

/-- What is printed for one line; nothing for a blank one. -/
def answer (options : Options) (line : List Char) : String :=
  match Text.trim line with
  | [] => ""
  | statement => respond options statement

def conversation (options : Options) : List (Option (List Char)) → String
  | [] => invitation ++ farewell
  | none :: _ => invitation ++ unreadable
  | some line :: lines => invitation ++ answer options line ++ conversation options lines

end Prompt

end Clausal.CommandLine
