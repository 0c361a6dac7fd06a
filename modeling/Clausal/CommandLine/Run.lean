import Clausal.CommandLine.Batch
import Clausal.CommandLine.Prompt

/-! # Runs of the program

A run as a function of the arguments, the standard input and the files there are: what it prints and
the code it exits with. -/

namespace Clausal.CommandLine

structure Run where
  output : String
  exitCode : UInt8

def versionText : String := "logic-expr " ++ versionNumber ++ "\n"

/-- Text that the prompt reads. -/
def promptLines (bytes : List UInt8) : List (Option (List Char)) := (byteLines bytes).map decode?

/-- Text that a batch reads, without line ends. -/
def batchLines (bytes : List UInt8) : List (Option (List Char)) :=
  (byteLines bytes).map fun line => (decode? line).map dropLineEnd

def Run.ofBatch (options : Options) (bytes : List UInt8) : Run :=
  let (output, whole) := Batch.transcript options (batchLines bytes)
  ⟨output, if whole then 0 else 1⟩

def run (args : List String) (input : List UInt8) (file? : String → Option (List UInt8)) : Run :=
  match Request.ofArguments args with
  | .misuse => ⟨"", 2⟩
  | .version => ⟨versionText, 0⟩
  | .run options =>
    match options.input with
    | none => ⟨Prompt.greeting options ++ Prompt.conversation options (promptLines input), 0⟩
    | some path =>
      match file? path with
      | none => ⟨"", 1⟩
      | some bytes => .ofBatch options bytes

end Clausal.CommandLine
