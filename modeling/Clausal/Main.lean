import Clausal.CommandLine.Run

/-! # The program -/

namespace Clausal.CommandLine

/-- One line of the standard input, up to and with its line feed. -/
partial def readLine (input : IO.FS.Stream) (read : ByteArray) : IO ByteArray := do
  let byte ← input.read 1
  if byte.isEmpty then return read
  else if byte == ⟨#[10]⟩ then return read ++ byte
  else readLine input (read ++ byte)

partial def prompt (options : Options) (input output : IO.FS.Stream) : IO Unit := do
  output.putStr Prompt.invitation
  output.flush
  let bytes ← readLine input .empty
  if bytes.isEmpty then output.putStr Prompt.farewell
  else
    match decode? bytes.toList with
    | none => output.putStr Prompt.unreadable
    | some line =>
      output.putStr (Prompt.answer options line)
      prompt options input output

end Clausal.CommandLine

section

open Clausal.CommandLine

def main (args : List String) : IO UInt32 := do
  let output ← IO.getStdout
  match Request.ofArguments args with
  | .misuse =>
    IO.eprintln "error: the arguments cannot be understood"
    return 2
  | .version =>
    output.putStr versionText
    return 0
  | .run options =>
    match options.input with
    | none =>
      output.putStr (Prompt.greeting options)
      prompt options (← IO.getStdin) output
      return 0
    | some path =>
      match ← (IO.FS.readBinFile path).toBaseIO with
      | .error _ =>
        IO.eprintln ("cannot open input file " ++ path)
        return 1
      | .ok bytes =>
        let done := Run.ofBatch options bytes.toList
        output.putStr done.output
        return done.exitCode.toUInt32

end
