/-! # Lines of input

Input comes as bytes. It is cut into lines first, each with its line end, and each line is decoded
by itself, so that bytes that are no text spoil one line only. -/

namespace Clausal.CommandLine

/-- The lines of an input, each with its line end; only the last one may lack it. -/
def byteLines (bytes : List UInt8) : List (List UInt8) :=
  bytes.foldr
    (fun b lines =>
      if b = 10 then [b] :: lines
      else
        match lines with
        | [] => [[b]]
        | line :: lines => (b :: line) :: lines)
    []

def decode? (bytes : List UInt8) : Option (List Char) :=
  (String.fromUTF8? ⟨bytes.toArray⟩).map String.toList

/-- A line without its line end, which is a line feed with or without a carriage return before
it. -/
def dropLineEnd (cs : List Char) : List Char :=
  match cs.reverse with
  | '\n' :: '\r' :: rest => rest.reverse
  | '\n' :: rest => rest.reverse
  | _ => cs

end Clausal.CommandLine
