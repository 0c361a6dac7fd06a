import Clausal.Text.Unprintable

/-! # Quoted text

A text between double quotes in which every character can be seen: the usual ones are escaped by a
backslash and a letter, other unprintable ones by their code point. -/

namespace Clausal.Text

def escaped (c : Char) : List Char :=
  match c with
  | '\x00' => ['\\', '0']
  | '\t' => ['\\', 't']
  | '\r' => ['\\', 'r']
  | '\n' => ['\\', 'n']
  | '"' => ['\\', '"']
  | '\\' => ['\\', '\\']
  | c =>
    if isUnprintable c then '\\' :: 'u' :: '\x7b' :: Nat.toDigits 16 c.toNat ++ ['\x7d'] else [c]

def quotedChars (cs : List Char) : List Char := '"' :: cs.flatMap escaped ++ ['"']

def quoted (s : String) : String := String.ofList (quotedChars s.toList)

end Clausal.Text
