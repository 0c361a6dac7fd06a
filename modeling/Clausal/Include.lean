/-! # Include directives

A directive names a file whose contents belong to the program. The path is written as it is. -/

namespace Clausal

structure Include where
  path : String
deriving DecidableEq

namespace Include

def chars (i : Include) : List Char :=
  "include('".toList ++ i.path.toList ++ ['\'', ')']

def text (i : Include) : String := String.ofList i.chars

end Include

end Clausal
