import Clausal.Parse
import Clausal.Formula.Clause

/-! # Errors

All that can go wrong with a construct or a sentence, in one type. -/

namespace Clausal

structure NeckError where
  text : String
deriving DecidableEq

def NeckError.message (e : NeckError) : String :=
  "malformed sentence, more than one ':-' in " ++ Text.quoted e.text

inductive Error
  | read (e : ReadError)
  | neck (e : NeckError)
  | signature (e : SignatureError)
  | clause (e : ClauseError)
deriving DecidableEq

def Error.message : Error → String
  | .read e => e.message
  | .neck e => e.message
  | .signature e => e.message
  | .clause e => e.message

end Clausal
