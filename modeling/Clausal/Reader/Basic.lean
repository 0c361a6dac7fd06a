/-! # Readers

A reader takes a construct off the front of a text. It answers in one of four ways: with a value and
the rest of the text, that it is stuck where nothing fits, that a lexeme has been rejected, or that
its bound on nesting or repetition ran out. Being stuck lets another alternative try; the last two
end the whole reading. -/

namespace Clausal

inductive Reply (α : Type)
  | done (value : α) (rest : List Char)
  | stuck (rest : List Char)
  | rejected (lexeme : List Char)
  | exhausted
deriving DecidableEq

def Reader (α : Type) := List Char → Reply α

namespace Reader

variable {α β : Type}

def pure (x : α) : Reader α := fun cs => .done x cs

def bind (p : Reader α) (f : α → Reader β) : Reader β := fun cs =>
  match p cs with
  | .done x rest => f x rest
  | .stuck rest => .stuck rest
  | .rejected w => .rejected w
  | .exhausted => .exhausted

instance : Monad Reader where
  pure := Reader.pure
  bind := Reader.bind

def exhausted : Reader α := fun _ => .exhausted

/-- The shorter of two rests, which is where a reader got further; the first one if they tie. -/
def further (r s : List Char) : List Char := if s.length < r.length then s else r

/-- The second reader where the first is stuck. If both are, the reply tells which got further. -/
def orElse (p q : Reader α) : Reader α := fun cs =>
  match p cs with
  | .stuck r =>
    match q cs with
    | .stuck s => .stuck (further r s)
    | reply => reply
  | reply => reply

instance : OrElse (Reader α) where
  orElse p q := Reader.orElse p (q ())

/-- Nothing is read where the reader is stuck. -/
def optional (p : Reader α) : Reader (Option α) := fun cs =>
  match p cs with
  | .done x rest => .done (some x) rest
  | .stuck _ => .done none cs
  | .rejected w => .rejected w
  | .exhausted => .exhausted

/-- A reader used again and again until it is stuck, fewer times than the bound says. -/
def repeated (p : Reader α) : Nat → Reader (List α)
  | 0 => exhausted
  | n + 1 => fun cs =>
    match p cs with
    | .done x rest => (do let xs ← repeated p n; return x :: xs : Reader (List α)) rest
    | .stuck _ => .done [] cs
    | .rejected w => .rejected w
    | .exhausted => .exhausted

/-- A reader used again and again. The bound is out of reach if each use takes a character. -/
def many (p : Reader α) : Reader (List α) := fun cs => repeated p (cs.length + 1) cs

end Reader

end Clausal
