import Clausal.Construct
import Clausal.Fragment
import Clausal.Sentence.Normal

/-! # The workbench

A stack of constructs on which larger ones are put together step by step. A step that fails has no
result, so that the stack stays as it was. Parts are taken from the top one by one, and each is
looked at as it is taken. -/

namespace Clausal

inductive Misuse
  | tooFew
  | wrongKind
  | noSuchPart
deriving DecidableEq

inductive StepError
  | misuse (m : Misuse)
  | failed (e : Error)
deriving DecidableEq

/-- The top is the head of the list. -/
abbrev Workbench := List Construct

namespace Workbench

inductive Step
  | parse (kind : Kind) (text : String)
  | push (c : Construct)
  | classify (text : String)
  | fragment
  | compound (name : String) (args values : Nat)
  | tuple (args : Nat)
  | list (items : Nat)
  | atom (name : String) (args : Nat)
  | compare (c : Comparison)
  | conj
  | negate
  | rule
  | ruleOfFormulas
  | toFormula
  | toBody
  | head
  | body
  | part (index : Nat)
  | literal (index : Nat)
  | reparse (kind : Kind)
  | dup
  | swap
  | drop

/-- Something made from what is taken off the stack. -/
abbrev Making := StateT Workbench (Except StepError)

variable {α : Type}

def misuse (m : Misuse) : Making α := throw (.misuse m)

def orFail (r : Except Error α) : Making α :=
  match r with
  | .ok x => pure x
  | .error e => throw (.failed e)

def pop : Making Construct := do
  match ← get with
  | [] => misuse .tooFew
  | c :: rest =>
    set rest
    return c

/-- The top, if it can be seen as something of the wanted sort. -/
def popAs (view? : Construct → Option α) : Making α := do
  match view? (← pop) with
  | some x => return x
  | none => misuse .wrongKind

def put (c : Construct) : Making Unit := modify (c :: ·)

end Workbench

namespace Construct

def asTerm? : Construct → Option Term
  | term t => some t
  | list items => some (.list items)
  | compound f => some f.toTerm
  | _ => none

def asAtom? : Construct → Option Atom
  | atom a => some a
  | _ => none

def asBody? : Construct → Option Body
  | atom a => some (.atom a)
  | body b => some b
  | _ => none

def asRule? : Construct → Option Rule
  | rule r => some r
  | _ => none

def asFormula? : Construct → Option Formula
  | atom a => some (.body (.atom a))
  | body b => some (.body b)
  | rule r => some (.rule r)
  | formula φ => some φ
  | _ => none

/-- The signature of a predicate or a compound. -/
def signature? : Construct → Option (Except SignatureError Signature)
  | atom a => some a.signature
  | compound f => some f.signature
  | _ => none

end Construct

namespace Workbench

def popTerms : Nat → Making (List Term)
  | 0 => return []
  | n + 1 => do
    let last ← popAs Construct.asTerm?
    let others ← popTerms n
    return others ++ [last]

def nth (bs : List Body) (index : Nat) : Making Body :=
  match bs[index]? with
  | some b => return b
  | none => misuse .noSuchPart

def run : Step → Making Unit
  | .parse kind text => do put (← orFail (Construct.parse kind text))
  | .push c => put c
  | .classify text => do
    put (.term (← orFail ((Fragment.lexeme text).classify.mapError .read)))
  | .fragment => do
    let t ← popAs Construct.asTerm?
    put (.term (← orFail ((Fragment.term t).classify.mapError .read)))
  | .compound name args values => do
    let vs ← popTerms values
    let ts ← popTerms args
    put (.compound ⟨name, ts, vs⟩)
  | .tuple args => do put (.compound (.tuple (← popTerms args)))
  | .list items => do put (.list (← popTerms items))
  | .atom name args => do put (.atom ⟨name, ← popTerms args⟩)
  | .compare c => do
    let right ← popAs Construct.asTerm?
    let left ← popAs Construct.asTerm?
    put (.atom (Atom.compare c left right))
  | .conj => do
    let right ← popAs Construct.asBody?
    let left ← popAs Construct.asBody?
    put (.body (.conj left right))
  | .negate => do put (.body (.neg (← popAs Construct.asBody?)))
  | .rule => do
    let b ← popAs Construct.asBody?
    let h ← popAs Construct.asAtom?
    put (.rule ⟨h, b⟩)
  | .ruleOfFormulas => do
    let b ← popAs Construct.asFormula?
    let h ← popAs Construct.asFormula?
    put (.rule (← orFail ((Rule.ofFormulas h b).mapError .clause)))
  | .toFormula => do put (.formula (← popAs Construct.asFormula?))
  | .toBody => do
    let φ ← popAs Construct.asFormula?
    put (.body (← orFail (φ.toBody.mapError .clause)))
  | .head => do put (.atom (← popAs Construct.asRule?).head)
  | .body => do put (.body (← popAs Construct.asRule?).body)
  | .part index => do put (.body (← nth (← popAs Construct.asFormula?).parts index))
  | .literal index => do put (.body (← nth (← popAs Construct.asBody?).literals index))
  | .reparse kind => do put (← orFail (Construct.parse kind (← pop).text))
  | .dup => do
    let c ← pop
    put c
    put c
  | .swap => do
    let c ← pop
    let d ← pop
    put c
    put d
  | .drop => do let _ ← pop

def step (s : Step) (bench : Workbench) : Except StepError Workbench :=
  (run s bench).map (·.2)

/-! ## What can be seen without a change -/

def look (m : Making α) (bench : Workbench) : Except StepError α := (m bench).map (·.1)

def top : Making Construct := pop

def normalText (multiline : Bool) : Making String := do
  orFail ((Sentence.normalize multiline (← pop).text).mapError .neck)

def layout (indent : Nat) : Making String := popAs (·.layout? indent)

def signature : Making (Except SignatureError Signature) := popAs Construct.signature?

def sameTwo : Making Bool := do
  let c ← pop
  let d ← pop
  return c = d

end Workbench

end Clausal
