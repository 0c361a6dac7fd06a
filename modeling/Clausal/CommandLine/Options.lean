import Clausal.Kind

/-! # Options of the command line

Options are read from left to right. An option may be given once, in its long or its short form;
short ones that take no value may share a dash. The request for the version is granted where it
stands. -/

namespace Clausal.CommandLine

/-- What is done with a statement: it is parsed as a construct of some kind, or normalized. -/
inductive Mode
  | parse (kind : Kind)
  | normalize
deriving DecidableEq

namespace Mode

def all : List Mode := Kind.all.map parse ++ [normalize]

def name : Mode → String
  | parse kind => kind.name
  | normalize => "reformat"

def ofName? (name : String) : Option Mode := all.find? fun m => m.name == name

end Mode

structure Options where
  mode : Mode
  multiline : Bool
  normalize : Bool
  verbose : Bool
  input : Option String
deriving DecidableEq

inductive Switch
  | multiline
  | normalize
  | verbose
  | version
deriving DecidableEq

inductive Setting
  | mode
  | input
deriving DecidableEq

abbrev Name := Switch ⊕ Setting

def ofLong? (name : List Char) : Option Name :=
  [("multiline", .inl .multiline), ("reformat", .inl .normalize), ("verbose", .inl .verbose),
    ("version", .inl .version), ("mode", .inr .mode), ("input", .inr .input)].lookup
    (String.ofList name)

def ofShort? : Char → Option Name
  | 'r' => some (.inl .normalize)
  | 'v' => some (.inl .verbose)
  | 'V' => some (.inl .version)
  | 'm' => some (.inr .mode)
  | 'i' => some (.inr .input)
  | _ => none

structure Given where
  switches : List Switch
  mode : Option Mode
  input : Option String

namespace Given

def nothing : Given := ⟨[], none, none⟩

/-- Options that are not given have their defaults. -/
def options (g : Given) : Options where
  mode := g.mode.getD (.parse .formula)
  multiline := g.switches.contains .multiline
  normalize := g.switches.contains .normalize
  verbose := g.switches.contains .verbose
  input := g.input

/-- A switch that is not on yet is switched on. -/
def turnOn? (g : Given) (s : Switch) : Option Given :=
  if g.switches.contains s then none else some { g with switches := s :: g.switches }

/-- A setting takes one value, which is of the right form. -/
def assign? (g : Given) (s : Setting) (value : String) : Option Given :=
  match s with
  | .mode =>
    match g.mode, Mode.ofName? value with
    | none, some m => some { g with mode := some m }
    | _, _ => none
  | .input =>
    if g.input.isNone ∧ value ≠ "" then some { g with input := some value } else none

end Given

inductive Request
  | run (options : Options)
  | version
  | misuse
deriving DecidableEq

inductive Group
  | read (g : Given)
  | valueOf (s : Setting) (g : Given)
  | version
  | misuse

def Group.ofOption : Option Given → Group
  | some g => read g
  | none => misuse

/-- Short options behind one dash. What follows a setting is its value, with an equals sign in front
or without one. -/
def readGroup (g : Given) : List Char → Group
  | [] => .read g
  | c :: cs =>
    match ofShort? c with
    | none => .misuse
    | some (.inl .version) => .version
    | some (.inl s) =>
      match g.turnOn? s with
      | some g => readGroup g cs
      | none => .misuse
    | some (.inr s) =>
      match cs with
      | [] => .valueOf s g
      | '=' :: value => .ofOption (g.assign? s (String.ofList value))
      | value => .ofOption (g.assign? s (String.ofList value))

/-- A long option behind its dashes, with or without a value. -/
def readLong (g : Given) (cs : List Char) : Group :=
  let name := cs.takeWhile (· != '=')
  let value := (cs.dropWhile (· != '=')).tail?
  match ofLong? name, value with
  | none, _ => .misuse
  | some (.inl .version), none => .version
  | some (.inl s), none => .ofOption (g.turnOn? s)
  | some (.inl _), some _ => .misuse
  | some (.inr s), none => .valueOf s g
  | some (.inr s), some value => .ofOption (g.assign? s (String.ofList value))

/-- A lone dash is a value, not an option. -/
def looksLikeOption : List Char → Bool
  | '-' :: _ :: _ => true
  | _ => false

/-- One argument. Two dashes alone end the options, and nothing may follow them. -/
def readArgument (g : Given) (isLast : Bool) : List Char → Group
  | '-' :: '-' :: [] => if isLast then .read g else .misuse
  | '-' :: '-' :: cs => readLong g cs
  | '-' :: c :: cs => readGroup g (c :: cs)
  | _ => .misuse

def readGiven (g : Given) : List String → Request
  | [] => .run g.options
  | arg :: args =>
    match readArgument g args.isEmpty arg.toList with
    | .read g => readGiven g args
    | .version => .version
    | .misuse => .misuse
    | .valueOf s g =>
      match args with
      | [] => .misuse
      | value :: args =>
        if looksLikeOption value.toList then .misuse
        else
          match g.assign? s value with
          | some g => readGiven g args
          | none => .misuse

def Request.ofArguments (args : List String) : Request := readGiven .nothing args

end Clausal.CommandLine
