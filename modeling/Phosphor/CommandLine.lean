import Phosphor.Console
import Phosphor.Numeral

namespace Phosphor

inductive Token
  | separator
  | option (name : String) (value : Option String)
  | flag
  | plain
  deriving DecidableEq, Repr

/-- An option begins with two dashes, and an equals sign attaches its value.
A lone dash is a plain word. -/
def Token.ofWord (word : String) : Token :=
  match word.toList with
  | ['-', '-'] => .separator
  | '-' :: '-' :: cs =>
    let name := String.ofList (cs.takeWhile (· ≠ '='))
    match cs.dropWhile (· ≠ '=') with
    | _ :: value => .option name (some (String.ofList value))
    | [] => .option name none
  | '-' :: _ :: _ => .flag
  | _ => .plain

structure CommandLine where
  path : Option String
  options : List (String × String)
  deriving DecidableEq, Repr

namespace CommandLine

def addPath (c : CommandLine) (word : String) : Option CommandLine :=
  if c.path.isNone ∧ word ≠ "" then some { c with path := some word } else none

def addOption (known : List String) (c : CommandLine) (name value : String) : Option CommandLine :=
  if name ∈ known ∧ (c.options.lookup name).isNone then
    some { c with options := (name, value) :: c.options }
  else none

/-- An option without an attached value takes the next word, which must be
plain. After `--` every word is a path. -/
def scan (known : List String) (c : CommandLine) : List String → Option CommandLine
  | [] => some c
  | word :: words =>
    match Token.ofWord word with
    | .separator => words.foldlM addPath c
    | .flag => none
    | .plain => (c.addPath word).bind fun c ↦ scan known c words
    | .option name (some value) => (c.addOption known name value).bind fun c ↦ scan known c words
    | .option name none =>
      match words with
      | [] => none
      | value :: words =>
        if Token.ofWord value = .plain then
          (c.addOption known name value).bind fun c ↦ scan known c words
        else none

def parse? (known : List String) (words : List String) : Option CommandLine :=
  scan known ⟨none, []⟩ words

def value? {α : Type} (c : CommandLine) (name : String) (read : String → Option α) :
    Option (Option α) :=
  match c.options.lookup name with
  | none => some none
  | some text => (read text).map some

end CommandLine

structure ListingOptions where
  path : String
  start : Option UInt16
  length : Option UInt16
  deriving DecidableEq, Repr

def ListingOptions.parse? (words : List String) : Option ListingOptions := do
  let c ← CommandLine.parse? ["start", "len"] words
  let path ← c.path
  let start ← c.value? "start" Numeral.address?
  let length ← c.value? "len" Numeral.address?
  return ⟨path, start, length⟩

structure PlayOptions where
  path : String
  cadence : UInt32
  seed : Option UInt64
  deriving DecidableEq, Repr

def PlayOptions.parse? (words : List String) : Option PlayOptions := do
  let c ← CommandLine.parse? ["cycles-per-tick", "seed"] words
  let path ← c.path
  let cadence ← c.value? "cycles-per-tick" Numeral.count?
  let seed ← c.value? "seed" Numeral.seed?
  return ⟨path, cadence.getD Console.defaultCadence, seed⟩

end Phosphor
