/-
  The arguments of the command line.

  Arguments are taken in order, and the first one that is at fault, or that
  asks for help or for the version, decides.  Flags of one letter may be run
  together, the last of them with its value.
-/
import Bindery.Binding.Plan
import Bindery.Schema.Dialect

namespace Bindery.Command

open Binding Schema

structure Invocation where
  input : String
  /-- The directory to write to; there is none for standard output. -/
  directory : Option String := none
  /-- The grammar language; there is none to have it detected. -/
  dialect : Option Dialect := none
  module : Option String := none
  policy : ConflictPolicy := .replace
  allowDtd : Bool := false
  verbose : Bool := false
deriving DecidableEq, Repr

inductive Request where
  | generate (i : Invocation)
  | help
  | version
  | invalid
deriving DecidableEq, Repr

inductive Setting where
  | directory
  | dialect
  | module
  | onConflict
deriving DecidableEq, Repr

structure Draft where
  input : Option String := none
  directory : Option String := none
  dialect : Option (Option Dialect) := none
  module : Option String := none
  policy : Option ConflictPolicy := none
  allowDtd : Bool := false
  verbose : Bool := false

namespace Draft

def request (d : Draft) : Request :=
  match d.input with
  | none => .invalid
  | some input =>
    .generate {
      input, directory := d.directory, dialect := d.dialect.getD none, module := d.module
      policy := d.policy.getD .replace, allowDtd := d.allowDtd, verbose := d.verbose }

def setInput (d : Draft) (input : String) : Option Draft :=
  if d.input.isSome then none else some { d with input := some input }

def set (d : Draft) (s : Setting) (value : String) : Option Draft :=
  match s with
  | .directory =>
    if d.directory.isSome || value.isEmpty then none else some { d with directory := some value }
  | .dialect =>
    if d.dialect.isSome then none
    else
      match value with
      | "auto" => some { d with dialect := some none }
      | "relaxng" => some { d with dialect := some (some .relaxNg) }
      | "xsd" => some { d with dialect := some (some .xsd) }
      | "wsdl" => some { d with dialect := some (some .wsdl) }
      | _ => none
  | .module => if d.module.isSome then none else some { d with module := some value }
  | .onConflict =>
    if d.policy.isSome then none
    else
      match value with
      | "replace" => some { d with policy := some .replace }
      | "keep" => some { d with policy := some .keep }
      | "error" => some { d with policy := some .error }
      | _ => none

def setVerbose (d : Draft) : Option Draft :=
  if d.verbose then none else some { d with verbose := true }

def setAllowDtd (d : Draft) : Option Draft :=
  if d.allowDtd then none else some { d with allowDtd := true }

end Draft

inductive Taken where
  | done (d : Draft)
  /-- It is an option whose value is the next argument. -/
  | wants (s : Setting) (d : Draft)
  | decided (r : Request)

def Taken.ofOption : Option Draft → Taken
  | some d => .done d
  | none => .decided .invalid

def takeLong (d : Draft) (name : String) (value : Option String) : Taken :=
  let setting (s : Setting) : Taken :=
    match value with
    | some v => .ofOption (d.set s v)
    | none => .wants s d
  match name, value with
  | "help", none => .decided .help
  | "version", none => .decided .version
  | "verbose", none => .ofOption d.setVerbose
  | "allow-dtd", none => .ofOption d.setAllowDtd
  | "directory", _ => setting .directory
  | "dialect", _ => setting .dialect
  | "module", _ => setting .module
  | "on-conflict", _ => setting .onConflict
  | _, _ => .decided .invalid

/-- Takes an option of one letter, with what follows the letter as its
    value. -/
def takeValue (d : Draft) (s : Setting) : List Char → Taken
  | [] => .wants s d
  | '=' :: cs => .ofOption (d.set s (String.ofList cs))
  | cs => .ofOption (d.set s (String.ofList cs))

/-- Takes options of one letter that are run together. -/
def takeShort (d : Draft) : List Char → Taken
  | [] => .done d
  | 'v' :: cs =>
    match d.setVerbose with
    | some d => takeShort d cs
    | none => .decided .invalid
  | 'h' :: _ => .decided .help
  | 'V' :: _ => .decided .version
  | 'd' :: cs => takeValue d .directory cs
  | 'm' :: cs => takeValue d .module cs
  | _ :: _ => .decided .invalid

/-- Takes an argument that is not the value of an option. -/
def take (d : Draft) (arg : String) : Taken :=
  match arg.toList with
  | '-' :: '-' :: cs =>
    let name := cs.takeWhile (· != '=')
    let value := match cs.drop name.length with
      | _ :: v => some (String.ofList v)
      | [] => none
    takeLong d (String.ofList name) value
  | '-' :: c :: cs => takeShort d (c :: cs)
  | _ => .ofOption (d.setInput arg)

def isValue (arg : String) : Bool :=
  match arg.toList with
  | '-' :: _ :: _ => false
  | _ => true

def takeInputs (d : Draft) : List String → Request
  | [] => d.request
  | arg :: args =>
    match d.setInput arg with
    | some d => takeInputs d args
    | none => .invalid

def takeAll (d : Draft) : List String → Request
  | [] => d.request
  | arg :: args =>
    if arg = "--" then takeInputs d args
    else
      match take d arg with
      | .done d => takeAll d args
      | .decided r => r
      | .wants s d =>
        match args with
        | value :: args =>
          if isValue value then
            match d.set s value with
            | some d => takeAll d args
            | none => .invalid
          else .invalid
        | [] => .invalid

def request (args : List String) : Request := takeAll {} args

end Bindery.Command
