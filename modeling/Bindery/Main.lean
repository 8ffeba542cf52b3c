/-
  The command line: generates bindings for a schema file.
-/
import Bindery.Command.Run

namespace Bindery.Command

/-- The reason for a failure, as the operating system gives it. -/
def reasonOf : IO.Error → String
  | .noFileOrDirectory _ code details | .alreadyExists _ code details
  | .inappropriateType _ code details | .permissionDenied _ code details =>
    s!"{details} (os error {code})"
  | e => toString e

def attempt {α : Type} (action : IO α) : IO (Except String α) := do
  match ← action.toBaseIO with
  | .ok a => return .ok a
  | .error e => return .error (reasonOf e)

def systemAccess : Access IO where
  read path := attempt (IO.FS.readFile path)
  makeDirectory path := attempt (IO.FS.createDirAll path)
  write path text := attempt (IO.FS.writeFile path text)

end Bindery.Command

open Bindery.Command in
def main (args : List String) : IO UInt32 := do
  let outcome ← run systemAccess args
  for line in logLines outcome.log do
    IO.eprintln line
  IO.print outcome.output
  return outcome.code.toUInt32
