/-
  Running the command.

  `run` does all there is to do but for access to files, which it is given.
-/
import Bindery.Code.Compose
import Bindery.Command.Arguments
import Bindery.Source.Render

namespace Bindery.Command

open Schema

/-- Access to files.  A failure gives its reason. -/
structure Access (m : Type → Type) where
  read : String → m (Except String String)
  makeDirectory : String → m (Except String Unit)
  write : String → String → m (Except String Unit)

structure Outcome where
  code : Nat
  output : String := ""
  log : List Notice := []

def outputPath (directory name : String) : String :=
  let stem := Text.snake name
  (if directory.endsWith "/" then directory else directory ++ "/") ++
    (if stem.isEmpty then "schema" else stem) ++ ".rs"

/-- The code and its source for the text of a schema, and what is told on the
    way. -/
def bindings (i : Invocation) (text : String) :
    Except GenerateError (Code.File × String) × List Notice :=
  match readDocument i.dialect i.allowDtd text with
  | (.error fault, notices) => (.error (.schema fault), notices)
  | (.ok document, notices) =>
    let (file, more) := Code.generate document { policy := i.policy, module := i.module }
    (file.bind fun f => (Source.render f {}).map (f, ·), notices ++ more)

/-- Writes the source into the directory, or to standard output if there is
    none, and gives what is printed. -/
def deliver {m : Type → Type} [Monad m] (files : Access m) (i : Invocation) (file : Code.File)
    (source : String) : m (Except GenerateError (String × List Notice)) :=
  match i.directory with
  | none => return .ok (source, [])
  | some directory => do
    let path := outputPath directory file.name
    match ← files.makeDirectory directory with
    | .error reason => return .error (.access path reason)
    | .ok () =>
      match ← files.write path source with
      | .error reason => return .error (.access path reason)
      | .ok () => return .ok ("", [.wrote file.classes.length path])

/-- Generates, and gives what is printed and told. -/
def execute {m : Type → Type} [Monad m] (files : Access m) (i : Invocation) :
    m (Except GenerateError String × List Notice) := do
  match ← files.read i.input with
  | .error reason => return (.error (.access i.input reason), [])
  | .ok text =>
    match bindings i text with
    | (.error fault, notices) => return (.error fault, notices)
    | (.ok (file, source), notices) =>
      match ← deliver files i file source with
      | .error fault => return (.error fault, notices)
      | .ok (output, more) => return (.ok output, notices ++ more)

def isLogged (verbose : Bool) (n : Notice) : Bool :=
  verbose || n.severity = .warning || n.severity = .error

def versionText : String := "sb-generator 0.1.0\n"

def helpText : String :=
  "Generates marshalling classes from RelaxNG, XSD and WSDL grammars\n\n" ++
  "Usage: sb-generator [OPTIONS] <INPUT>\n\n" ++
  "Arguments:\n" ++
  "  <INPUT>  The schema file or URL\n\n" ++
  "Options:\n" ++
  "  -d, --directory <DIRECTORY>      " ++
  "Write `<schema>.rs` into this directory instead of printing to stdout\n" ++
  "      --dialect <DIALECT>          " ++
  "[default: auto] [possible values: auto, relaxng, xsd, wsdl]\n" ++
  "  -m, --module <MODULE>            " ++
  "Wrap the generated types in `pub mod <MODULE>`\n" ++
  "      --on-conflict <ON_CONFLICT>  " ++
  "What to do when two elements map to the same class name " ++
  "[default: replace] [possible values: replace, keep, error]\n" ++
  "      --allow-dtd                  " ++
  "Allow a XML Document Type Definition (DTD) to occur\n" ++
  "  -v, --verbose                    Log progress and decisions to stderr\n" ++
  "  -h, --help                       Print help\n" ++
  "  -V, --version                    Print version\n"

/-- Runs the command.  An abrupt fault ends it at once, without a log. -/
def run {m : Type → Type} [Monad m] (files : Access m) (args : List String) : m Outcome := do
  match request args with
  | .help => return { code := 0, output := helpText }
  | .version => return { code := 0, output := versionText }
  | .invalid => return { code := 2 }
  | .generate i =>
    match ← execute files i with
    | (.ok output, notices) =>
      return { code := 0, output, log := notices.filter (isLogged i.verbose) }
    | (.error fault, notices) =>
      if fault.isAbrupt then return { code := 101 }
      else return { code := 1,
                    log := (notices ++ [Notice.failed fault.message]).filter (isLogged i.verbose) }

def logLines (log : List Notice) : List String :=
  log.flatMap fun n => (n.severity.label ++ " " ++ n.message).splitOn "\n"

end Bindery.Command
