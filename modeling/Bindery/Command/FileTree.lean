/-
  Files in memory.

  Paths are relative to the directory that holds all files.  A path that leads
  through a file, or to nothing, fails with the reason an operating system
  gives.
-/
import Bindery.Command.Run
import Bindery.Table

namespace Bindery.Command

/-- A directory with all in it. -/
structure FileTree where
  files : Table String := {}
  directories : List (List String) := []

namespace FileTree

inductive Entry where
  | file (path : List String)
  | directory (path : List String)
  /-- Nothing, in a directory that is there. -/
  | missing (path : List String)
  | failure (reason : String)

/-! ## Reasons for a failure -/

def noSuchFile : String := "No such file or directory (os error 2)"

def fileExists : String := "File exists (os error 17)"

def notDirectory : String := "Not a directory (os error 20)"

def isDirectory : String := "Is a directory (os error 21)"

/-! ## Paths -/

def key (path : List String) : String := "/".intercalate path

def parts (path : String) : List String := path.splitOn "/"

def enclosing (path : List String) : List (List String) :=
  (List.range (path.length - 1)).map fun n => path.take (n + 1)

def ofFiles (files : List (String × String)) : FileTree :=
  { files := .ofList files
    directories := files.flatMap fun (path, _) => enclosing (parts path) }

def walk (t : FileTree) (here : List String) : List String → Entry
  | [] => .directory here
  | part :: rest =>
    if part = "" || part = "." then walk t here rest
    else if part = ".." then walk t here.dropLast rest
    else
      let next := here ++ [part]
      if t.directories.contains next then walk t next rest
      else if t.files.contains (key next) then
        if rest.isEmpty then .file next else .failure notDirectory
      else if rest.all (·.isEmpty) then .missing next else .failure noSuchFile

def entry (t : FileTree) (path : String) : Entry :=
  if path.isEmpty || path.startsWith "/" then .failure noSuchFile else walk t [] (parts path)

def read (t : FileTree) (path : String) : Except String String :=
  match t.entry path with
  | .file p => .ok ((t.files.get? (key p)).getD "")
  | .directory _ => .error isDirectory
  | .missing _ => .error noSuchFile
  | .failure reason => .error reason

/-- Makes the directories on the way from one that is there. -/
def makeOnTheWay (t : FileTree) (here : List String) : List String → Except String FileTree
  | [] => .ok t
  | part :: rest =>
    if part = "" || part = "." then makeOnTheWay t here rest
    else if part = ".." then makeOnTheWay t here.dropLast rest
    else
      let next := here ++ [part]
      if t.directories.contains next then makeOnTheWay t next rest
      else if t.files.contains (key next) then
        .error (if rest.all (·.isEmpty) then fileExists else notDirectory)
      else makeOnTheWay { t with directories := next :: t.directories } next rest

def makeDirectory (t : FileTree) (path : String) : Except String FileTree :=
  makeOnTheWay t [] (parts path)

def write (t : FileTree) (path text : String) : Except String FileTree :=
  match t.entry path with
  | .file p | .missing p => .ok { t with files := t.files.insert (key p) text }
  | .directory _ => .error isDirectory
  | .failure reason => .error reason

def change (f : FileTree → Except String FileTree) : StateM FileTree (Except String Unit) := do
  match f (← get) with
  | .ok t =>
    set t
    return .ok ()
  | .error reason => return .error reason

def access : Access (StateM FileTree) where
  read path := return (← get).read path
  makeDirectory path := change (·.makeDirectory path)
  write path text := change (·.write path text)

def runOn (files : List (String × String)) (args : List String) :
    Outcome × List (String × String) :=
  let start := ofFiles files
  let (outcome, t) := (run access args).run start
  (outcome, t.files.entries.filter fun (path, text) => start.files.get? path != some text)

end FileTree

end Bindery.Command
