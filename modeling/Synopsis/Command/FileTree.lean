import Synopsis.Command.FileAccess

/-! # Trees of files

Files and directories in memory, with a working directory.
-/

namespace Synopsis

structure FileTree where
  /-- Names from the root on. -/
  workingDirectory : List String
  /-- Files with their contents, and directories. The root is not listed. -/
  nodes : List (List String × Option String) := []
  deriving DecidableEq, Repr

namespace FileTree

inductive Node where
  | missing
  | directory
  | file (content : String)
  deriving DecidableEq, Repr

def node (t : FileTree) (place : List String) : Node :=
  if place.isEmpty || t.workingDirectory.take place.length = place then .directory
  else match t.nodes.lookup place with
    | none => .missing
    | some none => .directory
    | some (some content) => .file content

def maxNameSize : Nat := 255

/-- Goes from one place to another. Every name is looked up in a directory. -/
def walk (t : FileTree) (place : List String) : List String → Except FileError (List String)
  | [] => .ok place
  | name :: names =>
    match t.node place with
    | .missing => .error .notFound
    | .file _ => .error .notDirectory
    | .directory =>
      if name = "." then walk t place names
      else if name = ".." then walk t place.dropLast names
      else if maxNameSize < name.utf8ByteSize then .error .nameTooLong
      else walk t (place ++ [name]) names

def find (t : FileTree) (p : Path) (asDirectory : Bool) : Except FileError (List String) :=
  if p.text.contains '\x00' then .error .nulInName
  else if p.text.isEmpty then .error .notFound
  else
    t.walk (if p.isAbsolute then [] else t.workingDirectory)
      (p.names ++ if asDirectory then ["."] else [])

def put (t : FileTree) (place : List String) (content : Option String) : FileTree :=
  { t with nodes := (place, content) :: t.nodes.filter (·.1 ≠ place) }

def read (t : FileTree) (p : Path) : Except FileError String := do
  match t.node (← t.find p p.asksForDirectory) with
  | .missing => .error .notFound
  | .directory => .error .isDirectory
  | .file content => .ok content

def write (t : FileTree) (p : Path) (content : String) : Except FileError FileTree := do
  let place ← t.find p false
  if p.asksForDirectory then .error .isDirectory
  else match t.node place with
    | .directory => .error .isDirectory
    | _ => .ok (t.put place (some content))

def makeDirectory (t : FileTree) (p : Path) : Except FileError FileTree := do
  let place ← t.find p false
  match t.node place with
  | .missing => .ok (t.put place none)
  | _ => .error .exists

def isDirectory (t : FileTree) (p : Path) : Bool :=
  match t.find p p.asksForDirectory with
  | .ok place => t.node place = .directory
  | .error _ => false

/-- Access that reads and changes a tree. -/
def access : FileAccess (StateM FileTree) where
  read p := return (← get).read p
  write p content := update (·.write p content)
  makeDirectory p := update (·.makeDirectory p)
  isDirectory p := return (← get).isDirectory p
where
  update (f : FileTree → Except FileError FileTree) : StateM FileTree (Except FileError Unit) := do
    match f (← get) with
    | .ok t =>
      set t
      return .ok ()
    | .error e => return .error e

end FileTree

end Synopsis
