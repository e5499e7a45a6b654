import Synopsis.Command.Path

/-! # Access to files

What commands do with files, whatever holds them.
-/

namespace Synopsis

inductive FileError where
  | notFound
  | exists
  | notDirectory
  | isDirectory
  | nameTooLong
  | permissionDenied
  | nulInName
  /-- What was read is not text. -/
  | notText
  | other (message : String)
  deriving DecidableEq, Repr

def FileError.message : FileError → String
  | .notFound => "No such file or directory (os error 2)"
  | .exists => "File exists (os error 17)"
  | .notDirectory => "Not a directory (os error 20)"
  | .isDirectory => "Is a directory (os error 21)"
  | .nameTooLong => "File name too long (os error 36)"
  | .permissionDenied => "Permission denied (os error 13)"
  | .nulInName => "file name contained an unexpected NUL byte"
  | .notText => "stream did not contain valid UTF-8"
  | .other message => message

structure FileAccess (m : Type → Type) where
  read : Path → m (Except FileError String)
  /-- Replaces what is there. -/
  write : Path → String → m (Except FileError Unit)
  makeDirectory : Path → m (Except FileError Unit)
  isDirectory : Path → m Bool

namespace FileAccess

variable {m : Type → Type} [Monad m]

/-- Makes a directory unless it is there. -/
def ensureDirectory (fs : FileAccess m) (p : Path) : m (Except FileError Unit) := do
  match ← fs.makeDirectory p with
  | .ok _ => return .ok ()
  | .error e => return if ← fs.isDirectory p then .ok () else .error e

/-- Makes a directory with all directories that lead to it, of which there may be
a limited number. -/
def makeDirectories (fs : FileAccess m) : (limit : Nat) → Path → m (Except FileError Unit)
  | 0, _ => return .ok ()
  | limit + 1, p => do
    if p.text.isEmpty then return .ok ()
    match ← fs.ensureDirectory p with
    | .ok _ => return .ok ()
    | .error .notFound =>
      match p.parent? with
      | none => return .error .notFound
      | some parent =>
        match ← fs.makeDirectories limit parent with
        | .ok _ => fs.ensureDirectory p
        | .error e => return .error e
    | .error e => return .error e

end FileAccess

end Synopsis
