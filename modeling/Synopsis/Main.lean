import Synopsis.Command.Run

/-! # The program

Runs the command that the arguments name on the files of the system.
-/

namespace Synopsis

def FileError.ofIO : IO.Error → FileError
  | .noFileOrDirectory _ _ _ => .notFound
  | .alreadyExists _ _ _ => .exists
  | .inappropriateType _ 20 _ => .notDirectory
  | .inappropriateType _ 21 _ => .isDirectory
  | .invalidArgument _ _ "name too long" => .nameTooLong
  | .permissionDenied _ _ _ => .permissionDenied
  | .userError _ => .notText
  | e => .other (toString e)

/-- Access to the files of the system. -/
def FileAccess.system : FileAccess IO where
  read p := attempt (IO.FS.readFile p.text)
  write p content := attempt (IO.FS.writeFile p.text content)
  makeDirectory p := attempt (IO.FS.createDir p.text)
  isDirectory p := do
    match ← (IO.FS.Handle.mk (p.text ++ "/.") .read).toBaseIO with
    | .ok _ => return true
    | .error _ => return false
where
  attempt {α : Type} (act : IO α) : IO (Except FileError α) := do
    match ← act.toBaseIO with
    | .ok a => return .ok a
    | .error e => return .error (.ofIO e)

def Refusal.report (r : Refusal) : IO Unit := do
  match r with
  | .version => IO.println r.message
  | .help => IO.println (r.message ++ "\n\n" ++ Invocation.usage)
  | .helpForNothing => IO.eprintln (r.message ++ "\n\n" ++ Invocation.usage)
  | r => IO.eprintln ("error: " ++ r.message ++ "\n\n" ++ Invocation.usage)

def Failure.report : Failure → IO Unit
  | .mismatch e usage => do
    IO.eprintln ("error: " ++ e.message)
    IO.eprintln usage
  | .fatal message => IO.eprintln ("error: " ++ message)
  | .endless => IO.eprintln "error: the match did not end"

end Synopsis

open Synopsis in
def main (args : List String) : IO UInt32 := do
  match Invocation.parse args with
  | .error r =>
    r.report
    return r.exitCode.toUInt32
  | .ok invocation =>
    match ← invocation.perform FileAccess.system with
    | .ok text =>
      IO.print text
      return 0
    | .error e =>
      e.report
      return e.exitCode.toUInt32
