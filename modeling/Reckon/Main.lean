import Reckon.CommandLine

/-!
# The program

`main` runs the command line on the files of the system. The system's calls take names that are
text, so here a name of other bytes is the one that it is shown as.
-/

namespace Reckon

/-- The number of an error, which some actions hand on with the sign turned. -/
def errorNumber (code : UInt32) : Nat :=
  min code.toNat (0 - code).toNat

/-- The number of an error of the system, with its words. -/
def systemCode : IO.Error → Nat × String
  | .alreadyExists _ code details => (errorNumber code, details)
  | .invalidArgument _ code details => (errorNumber code, details)
  | .permissionDenied _ code details => (errorNumber code, details)
  | .resourceExhausted _ code details => (errorNumber code, details)
  | .inappropriateType _ code details => (errorNumber code, details)
  | .noSuchThing _ code details => (errorNumber code, details)
  | .interrupted _ code details => (errorNumber code, details)
  | .noFileOrDirectory _ code details => (errorNumber code, details)
  | .otherError code details => (errorNumber code, details)
  | .resourceBusy code details => (errorNumber code, details)
  | .resourceVanished code details => (errorNumber code, details)
  | .unsupportedOperation code details => (errorNumber code, details)
  | .hardwareFault code details => (errorNumber code, details)
  | .unsatisfiedConstraints code details => (errorNumber code, details)
  | .illegalOperation code details => (errorNumber code, details)
  | .protocolError code details => (errorNumber code, details)
  | .timeExpired code details => (errorNumber code, details)
  | .unexpectedEof => (0, "unexpected end of file")
  | .userError details => (0, details)

/-- The refusal behind an error of an action. -/
def SystemError.ofIO (e : IO.Error) : SystemError :=
  match systemCode e with
  | (2, _) => .notFound
  | (13, _) => .denied
  | (17, _) => .alreadyExists
  | (20, _) => .notDirectory
  | (21, _) => .isDirectory
  | (36, _) => .nameTooLong
  | (40, _) => .tooManyLinks
  | (0, details) => .other details
  | (code, details) => .other (details ++ " (os error " ++ toString code ++ ")")

/-- Runs an action on files and keeps its error. -/
def attempt {α : Type} (action : IO α) : IO (Except SystemError α) := do
  match ← action.toBaseIO with
  | .ok a => return .ok a
  | .error e => return .error (.ofIO e)

/-- What is directly inside of a directory of the system. -/
def listFolder (p : Path) : IO (List DirectoryEntry) := do
  let folder ← IO.FS.realPath p.display
  if ← folder.isDir then
    (← folder.readDir).toList.mapM fun e => do
      return ⟨e.fileName, (← e.path.symlinkMetadata).type == .file⟩
  else
    discard folder.metadata
    return []

instance : Host IO where
  readFile p := attempt do return (← IO.FS.readBinFile p.display).toList
  writeFile p content := attempt (IO.FS.writeBinFile p.display content.toByteArray)
  createDirectory p := attempt (IO.FS.createDir p.display)
  isDirectory p := do
    match ← attempt (IO.FS.realPath p.display) with
    | .ok folder => folder.isDir
    | .error _ => return false
  list p := attempt (listFolder p)
  print line := IO.println line
  report line := IO.eprintln line
  log r := IO.eprintln r.line

end Reckon

/-- Runs the command line of the process. -/
def main (words : List String) : IO UInt32 := do
  let filter? ← IO.getEnv "RUST_LOG"
  let status ← Reckon.runCommand (words.map Reckon.Utf8.encode) filter?
  return status.toUInt32
