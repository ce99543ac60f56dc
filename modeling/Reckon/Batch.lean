import Reckon.Host
import Reckon.Log.Events
import Reckon.Log.Filter
import Reckon.Source

/-!
# Evaluating files

`collectInputs` lists the input files of a directory, `evaluateFile` evaluates one of them, and
`processFile` also writes its result, one line, to `outputPath`. What happens is logged to a
`Journal`. A `FileError` is a failure of the files, not of an expression; that one is an outcome.
-/

namespace Reckon

/-- A failure of the files that are worked on. -/
inductive FileError where
  | readInput (path : Path) (cause : SystemError)
  | writeOutput (path : Path) (cause : SystemError)
  | createDirectory (path : Path) (cause : SystemError)
  | listDirectory (path : Path) (cause : SystemError)
  /-- Neither a file nor a directory was given. -/
  | noInput
  deriving DecidableEq, Repr

namespace FileError

/-- The path that the failure is about. -/
def path? : FileError → Option Path
  | .readInput p _ | .writeOutput p _ | .createDirectory p _ | .listDirectory p _ => some p
  | .noInput => none

/-- The cause in words. -/
def cause? : FileError → Option String
  | .readInput _ e | .writeOutput _ e | .createDirectory _ e => some e.message
  | .listDirectory p e => some ("IO error for operation on " ++ p.display ++ ": " ++ e.message)
  | .noInput => none

/-- What could not be done. -/
def attempt : FileError → String
  | .readInput p _ => "Cannot read " ++ p.display
  | .writeOutput p _ => "Cannot write " ++ p.display
  | .createDirectory p _ => "Cannot create directory " ++ p.display
  | .listDirectory p _ => "Cannot list directory " ++ p.display
  | .noInput => "No input given. Pass an input file or --dir <DIR>."

/-- The failure in words. -/
def message (e : FileError) : String :=
  match e.cause? with
  | some cause => e.attempt ++ ": " ++ cause
  | none => e.attempt

end FileError

/-! ## Logging -/

/-- The log of a run: none, or one that takes what a filter allows. -/
abbrev Journal := Option LogFilter

variable {m : Type → Type} [Monad m] [Host m]

/-- Logs a record. -/
def Journal.note (journal : Journal) (r : LogRecord) : m Unit :=
  match journal with
  | some filter => if filter.allows r then Host.log r else pure ()
  | none => pure ()

/-- Reports a failure: in the log if there is one, and else by itself. -/
def Journal.fail (journal : Journal) (e : FileError) : m Unit :=
  match journal with
  | some _ => journal.note ⟨.error, .command, e.message, []⟩
  | none => Host.report e.message

/-! ## Names -/

/-- The extension of input and result files. -/
def inputExtension : String := "txt"

/-- The stem of a path as text; bytes that are not text are replaced. -/
def Path.stemText? (p : Path) : Option String :=
  p.stem?.map Utf8.decode

/-- Where the result of an input goes: the stem of the input, the suffix and the extension, inside
of the output directory. -/
def outputPath (input directory : Path) (suffix : String) : Path :=
  directory.join (input.stemText?.getD "input" ++ "_" ++ suffix ++ "." ++ inputExtension)

/-- The output directory where none is given: named after a single input, or after results. -/
def defaultOutputDirectory (input? : Option Path) (wholeDirectory : Bool) (suffix : String) :
    Path :=
  let stem? := if wholeDirectory then none else input?.bind Path.stemText?
  ⟨stem?.getD "results" ++ "_" ++ suffix⟩

/-- The line of output for an input that was processed. -/
def summaryLine (input : Path) (outcome : Outcome) : String :=
  input.display ++ ": " ++ renderOutcome outcome

/-- The content of a result file. -/
def resultContent (outcome : Outcome) : Bytes :=
  Utf8.encode (renderOutcome outcome ++ "\n")

/-! ## Work -/

/-- Makes a directory, and first those above it that are missing; the argument lists it and those
above it, from the innermost to the outermost. A directory that exists is as good as one that is
made, and one that was made stays if a later one cannot be. -/
def createDirectories : List Path → m (Except SystemError Unit)
  | [] => return .ok ()
  | p :: above => do
    match ← Host.createDirectory p with
    | .ok () => return .ok ()
    | .error .notFound =>
      match ← createDirectories above with
      | .error e => return .error e
      | .ok () =>
        match ← Host.createDirectory p with
        | .ok () => return .ok ()
        | .error e => return if ← Host.isDirectory p then .ok () else .error e
    | .error e => return if ← Host.isDirectory p then .ok () else .error e

/-- Makes a directory and those above it that are missing. -/
def ensureDirectory (directory : Path) : m (Except FileError Unit) := do
  match ← createDirectories directory.ancestors with
  | .ok () => return .ok ()
  | .error cause => return .error (.createDirectory directory cause)

/-- The order of names by their bytes. -/
def nameOrder (a b : DirectoryEntry) : Bool :=
  decide (a.name ≤ b.name)

/-- Whether a thing inside of a directory is an input: a file, not a link to one, that has the
extension. -/
def isInput (e : DirectoryEntry) : Bool :=
  e.isFile && (Path.mk e.name).extension? = some (inputExtension : Bytes)

/-- The inputs directly inside of a directory, in the order of their names. -/
def collectInputs (directory : Path) : m (Except FileError (List Path)) := do
  match ← Host.list directory with
  | .ok entries =>
    return .ok (((entries.filter isInput).mergeSort nameOrder).map (directory.join ·.name))
  | .error cause => return .error (.listDirectory directory cause)

/-- The inputs of a run: those of a directory if one is given, and else the one given. -/
def selectInputs : Option Path → Option Path → m (Except FileError (List Path))
  | some directory, _ => collectInputs directory
  | none, some input => return .ok [input]
  | none, none => return .error .noInput

/-- Evaluates the content of a file without its comments. -/
def evaluateFile (journal : Journal) (input : Path) (maxDepth : Nat) :
    m (Except FileError Outcome) := do
  match ← Host.readFile input with
  | .error cause => return .error (.readInput input cause)
  | .ok content =>
    let (outcome, events) := trace (stripComments (Utf8.decode content)) maxDepth
    events.forM fun event => journal.note event.record
    journal.note ⟨.debug, .files, "evaluated file",
      [("file", input.display), ("outcome", logOutcome outcome)]⟩
    return .ok outcome

/-- An input whose result was written. -/
structure Processed where
  output : Path
  outcome : Outcome

/-- Evaluates an input and writes its result into the output directory. -/
def processFile (journal : Journal) (input directory : Path) (suffix : String) (maxDepth : Nat) :
    m (Except FileError Processed) := do
  match ← evaluateFile journal input maxDepth with
  | .error e => return .error e
  | .ok outcome =>
    let output := outputPath input directory suffix
    match ← Host.writeFile output (resultContent outcome) with
    | .error cause => return .error (.writeOutput output cause)
    | .ok () =>
      journal.note ⟨.info, .files, "wrote result",
        [("input", input.display), ("output", output.display)]⟩
      return .ok ⟨output, outcome⟩

end Reckon
