import Reckon.Batch
import Reckon.Text.Count

/-!
# The command line

`Invocation.ofArguments` reads the words of a command: options, which may have a value in the same
word or in the next one, and one input. `runBatch` does the work, and `Invocation.execute` comes
to the exit status.
-/

namespace Reckon

/-- An option that has a value. -/
inductive ValueOption where
  | directory
  | outputDirectory
  | suffix
  | maxDepth
  deriving DecidableEq, Repr

/-- What is known of a command while its words are read. -/
structure Draft where
  directory? : Option Path
  outputDirectory? : Option Path
  suffix? : Option String
  maxDepth? : Option Nat
  print : Bool
  input? : Option Path
  deriving DecidableEq, Repr

/-- What a batch run is to do. -/
structure BatchOptions where
  directory? : Option Path
  outputDirectory? : Option Path
  suffix : String
  maxDepth : Nat
  print : Bool
  input? : Option Path
  deriving DecidableEq, Repr

/-- What a command asks for. -/
inductive Invocation where
  | batch (options : BatchOptions)
  | version
  | help
  /-- The words do not make up a command. -/
  | misuse
  deriving DecidableEq, Repr

namespace Draft

/-- Nothing is known. -/
def blank : Draft := ⟨none, none, none, none, false, none⟩

/-- What an option begins with. -/
def dash : UInt8 := 0x2D

/-- What may stand between an option and its value. -/
def equalsSign : UInt8 := 0x3D

/-- Fills in a path that is not empty, once. -/
def fillPath (slot : Option Path) (value : Bytes) : Except Invocation (Option Path) :=
  if slot.isSome || value.isEmpty then .error .misuse else .ok (some ⟨value⟩)

/-- Fills in the value of an option, which may be given once. A path may be any bytes; the other
values are text. -/
def fill (d : Draft) (option : ValueOption) (value : Bytes) : Except Invocation Draft :=
  match option with
  | .directory => (fillPath d.directory? value).map fun p => { d with directory? := p }
  | .outputDirectory =>
    (fillPath d.outputDirectory? value).map fun p => { d with outputDirectory? := p }
  | .suffix =>
    match d.suffix?, Utf8.text? value with
    | none, some text => .ok { d with suffix? := some text }
    | _, _ => .error .misuse
  | .maxDepth =>
    match d.maxDepth?, (Utf8.text? value).bind parseCount? with
    | none, some n => .ok { d with maxDepth? := some n }
    | _, _ => .error .misuse

/-- Fills in the input. -/
def fillInput (d : Draft) (value : Bytes) : Except Invocation Draft :=
  (fillPath d.input? value).map fun p => { d with input? := p }

/-- Turns printing on, once. -/
def turnPrintOn (d : Draft) : Except Invocation Draft :=
  if d.print then .error .misuse else .ok { d with print := true }

/-- The options under single letters behind one dash. Letters without a value may be joined; what
follows a letter with a value is the value, behind an equals sign or not. The option that is
returned has its value in the next word. -/
def readLetters (d : Draft) : Bytes → Except Invocation (Draft × Option ValueOption)
  | [] => .ok (d, none)
  | letter :: rest =>
    let valued (option : ValueOption) : Except Invocation (Draft × Option ValueOption) :=
      match rest with
      | [] => .ok (d, some option)
      | first :: value =>
        (d.fill option (if first = equalsSign then value else rest)).map (·, none)
    match Char.ofUInt8 letter with
    | 'p' => d.turnPrintOn.bind fun d => readLetters d rest
    | 'd' => valued .directory
    | 'o' => valued .outputDirectory
    | 'V' => .error .version
    | 'h' => .error .help
    | _ => .error .misuse

/-- The option under a name behind two dashes, whose value may follow an equals sign. -/
def readName (d : Draft) (text : Bytes) : Except Invocation (Draft × Option ValueOption) :=
  let name? := Utf8.text? (text.takeWhile (· ≠ equalsSign))
  let value? := (text.dropWhile (· ≠ equalsSign)).tail?
  let valued (option : ValueOption) : Except Invocation (Draft × Option ValueOption) :=
    match value? with
    | some value => (d.fill option value).map (·, none)
    | none => .ok (d, some option)
  match name?, value? with
  | some "dir", _ => valued .directory
  | some "output-dir", _ => valued .outputDirectory
  | some "suffix", _ => valued .suffix
  | some "max-depth", _ => valued .maxDepth
  | some "print", none => d.turnPrintOn.map (·, none)
  | some "version", none => .error .version
  | some "help", none => .error .help
  | _, _ => .error .misuse

/-- Whether a word is an option or the end of options, and so no value. -/
def looksLikeOption : Bytes → Bool
  | first :: _ :: _ => first = dash
  | _ => false

/-- Reads one word that is not a value; the option that is returned has its value in the next. -/
def readWord (d : Draft) (word : Bytes) : Except Invocation (Draft × Option ValueOption) :=
  match word with
  | first :: second :: rest =>
    if first ≠ dash then (d.fillInput word).map (·, none)
    else if second = dash then d.readName rest
    else d.readLetters (second :: rest)
  | _ => (d.fillInput word).map (·, none)

/-- Reads the words of a command. Behind two dashes alone, all words are inputs. -/
def readWords (d : Draft) : List Bytes → Except Invocation Draft
  | [] => .ok d
  | word :: rest =>
    if word = [dash, dash] then rest.foldlM fillInput d
    else
      match d.readWord word with
      | .error stop => .error stop
      | .ok (d, none) => readWords d rest
      | .ok (d, some option) =>
        match rest with
        | [] => .error .misuse
        | value :: rest =>
          if looksLikeOption value then .error .misuse
          else
            match d.fill option value with
            | .error stop => .error stop
            | .ok d => readWords d rest

/-- The command that the words make up, with defaults filled in. A directory and an input exclude
each other. -/
def finish (d : Draft) : Invocation :=
  if d.directory?.isSome && d.input?.isSome then .misuse
  else
    .batch ⟨d.directory?, d.outputDirectory?, d.suffix?.getD "result",
      d.maxDepth?.getD Session.defaultMaxDepth, d.print, d.input?⟩

end Draft

/-- The command that the words of a command line make up. -/
def Invocation.ofArguments (words : List Bytes) : Invocation :=
  match Draft.blank.readWords words with
  | .ok d => d.finish
  | .error stop => stop

/-! ## Running -/

variable {m : Type → Type} [Monad m] [Host m]

/-- Processes one input and says what came of it. -/
def runInput (journal : Journal) (o : BatchOptions) (directory input : Path) : m Unit := do
  match ← processFile journal input directory o.suffix o.maxDepth with
  | .error e => journal.fail e
  | .ok processed =>
    match processed.outcome with
    | .error e => journal.note ⟨.warn, .command, e.message, [("file", input.display)]⟩
    | .ok _ => pure ()
    if o.print then Host.print (summaryLine input processed.outcome)

/-- The output directory of a run. -/
def BatchOptions.outputDirectory (o : BatchOptions) : Path :=
  o.outputDirectory?.getD (defaultOutputDirectory o.input? o.directory?.isSome o.suffix)

/-- Processes all inputs of a run, and comes to the exit status. A failure of one input does not
keep the others from being processed. -/
def runBatch (journal : Journal) (o : BatchOptions) : m Nat := do
  match ← selectInputs o.directory? o.input? with
  | .error e =>
    journal.fail e
    return 1
  | .ok inputs =>
    match ← ensureDirectory o.outputDirectory with
    | .error e =>
      journal.fail e
      return 1
    | .ok () =>
      journal.note ⟨.info, .command, "processing inputs",
        [("files", toString inputs.length), ("out_dir", o.outputDirectory.display)]⟩
      inputs.forM (runInput journal o o.outputDirectory)
      return 0

/-- The line that names the program and its version. -/
def versionLine : String := "pyarith 0.1.0"

/-- The lines that explain the command. -/
def helpLines : List String :=
  ["pyarith evaluates arithmetic expression files and writes one result per file: " ++
      "the value, or `ERROR:<position>` for the first problem found",
    "",
    "Usage: pyarith [OPTIONS] [INPUT]",
    "",
    "Arguments:",
    "  [INPUT]  A single input file",
    "",
    "Options:",
    "  -d, --dir <DIR>              " ++
      "Evaluate every `.txt` file directly inside this directory",
    "  -o, --output-dir <OUTDIR>    Directory for result files. Created if missing",
    "      --suffix <SUFFIX>        " ++
      "Suffix appended to each result file name: `<stem>_<suffix>.txt` [default: result]",
    "      --max-depth <MAX_DEPTH>  " ++
      "Maximum nesting of parentheses, signs, and exponents [default: 200]",
    "  -p, --print                  Also print every result line to stdout",
    "  -h, --help                   Print help",
    "  -V, --version                Print version"]

/-- Does what a command asks for, and comes to the exit status. -/
def Invocation.execute (journal : Journal) : Invocation → m Nat
  | .batch options => runBatch journal options
  | .version => do
    Host.print versionLine
    return 0
  | .help => do
    helpLines.forM Host.print
    return 0
  | .misuse => do
    Host.report "error: invalid arguments; for more information, try '--help'."
    return 2

/-- Runs a command line; a log is kept if a filter for it is given. -/
def runCommand (words : List Bytes) (filter? : Option String) : m Nat := do
  let journal := filter?.map LogFilter.parse
  ((filter?.map LogFilter.complaints).getD []).forM Host.report
  (Invocation.ofArguments words).execute journal

end Reckon
