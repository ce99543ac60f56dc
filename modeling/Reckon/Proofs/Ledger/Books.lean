import Reckon.Proofs.Files.Directories
import Reckon.Proofs.Ledger

/-!
# What a run does

The `Books` of a ledger are what it holds, the log aside: the files, the output, the failures that
were reported, and the accesses. `Carries` says what a piece of work answers and what books it
leaves, for each piece from those it consists of, up to a whole run (`Carries.runCommand`). A run
over inputs goes through its `stages`, one for each input, on the files that the inputs before it
leave.
-/

namespace Reckon

/-- Whether a report is of a failure. -/
def Report.isFailure : Report → Bool
  | .line _ => true
  | .record r => r.severity = .error

/-- What a ledger holds, the log aside. -/
structure Books where
  files : FileTree
  output : List String
  failures : List Report
  accesses : List Access

/-- The books of a ledger. -/
def Ledger.books (l : Ledger) : Books :=
  ⟨l.world.files, l.world.output, l.world.reports.filter Report.isFailure, l.accesses⟩

/-- Work carries books to other books: on any ledger with the first, it comes to the answer and
leaves the second. -/
def Carries {α : Type} (x : StateM Ledger α) (b : Books) (a : α) (b' : Books) : Prop :=
  ∀ l : Ledger, l.books = b → (x l).1 = a ∧ (x l).2.books = b'

/-- How a failure is reported. -/
def Journal.failureReports (journal : Journal) (e : FileError) : List Report :=
  match journal with
  | some filter =>
    if filter.allows ⟨.error, .command, e.message, []⟩ then
      [.record ⟨.error, .command, e.message, []⟩]
    else []
  | none => [.line e.message]

/-- The outcome of a content. -/
def contentOutcome (content : Bytes) (maxDepth : Nat) : Outcome :=
  evaluateWith (stripComments (Utf8.decode content)) maxDepth

/-! ## Inputs -/

namespace FileTree

/-- The inputs directly inside of a directory. -/
def collect (t : FileTree) (directory : Path) : Except FileError (List Path) :=
  match t.list directory with
  | .ok entries =>
    .ok (((entries.filter isInput).mergeSort nameOrder).map (directory.join ·.name))
  | .error cause => .error (.listDirectory directory cause)

/-- The inputs of a run. -/
def select (t : FileTree) : Option Path → Option Path → Except FileError (List Path)
  | some directory, _ => t.collect directory
  | none, some input => .ok [input]
  | none, none => .error .noInput

end FileTree

/-! ## Stages -/

/-- An input on its turn, with the files at that time. -/
structure Stage where
  files : FileTree
  input : Path
  output : Path
  maxDepth : Nat

namespace Stage

/-- What becomes of an input: the outcome that is written, or a failure. -/
def answer (s : Stage) : Except FileError Outcome :=
  match s.files.read s.input with
  | .error cause => .error (.readInput s.input cause)
  | .ok content =>
    match s.files.target s.output with
    | .error cause => .error (.writeOutput s.output cause)
    | .ok _ => .ok (contentOutcome content s.maxDepth)

/-- The files afterwards. -/
def after (s : Stage) : FileTree :=
  match s.files.read s.input, s.files.target s.output with
  | .ok content, .ok location =>
    s.files.put location (.file (resultContent (contentOutcome content s.maxDepth)))
  | _, _ => s.files

/-- The files that are read and written. -/
def accesses (s : Stage) : List Access :=
  match s.files.read s.input with
  | .error cause => [.read s.input (.error cause)]
  | .ok content =>
    [.read s.input (.ok content),
      .write s.output (resultContent (contentOutcome content s.maxDepth))
        ((s.files.target s.output).map fun _ => ())]

/-- The lines of output. -/
def lines (print : Bool) (s : Stage) : List String :=
  match s.answer with
  | .ok outcome => if print then [summaryLine s.input outcome] else []
  | .error _ => []

/-- The failures that are reported. -/
def failures (journal : Journal) (s : Stage) : List Report :=
  match s.answer with
  | .ok _ => []
  | .error e => journal.failureReports e

/-- What happens at a stage: the input cannot be read, or the result cannot be written, or it is. -/
theorem cases (s : Stage) :
    (∃ e, s.files.read s.input = .error e ∧ s.answer = .error (.readInput s.input e) ∧
      s.after = s.files ∧ s.accesses = [.read s.input (.error e)]) ∨
    (∃ content e, s.files.read s.input = .ok content ∧ s.files.target s.output = .error e ∧
      s.answer = .error (.writeOutput s.output e) ∧ s.after = s.files ∧
      s.accesses = [.read s.input (.ok content),
        .write s.output (resultContent (contentOutcome content s.maxDepth)) (.error e)]) ∨
    ∃ content location, s.files.read s.input = .ok content ∧
      s.files.target s.output = .ok location ∧
      s.answer = .ok (contentOutcome content s.maxDepth) ∧
      s.after =
        s.files.put location (.file (resultContent (contentOutcome content s.maxDepth))) ∧
      s.accesses = [.read s.input (.ok content),
        .write s.output (resultContent (contentOutcome content s.maxDepth)) (.ok ())] := by
  unfold answer after accesses
  cases hread : s.files.read s.input with
  | error e => exact .inl ⟨e, rfl, rfl, rfl, rfl⟩
  | ok content =>
    cases htarget : s.files.target s.output with
    | error e => exact .inr (.inl ⟨content, e, rfl, rfl, rfl, rfl, rfl⟩)
    | ok location => exact .inr (.inr ⟨content, location, rfl, rfl, rfl, rfl, rfl⟩)

end Stage

/-- The stage of an input. -/
def BatchOptions.stage (o : BatchOptions) (t : FileTree) (input : Path) : Stage :=
  ⟨t, input, outputPath input o.outputDirectory o.suffix, o.maxDepth⟩

section
variable (o : BatchOptions) (t : FileTree) (input : Path)

/-- The files of a stage are those of its turn. -/
@[simp] theorem BatchOptions.stage_files : (o.stage t input).files = t := rfl

/-- The input of a stage is the one whose turn it is. -/
@[simp] theorem BatchOptions.stage_input : (o.stage t input).input = input := rfl

/-- The output of a stage is that of its input. -/
@[simp] theorem BatchOptions.stage_output :
    (o.stage t input).output = outputPath input o.outputDirectory o.suffix := by
  rw [stage]

/-- The limit of a stage is that of the run. -/
@[simp] theorem BatchOptions.stage_maxDepth : (o.stage t input).maxDepth = o.maxDepth := rfl

end

/-- The stages of inputs, one on the files that another leaves. -/
def BatchOptions.stages (o : BatchOptions) (t : FileTree) : List Path → List Stage
  | [] => []
  | input :: inputs => o.stage t input :: o.stages (o.stage t input).after inputs

/-- The files behind the stages of inputs. -/
def BatchOptions.filesAfter (o : BatchOptions) (t : FileTree) (inputs : List Path) : FileTree :=
  inputs.foldl (fun t input => (o.stage t input).after) t

/-! ## What work carries out -/

namespace Carries

variable {α β : Type} {x : StateM Ledger α} {b b' b'' : Books} {a : α}

/-- Doing nothing leaves the books as they are. -/
theorem pure (a : α) (b : Books) : Carries (Pure.pure a) b a b :=
  fun _ h => ⟨rfl, h⟩

/-- Work goes on with the books that the work before it left. -/
theorem bind {f : α → StateM Ledger β} {c : β} (h : Carries x b a b')
    (hf : Carries (f a) b' c b'') : Carries (x >>= f) b c b'' := by
  intro l hl
  obtain ⟨hanswer, hbooks⟩ := h l hl
  obtain ⟨hanswer', hbooks'⟩ := hf (x l).2 hbooks
  rw [← hanswer] at hanswer' hbooks'
  exact ⟨hanswer', hbooks'⟩

/-- What is carried out on a ledger is carried out on a world. -/
theorem world {y : StateM World α} (h : Carries x b a b') (herases : Erases x y) {w : World}
    (hw : (Ledger.ofWorld w).books = b) :
    (y w).1 = a ∧ (y w).2.files = b'.files ∧ (y w).2.output = b'.output := by
  obtain ⟨hanswer, hbooks⟩ := h _ hw
  have heq : y w = _ := herases (Ledger.ofWorld w)
  rw [heq, ← hbooks]
  exact ⟨hanswer, rfl, rfl⟩

/-- A file is read, and that is entered. -/
theorem readFile (p : Path) (b : Books) : Carries (Host.readFile p) b (b.files.read p)
    { b with accesses := b.accesses ++ [.read p (b.files.read p)] } := by
  rintro l rfl
  exact ⟨rfl, rfl⟩

/-- Where a path leads somewhere, the file is put there, and that is entered. -/
theorem writeFile_ok {p : Path} {location : Location} (content : Bytes)
    (h : b.files.target p = .ok location) : Carries (Host.writeFile p content) b (.ok ())
      { b with
        files := b.files.put location (.file content)
        accesses := b.accesses ++ [.write p content (.ok ())] } := by
  rintro l rfl
  have hwrite : l.world.files.write p content =
      .ok (l.world.files.put location (.file content)) := by
    rw [FileTree.write_eq, show l.world.files.target p = .ok location from h]
    rfl
  simp [Host.writeFile, Ledger.entering, Ledger.books, hwrite]

/-- Where it does not, only the failure is entered. -/
theorem writeFile_error {p : Path} {e : SystemError} (content : Bytes)
    (h : b.files.target p = .error e) : Carries (Host.writeFile p content) b (.error e)
      { b with accesses := b.accesses ++ [.write p content (.error e)] } := by
  rintro l rfl
  have hwrite : l.world.files.write p content = .error e := by
    rw [FileTree.write_eq, show l.world.files.target p = .error e from h]
    rfl
  simp [Host.writeFile, Ledger.entering, Ledger.books, hwrite]

/-- A directory is made in the files. -/
theorem createDirectory_ok {p : Path} {t : FileTree} (h : b.files.createDirectory p = .ok t) :
    Carries (Host.createDirectory p) b (.ok ()) { b with files := t } := by
  rintro l rfl
  have hcreate : l.world.files.createDirectory p = .ok t := h
  simp [Host.createDirectory, Ledger.onWorld, Ledger.books, hcreate]

/-- A directory that cannot be made leaves the books as they are. -/
theorem createDirectory_error {p : Path} {e : SystemError}
    (h : b.files.createDirectory p = .error e) :
    Carries (Host.createDirectory p) b (.error e) b := by
  rintro l rfl
  have hcreate : l.world.files.createDirectory p = .error e := h
  simp [Host.createDirectory, Ledger.onWorld, Ledger.books, hcreate]

/-- Looking for a directory leaves the books as they are. -/
theorem isDirectory (p : Path) (b : Books) :
    Carries (Host.isDirectory p) b (b.files.isDirectory p) b := by
  rintro l rfl
  exact ⟨rfl, rfl⟩

/-- Listing a directory leaves the books as they are. -/
theorem list (p : Path) (b : Books) : Carries (Host.list p) b (b.files.list p) b := by
  rintro l rfl
  exact ⟨rfl, rfl⟩

/-- A line that is printed is behind the output. -/
theorem print (line : String) (b : Books) :
    Carries (Host.print line) b () { b with output := b.output ++ [line] } := by
  rintro l rfl
  exact ⟨rfl, rfl⟩

/-- A line that is reported is behind the failures. -/
theorem report (line : String) (b : Books) :
    Carries (Host.report line) b () { b with failures := b.failures ++ [.line line] } := by
  rintro l rfl
  refine ⟨rfl, ?_⟩
  show Books.mk _ _ (List.filter _ (_ ++ [_])) _ = _
  rw [List.filter_append]
  rfl

/-- What goes to the log is a failure only if it is as severe as one. -/
theorem log (r : LogRecord) (b : Books) : Carries (Host.log r) b ()
    { b with failures := b.failures ++ [Report.record r].filter Report.isFailure } := by
  rintro l rfl
  refine ⟨rfl, ?_⟩
  show Books.mk _ _ (List.filter _ (_ ++ [_])) _ = _
  rw [List.filter_append]
  rfl

/-- Nothing but a failure counts in the log. -/
theorem note (journal : Journal) {r : LogRecord} (h : r.severity ≠ .error) (b : Books) :
    Carries (journal.note r) b () b := by
  unfold Journal.note
  split
  · split
    · have hlog := log r b
      rw [List.filter_cons_of_neg (by simpa [Report.isFailure] using h), List.filter_nil,
        List.append_nil] at hlog
      exact hlog
    · exact pure () b
  · exact pure () b

/-- A failure is reported as the journal has it. -/
theorem fail (journal : Journal) (e : FileError) (b : Books) : Carries (journal.fail e) b ()
    { b with failures := b.failures ++ journal.failureReports e } := by
  unfold Journal.fail Journal.failureReports
  split
  · unfold Journal.note
    dsimp only
    split
    · exact log _ b
    · rw [List.append_nil]
      exact pure () b
  · exact report e.message b

/-- Work that leaves the books as they are does so again and again. -/
theorem forM {f : β → StateM Ledger Unit} (h : ∀ c, Carries (f c) b () b) (items : List β) :
    Carries (items.forM f) b () b := by
  induction items with
  | nil => exact pure () b
  | cons item items ih => exact bind (h item) ih

/-- Behind a failure to make a directory, it is as good as made if it is there. -/
theorem settle {p : Path} {e : SystemError} (h : b.files.createDirectory p = .error e) :
    Carries (do return if ← Host.isDirectory p then .ok () else .error e) b (b.files.make p).1
      { b with files := (b.files.make p).2 } := by
  unfold FileTree.make
  rw [h]
  exact bind (isDirectory p b) (pure _ b)

/-- Directories are made in the files. -/
theorem createDirectories (paths : List Path) (b : Books) :
    Carries (Reckon.createDirectories paths) b (b.files.makeAll paths).1
      { b with files := (b.files.makeAll paths).2 } := by
  induction paths generalizing b with
  | nil => exact pure _ b
  | cons p above ih =>
    unfold Reckon.createDirectories FileTree.makeAll
    cases hcreate : b.files.createDirectory p with
    | ok t =>
      refine bind (createDirectory_ok hcreate) ?_
      rw [if_neg (by simp), FileTree.make, hcreate]
      exact pure _ _
    | error e =>
      refine bind (createDirectory_error hcreate) ?_
      split
      · next heq => cases heq
      · next heq =>
        obtain rfl := Except.error.inj heq
        rw [if_pos rfl]
        refine bind (ih b) ?_
        rcases hall : b.files.makeAll above with ⟨_ | _, t⟩
        · exact pure _ _
        · cases hcreate' : t.createDirectory p with
          | ok t' =>
            refine bind (createDirectory_ok hcreate') ?_
            simp only [FileTree.make, hcreate']
            exact pure _ _
          | error e' => exact bind (createDirectory_error hcreate') (settle hcreate')
      · next hother heq =>
        cases heq
        rw [if_neg fun hmissing => hother (Except.error.inj hmissing)]
        exact settle hcreate

/-- Where the output directory can be made, it is. -/
theorem ensureDirectory_ok {directory : Path} {t : FileTree}
    (h : b.files.makeAll directory.ancestors = (.ok (), t)) :
    Carries (ensureDirectory directory) b (.ok ()) { b with files := t } := by
  have hmake := createDirectories directory.ancestors b
  rw [h] at hmake
  exact bind hmake (pure _ _)

/-- Where it cannot be made, what was made above it stays. -/
theorem ensureDirectory_error {directory : Path} {t : FileTree} {e : SystemError}
    (h : b.files.makeAll directory.ancestors = (.error e, t)) :
    Carries (ensureDirectory directory) b (.error (.createDirectory directory e))
      { b with files := t } := by
  have hmake := createDirectories directory.ancestors b
  rw [h] at hmake
  exact bind hmake (pure _ _)

/-- Inputs are selected from the files, which stay as they are. -/
theorem selectInputs (directory? input? : Option Path) (b : Books) :
    Carries (Reckon.selectInputs directory? input?) b (b.files.select directory? input?) b := by
  rcases directory? with _ | directory
  · cases input? <;> exact pure _ b
  · refine bind (list directory b) ?_
    simp only [FileTree.select, FileTree.collect]
    cases b.files.list directory with
    | ok entries => exact pure _ b
    | error cause => exact pure _ b

/-- A file that cannot be read is entered, and has no outcome. -/
theorem evaluateFile_error (journal : Journal) {input : Path} {e : SystemError} (maxDepth : Nat)
    (h : b.files.read input = .error e) :
    Carries (evaluateFile journal input maxDepth) b (.error (.readInput input e))
      { b with accesses := b.accesses ++ [.read input (.error e)] } := by
  have hread := readFile input b
  rw [h] at hread
  exact bind hread (pure _ _)

/-- A file that can be read is entered, and has the outcome of its content. -/
theorem evaluateFile_ok (journal : Journal) {input : Path} {content : Bytes} (maxDepth : Nat)
    (h : b.files.read input = .ok content) :
    Carries (evaluateFile journal input maxDepth) b (.ok (contentOutcome content maxDepth))
      { b with accesses := b.accesses ++ [.read input (.ok content)] } := by
  have hread := readFile input b
  rw [h] at hread
  have hevent (event : Event) : event.record.severity ≠ .error := by
    cases event with
    | applied a => cases a <;> simp [Event.record, Application.record]
    | _ => simp [Event.record]
  refine bind hread (bind (forM (fun event => note journal (hevent event) _) _) ?_)
  exact bind (note journal (by simp) _) (pure _ _)

/-- An input is processed as its stage is. -/
theorem processFile (journal : Journal) (o : BatchOptions) (input : Path) (b : Books) :
    Carries (processFile journal input o.outputDirectory o.suffix o.maxDepth) b
      ((o.stage b.files input).answer.map fun outcome =>
        ⟨(o.stage b.files input).output, outcome⟩)
      { b with
        files := (o.stage b.files input).after
        accesses := b.accesses ++ (o.stage b.files input).accesses } := by
  have hcases := (o.stage b.files input).cases
  simp only [BatchOptions.stage_files, BatchOptions.stage_input, BatchOptions.stage_output,
    BatchOptions.stage_maxDepth] at hcases ⊢
  rcases hcases with ⟨e, hread, hanswer, hafter, haccesses⟩ |
    ⟨content, e, hread, htarget, hanswer, hafter, haccesses⟩ |
    ⟨content, location, hread, htarget, hanswer, hafter, haccesses⟩
  · rw [hanswer, hafter, haccesses]
    exact bind (evaluateFile_error journal _ hread) (pure _ _)
  · rw [hanswer, hafter, haccesses, ← List.singleton_append, ← List.append_assoc]
    refine bind (evaluateFile_ok journal _ hread) ?_
    exact bind (writeFile_error (b := ⟨b.files, _, _, _⟩) _ htarget) (pure _ _)
  · rw [hanswer, hafter, haccesses, ← List.singleton_append, ← List.append_assoc]
    refine bind (evaluateFile_ok journal _ hread) ?_
    refine bind (writeFile_ok (b := ⟨b.files, _, _, _⟩) _ htarget) ?_
    exact bind (note journal (by simp) _) (pure _ _)

/-- On its turn, an input leaves what its stage does: files, lines, failures and accesses. -/
theorem runInput (journal : Journal) (o : BatchOptions) (input : Path) (b : Books) :
    Carries (runInput journal o o.outputDirectory input) b ()
      { files := (o.stage b.files input).after
        output := b.output ++ (o.stage b.files input).lines o.print
        failures := b.failures ++ (o.stage b.files input).failures journal
        accesses := b.accesses ++ (o.stage b.files input).accesses } := by
  refine bind (processFile journal o input b) ?_
  unfold Stage.lines Stage.failures
  cases hanswer : (o.stage b.files input).answer with
  | error e =>
    simp only [Except.map, List.append_nil]
    exact fail journal e _
  | ok outcome =>
    simp only [Except.map, List.append_nil, BatchOptions.stage_input]
    have hprint (b : Books) : Carries
        (if o.print then Host.print (summaryLine input outcome) else Pure.pure ()) b ()
        { b with output := b.output ++ if o.print then [summaryLine input outcome] else [] } := by
      split
      · exact print _ b
      · rw [List.append_nil]
        exact pure () b
    cases outcome with
    | ok => exact hprint _
    | error e => exact bind (note journal (by simp) _) (hprint _)

/-- A run over inputs leaves what its stages do, one behind the other. -/
theorem runInputs (journal : Journal) (o : BatchOptions) (inputs : List Path) (b : Books) :
    Carries (inputs.forM (Reckon.runInput journal o o.outputDirectory)) b ()
      { files := o.filesAfter b.files inputs
        output := b.output ++ (o.stages b.files inputs).flatMap (·.lines o.print)
        failures := b.failures ++ (o.stages b.files inputs).flatMap (·.failures journal)
        accesses := b.accesses ++ (o.stages b.files inputs).flatMap (·.accesses) } := by
  induction inputs generalizing b with
  | nil =>
    simp only [BatchOptions.stages, List.flatMap_nil, List.append_nil]
    exact pure () b
  | cons input inputs ih =>
    refine bind (runInput journal o input b) ?_
    have hrest := ih ⟨(o.stage b.files input).after,
      b.output ++ (o.stage b.files input).lines o.print,
      b.failures ++ (o.stage b.files input).failures journal,
      b.accesses ++ (o.stage b.files input).accesses⟩
    simp only [List.append_assoc] at hrest
    exact hrest

section
variable (journal : Journal) {o : BatchOptions} {inputs : List Path} {t : FileTree}

/-- If no inputs can be selected, the run reports it and ends with status 1. -/
theorem runBatch_of_select {e : FileError}
    (h : b.files.select o.directory? o.input? = .error e) :
    Carries (runBatch journal o) b 1
      { b with failures := b.failures ++ journal.failureReports e } := by
  have hselect := selectInputs o.directory? o.input? b
  rw [h] at hselect
  exact bind hselect (bind (fail journal e b) (pure 1 _))

/-- If the output directory cannot be made, the run reports that and ends with status 1. -/
theorem runBatch_of_makeAll {e : SystemError}
    (h : b.files.select o.directory? o.input? = .ok inputs)
    (hmake : b.files.makeAll o.outputDirectory.ancestors = (.error e, t)) :
    Carries (runBatch journal o) b 1
      { b with
        files := t
        failures := b.failures ++
          journal.failureReports (.createDirectory o.outputDirectory e) } := by
  have hselect := selectInputs o.directory? o.input? b
  rw [h] at hselect
  exact bind hselect (bind (ensureDirectory_error hmake) (bind (fail journal _ _) (pure 1 _)))

/-- Else the run goes through its inputs, and ends with status 0. -/
theorem runBatch_ok (h : b.files.select o.directory? o.input? = .ok inputs)
    (hmake : b.files.makeAll o.outputDirectory.ancestors = (.ok (), t)) :
    Carries (runBatch journal o) b 0
      { files := o.filesAfter t inputs
        output := b.output ++ (o.stages t inputs).flatMap (·.lines o.print)
        failures := b.failures ++ (o.stages t inputs).flatMap (·.failures journal)
        accesses := b.accesses ++ (o.stages t inputs).flatMap (·.accesses) } := by
  have hselect := selectInputs o.directory? o.input? b
  rw [h] at hselect
  refine bind hselect (bind (ensureDirectory_ok hmake) (bind (note journal (by simp) _) ?_))
  exact bind (runInputs journal o inputs _) (pure 0 _)

end

/-- Lines that are reported are failures, each. -/
theorem reports (lines : List String) (b : Books) : Carries (lines.forM Host.report) b ()
    { b with failures := b.failures ++ lines.map .line } := by
  induction lines generalizing b with
  | nil =>
    rw [List.map_nil, List.append_nil]
    exact pure () b
  | cons line lines ih =>
    have hrest := ih { b with failures := b.failures ++ [.line line] }
    rw [List.append_assoc] at hrest
    exact bind (report line b) hrest

/-- The words that are no part of the filter are reported before anything else. -/
theorem runCommand {words : List Bytes} {filter? : Option String} {o : BatchOptions} {b' : Books}
    {status : Nat} (h : Invocation.ofArguments words = .batch o)
    (hrun : Carries (runBatch (filter?.map LogFilter.parse) o)
      { b with failures := b.failures ++
        ((filter?.map LogFilter.complaints).getD []).map .line } status b') :
    Carries (runCommand words filter?) b status b' := by
  refine bind (reports _ b) ?_
  rw [h]
  exact hrun

end Carries

/-- Collecting inputs answers as the files do. -/
theorem collectInputs_answer (d : Path) (w : World) :
    ((collectInputs d : StateM World _) w).1 = w.files.collect d := by
  have hcarries := Carries.selectInputs (some d) none (Ledger.ofWorld w).books
  exact (hcarries.world (.selectInputs (some d) none) rfl).1

/-- A run over inputs whose output directory can be made ends well, and leaves the books of its
stages. -/
theorem runCommand_books {words : List Bytes} {o : BatchOptions} {t ready : FileTree}
    {inputs : List Path} (filter? : Option String)
    (hwords : Invocation.ofArguments words = .batch o)
    (hselect : t.select o.directory? o.input? = .ok inputs)
    (hmake : t.makeAll o.outputDirectory.ancestors = (.ok (), ready)) :
    ∃ after, (runCommand words filter? : StateM Ledger Nat) (.ofWorld (.ofFiles t)) = (0, after) ∧
      after.books =
        { files := o.filesAfter ready inputs
          output := (o.stages ready inputs).flatMap (·.lines o.print)
          failures := ((filter?.map LogFilter.complaints).getD []).map .line ++
            (o.stages ready inputs).flatMap (·.failures (filter?.map LogFilter.parse))
          accesses := (o.stages ready inputs).flatMap (·.accesses) } := by
  have hrun := Carries.runCommand (b := (Ledger.ofWorld (.ofFiles t)).books) hwords
    (Carries.runBatch_ok (filter?.map LogFilter.parse) hselect hmake)
  obtain ⟨hstatus, hbooks⟩ := hrun _ rfl
  exact ⟨_, Prod.ext hstatus rfl, hbooks⟩

end Reckon
