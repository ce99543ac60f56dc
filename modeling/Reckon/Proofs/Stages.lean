import Reckon.Proofs.Inputs

/-!
# Runs over inputs

A stage writes at most one file, the one its output leads to (`Stage.after_cases`). So a run over
inputs only writes files (`BatchOptions.filesAfter_writes`), and a location has the line that was
written to it last, or else what it had before (`BatchOptions.filesAfter_get?`).

The results of two inputs of a directory have one name exactly if their stems are one text
(`BatchOptions.result_eq_iff`). Where the outputs lie in one directory that holds no links
(`BatchOptions.Ready`), each of them leads to its own name there, whatever was written meanwhile.
Whether a result can be written is decided before the run (`BatchOptions.Ready.target_eq`), and a
result stays unless that of a later input is written to the same path
(`BatchOptions.Ready.resolve_result`).
-/

namespace Reckon

/-! ## The last line -/

/-- The line that an access wrote to a location, if it wrote there. -/
def Access.lineAt? (t : FileTree) (location : Location) : Access → Option Bytes
  | .write p line (.ok _) => if t.LeadsTo p location then some line else none
  | _ => none

/-- The line that was written to a location last, if one was. Paths lead where they lead in the
tree. -/
def FileTree.lastLine? (t : FileTree) (location : Location) (accesses : List Access) :
    Option Bytes :=
  (accesses.filterMap (·.lineAt? t location)).getLast?

section
variable {t : FileTree} {location : Location}

/-- What is written later comes first. -/
theorem FileTree.lastLine?_append (t : FileTree) (location : Location)
    (accesses accesses' : List Access) : t.lastLine? location (accesses ++ accesses') =
      (t.lastLine? location accesses').or (t.lastLine? location accesses) := by
  rw [lastLine?, List.filterMap_append, List.getLast?_append]
  rfl

/-- A line that an access wrote to a location was written to a path that leads there. -/
theorem Access.lineAt?_eq_some_iff {a : Access} {line : Bytes} :
    a.lineAt? t location = some line ↔
      ∃ p, a = .write p line (.ok ()) ∧ t.LeadsTo p location := by
  cases a with
  | read => exact iff_of_false nofun (by simp)
  | write p content answer =>
    cases answer with
    | error => exact iff_of_false nofun (by simp)
    | ok => simp [lineAt?, and_comm]

/-- The last line was written to a path that leads to the location. -/
theorem FileTree.of_lastLine? {accesses : List Access} {line : Bytes}
    (h : t.lastLine? location accesses = some line) :
    ∃ p, .write p line (.ok ()) ∈ accesses ∧ t.LeadsTo p location := by
  obtain ⟨a, ha, hline⟩ := List.mem_filterMap.1 (List.mem_of_getLast? h)
  obtain ⟨p, rfl, hleads⟩ := Access.lineAt?_eq_some_iff.1 hline
  exact ⟨p, ha, hleads⟩

end

/-! ## One stage -/

namespace Stage

variable {s : Stage} {t : FileTree}

/-- A stage reads its input, and writes the result of what it could read. -/
theorem accesses_cases (s : Stage) : (∃ e, s.accesses = [.read s.input (.error e)]) ∨
    ∃ content answer, s.files.read s.input = .ok content ∧
      s.accesses = [.read s.input (.ok content),
        .write s.output (resultContent (contentOutcome content s.maxDepth)) answer] := by
  rcases s.cases with ⟨e, -, -, -, haccesses⟩ | ⟨content, _, hread, -, -, -, haccesses⟩ |
    ⟨content, _, hread, -, -, -, haccesses⟩
  · exact .inl ⟨e, haccesses⟩
  · exact .inr ⟨content, _, hread, haccesses⟩
  · exact .inr ⟨content, _, hread, haccesses⟩

/-- A stage writes at most one file, the one that its output leads to. -/
theorem after_cases (s : Stage) : s.after = s.files ∨ ∃ location content,
    s.files.target s.output = .ok location ∧ s.after = s.files.put location (.file content) := by
  rcases s.cases with ⟨_, -, -, hafter, -⟩ | ⟨_, _, -, -, -, hafter, -⟩ |
    ⟨_, location, -, htarget, -, hafter, -⟩
  · exact .inl hafter
  · exact .inl hafter
  · exact .inr ⟨location, _, htarget, hafter⟩

/-- A stage only writes files. -/
theorem writes (s : Stage) : s.files.Writes s.after := by
  rcases s.after_cases with hafter | ⟨location, content, htarget, hafter⟩
  · rw [hafter]
    exact .refl _
  · rw [hafter]
    exact .put_target htarget content

/-- What a stage has written. -/
def written (s : Stage) : List Access :=
  match s.answer with
  | .ok outcome => [.write s.output (resultContent outcome) (.ok ())]
  | .error _ => []

/-- The lines that a stage writes are those of what it has written. -/
theorem filterMap_lineAt? (s : Stage) (t : FileTree) (key : Location) :
    s.accesses.filterMap (·.lineAt? t key) = s.written.filterMap (·.lineAt? t key) := by
  unfold written
  rcases s.cases with ⟨_, -, hanswer, -, haccesses⟩ | ⟨_, _, -, -, hanswer, -, haccesses⟩ |
    ⟨_, _, -, -, hanswer, -, haccesses⟩ <;> rw [hanswer, haccesses] <;> rfl

/-- Behind a stage, a location has the line that was written there, or else what it had. -/
theorem after_get? (hkeeps : s.after.Keeps t) (key : Location) : s.after.get? key =
    ((t.lastLine? key s.accesses).map .file).or (s.files.get? key) := by
  rcases s.cases with ⟨_, -, -, hafter, haccesses⟩ | ⟨_, _, -, -, -, hafter, haccesses⟩ |
    ⟨content, location, -, htarget, -, hafter, haccesses⟩ <;> rw [haccesses]
  · rw [hafter]
    rfl
  · rw [hafter]
    rfl
  · have hleads : t.LeadsTo s.output key ↔ key = location := by
      have hoccupied := hkeeps.leadsTo (s.writes.toKeeps.leadsTo (FileTree.target_leadsTo htarget))
      exact ⟨fun h => h.unique hoccupied, fun h => h ▸ hoccupied⟩
    rw [hafter, FileTree.get?_put (FileTree.target_admits htarget _)]
    unfold FileTree.lastLine?
    rw [List.filterMap_cons_none rfl]
    simp only [Access.lineAt?, hleads, List.filterMap_cons, List.filterMap_nil]
    split <;> rfl

/-- Where an outcome is written, it is that of the content. -/
theorem of_answer_ok {outcome : Outcome} (h : s.answer = .ok outcome) :
    ∃ content location, s.files.read s.input = .ok content ∧
      s.files.target s.output = .ok location ∧ outcome = contentOutcome content s.maxDepth ∧
      s.after = s.files.put location (.file (resultContent outcome)) := by
  rcases s.cases with ⟨_, -, hanswer, -⟩ | ⟨_, _, -, -, hanswer, -⟩ |
    ⟨content, location, hread, htarget, hanswer, hafter, -⟩
  · cases hanswer.symm.trans h
  · cases hanswer.symm.trans h
  · cases hanswer.symm.trans h
    exact ⟨content, location, hread, htarget, rfl, hafter⟩

/-- A stage that can read and write comes to the outcome of the content. -/
theorem answer_of_ok {content : Bytes} {location : Location}
    (hread : s.files.read s.input = .ok content)
    (htarget : s.files.target s.output = .ok location) :
    s.answer = .ok (contentOutcome content s.maxDepth) := by
  rw [answer, hread]
  dsimp only
  rw [htarget]

/-- A failure leaves the files as they are. -/
theorem after_of_answer_error {e : FileError} (h : s.answer = .error e) : s.after = s.files := by
  rcases s.cases with ⟨_, -, -, hafter, -⟩ | ⟨_, _, -, -, -, hafter, -⟩ |
    ⟨_, _, -, -, hanswer, -, -⟩
  · exact hafter
  · exact hafter
  · cases hanswer.symm.trans h

/-- Whether a stage fails, and how, depends on whether its input can be read and its result written.
-/
theorem answer_congr {s' : Stage} (hinput : s'.input = s.input) (houtput : s'.output = s.output)
    (hread : (s'.files.read s.input).map (fun _ => ()) = (s.files.read s.input).map fun _ => ())
    (htarget : s'.files.target s.output = s.files.target s.output) :
    s'.answer.map (fun _ => ()) = s.answer.map fun _ => () := by
  unfold answer
  rw [hinput, houtput, htarget]
  cases hanswer : s.files.read s.input <;> cases hanswer' : s'.files.read s.input <;>
    rw [hanswer, hanswer'] at hread
  · cases hread
    rfl
  · cases hread
  · cases hread
  · cases s.files.target s.output <;> simp only [Except.map]

/-- What was written is the result of the answer. -/
theorem of_written_mem {output : Path} {line : Bytes}
    (h : .write output line (.ok ()) ∈ s.accesses) :
    output = s.output ∧ ∃ outcome, s.answer = .ok outcome ∧ line = resultContent outcome := by
  rcases s.cases with ⟨_, -, -, -, haccesses⟩ | ⟨_, _, -, -, -, -, haccesses⟩ |
    ⟨content, _, -, -, hanswer, -, haccesses⟩ <;> rw [haccesses] at h
  · simp at h
  · simp at h
  · obtain ⟨rfl, rfl⟩ : _ ∧ _ := by simpa using h
    exact ⟨rfl, _, hanswer, rfl⟩

/-- What a stage reads has its result written. -/
theorem write_mem {content : Bytes} (h : s.files.read s.input = .ok content) :
    ∃ answer, .write s.output (resultContent (contentOutcome content s.maxDepth)) answer ∈
      s.accesses := by
  rcases s.cases with ⟨_, hread, -⟩ | ⟨_, _, hread, -, -, -, haccesses⟩ |
    ⟨_, _, hread, -, -, -, haccesses⟩
  · cases hread.symm.trans h
  · cases hread.symm.trans h
    exact ⟨_, by rw [haccesses]; exact List.mem_cons_of_mem _ (List.mem_singleton_self _)⟩
  · cases hread.symm.trans h
    exact ⟨_, by rw [haccesses]; exact List.mem_cons_of_mem _ (List.mem_singleton_self _)⟩

/-- A stage reads its input. -/
theorem accesses_reads (s : Stage) : s.accesses.filterMap Access.readPath? = [s.input] := by
  rcases s.accesses_cases with ⟨_, haccesses⟩ | ⟨_, _, -, haccesses⟩ <;> rw [haccesses] <;> rfl

/-- Where an outcome is written, it is that of the content that was read. -/
theorem read_of_answer_ok {outcome : Outcome} (h : s.answer = .ok outcome) :
    ∃ content, .read s.input (.ok content) ∈ s.accesses ∧
      outcome = contentOutcome content s.maxDepth := by
  rcases s.cases with ⟨_, -, hanswer, -⟩ | ⟨_, _, -, -, hanswer, -⟩ |
    ⟨content, location, -, -, hanswer, -, haccesses⟩
  · cases hanswer.symm.trans h
  · cases hanswer.symm.trans h
  · cases hanswer.symm.trans h
    exact ⟨content, by rw [haccesses]; exact List.mem_cons_self .., rfl⟩

end Stage

/-! ## All stages -/

namespace BatchOptions

variable {o : BatchOptions} {t t' : FileTree} {inputs before behind : List Path} {input : Path}

/-- An input that can be read and whose result can be written comes to its outcome. -/
theorem stage_answer_of_ok {content : Bytes} {location : Location}
    (hread : t.read input = .ok content)
    (htarget : t.target (outputPath input o.outputDirectory o.suffix) = .ok location) :
    (o.stage t input).answer = .ok (contentOutcome content o.maxDepth) := by
  rw [← stage_output o t input] at htarget
  exact Stage.answer_of_ok hread htarget

/-- Behind an input come the others. -/
theorem filesAfter_cons (o : BatchOptions) (t : FileTree) (input : Path) (inputs : List Path) :
    o.filesAfter t (input :: inputs) = o.filesAfter (o.stage t input).after inputs :=
  rfl

/-- Behind some inputs come others, on the files that those leave. -/
theorem filesAfter_append (o : BatchOptions) (t : FileTree) (before behind : List Path) :
    o.filesAfter t (before ++ behind) = o.filesAfter (o.filesAfter t before) behind :=
  List.foldl_append

/-- A stage is that of an input, on the files that the inputs before it leave. -/
theorem exists_of_mem_stages {s : Stage} (h : s ∈ o.stages t inputs) :
    ∃ before input behind, inputs = before ++ input :: behind ∧
      s = o.stage (o.filesAfter t before) input := by
  induction inputs generalizing t with
  | nil => cases h
  | cons first inputs ih =>
    rcases List.mem_cons.1 h with rfl | h
    · exact ⟨[], first, inputs, rfl, rfl⟩
    · obtain ⟨before, input, behind, hinputs, hstage⟩ := ih h
      exact ⟨first :: before, input, behind, congrArg (first :: ·) hinputs, hstage⟩

/-- The stages of more inputs come behind, on the files that the others leave. -/
theorem stages_append (o : BatchOptions) (t : FileTree) (before behind : List Path) :
    o.stages t (before ++ behind) =
      o.stages t before ++ o.stages (o.filesAfter t before) behind := by
  induction before generalizing t with
  | nil => rfl
  | cons input before ih =>
    rw [List.cons_append, stages, stages, ih, List.cons_append, filesAfter_cons]

/-- The stages of a run go through its inputs, in order. -/
theorem map_input_stages (o : BatchOptions) (t : FileTree) (inputs : List Path) :
    (o.stages t inputs).map Stage.input = inputs := by
  induction inputs generalizing t with
  | nil => rfl
  | cons input inputs ih => rw [stages, List.map_cons, ih, stage_input]

/-- A run over inputs reads each of them, in order. -/
theorem stages_reads (o : BatchOptions) (t : FileTree) (inputs : List Path) :
    ((o.stages t inputs).flatMap (·.accesses)).filterMap Access.readPath? = inputs := by
  induction inputs generalizing t with
  | nil => rfl
  | cons input inputs ih =>
    rw [stages, List.flatMap_cons, List.filterMap_append, Stage.accesses_reads, ih, stage_input]
    rfl

/-- A run over inputs only writes files. -/
theorem filesAfter_writes (o : BatchOptions) (t : FileTree) (inputs : List Path) :
    t.Writes (o.filesAfter t inputs) := by
  induction inputs generalizing t with
  | nil => exact .refl t
  | cons input inputs ih => exact (o.stage t input).writes.trans (ih _)

/-- Behind a run over inputs, a location has the line that was written there last, or else what it
had. -/
theorem filesAfter_get? (hkeeps : (o.filesAfter t inputs).Keeps t') (key : Location) :
    (o.filesAfter t inputs).get? key =
      ((t'.lastLine? key ((o.stages t inputs).flatMap (·.accesses))).map .file).or
        (t.get? key) := by
  induction inputs generalizing t with
  | nil => rfl
  | cons input inputs ih =>
    have hfirst := (o.filesAfter_writes (o.stage t input).after inputs).toKeeps.trans hkeeps
    rw [filesAfter_cons, ih hkeeps, Stage.after_get? hfirst, stage_files, stages, List.flatMap_cons,
      FileTree.lastLine?_append, Option.map_or, Option.or_assoc]

/-- The last line at a location is the result of an input that is written there. -/
theorem of_lastLine?_stages {key : Location} {line : Bytes}
    (h : t'.lastLine? key ((o.stages t inputs).flatMap (·.accesses)) = some line) :
    ∃ s ∈ o.stages t inputs, .write s.output line (.ok ()) ∈ s.accesses ∧
      t'.LeadsTo s.output key := by
  obtain ⟨p, hwrite, hleads⟩ := FileTree.of_lastLine? h
  obtain ⟨s, hs, hmem⟩ := List.mem_flatMap.1 hwrite
  obtain ⟨rfl, -⟩ := Stage.of_written_mem hmem
  exact ⟨s, hs, hmem, hleads⟩

/-- What becomes of the inputs of a run. -/
def course (o : BatchOptions) (t : FileTree) (inputs : List Path) :
    List (Path × Except FileError Outcome) :=
  (o.stages t inputs).map fun s => (s.input, s.answer)

/-- The course of a run goes through the inputs, in order. -/
theorem map_fst_course (o : BatchOptions) (t : FileTree) (inputs : List Path) :
    (o.course t inputs).map Prod.fst = inputs := by
  rw [course, List.map_map]
  exact o.map_input_stages t inputs

/-- The output of a stage is that of its input. -/
theorem output_of_mem_stages {s : Stage} (h : s ∈ o.stages t inputs) :
    s.output = outputPath s.input o.outputDirectory o.suffix := by
  obtain ⟨before, input, behind, -, rfl⟩ := exists_of_mem_stages h
  rw [stage_output, stage_input]

/-- The last line at a location is known from what the stages have written. -/
theorem lastLine?_stages (o : BatchOptions) (t : FileTree) (inputs : List Path) (key : Location) :
    t'.lastLine? key ((o.stages t inputs).flatMap (·.accesses)) =
      t'.lastLine? key ((o.course t inputs).flatMap fun c =>
        match c.2 with
        | .ok outcome =>
          [.write (outputPath c.1 o.outputDirectory o.suffix) (resultContent outcome) (.ok ())]
        | .error _ => []) := by
  have hwritten (s : Stage) (hs : s ∈ o.stages t inputs) :
      s.written.filterMap (·.lineAt? t' key) = (match s.answer with
        | .ok outcome => [Access.write (outputPath s.input o.outputDirectory o.suffix)
            (resultContent outcome) (.ok ())]
        | .error _ => []).filterMap (Access.lineAt? t' key) := by
    rw [← o.output_of_mem_stages hs]
    rfl
  unfold FileTree.lastLine?
  rw [course, List.flatMap_map, List.filterMap_flatMap, List.filterMap_flatMap]
  simp only [Stage.filterMap_lineAt?]
  rw [List.flatMap_congr hwritten]

/-- The output is known from what becomes of the inputs. -/
theorem lines_stages (o : BatchOptions) (t : FileTree) (inputs : List Path) :
    (o.stages t inputs).flatMap (·.lines o.print) = (o.course t inputs).flatMap fun c =>
      match c.2 with
      | .ok outcome => if o.print then [summaryLine c.1 outcome] else []
      | .error _ => [] := by
  rw [course, List.flatMap_map]
  rfl

/-- The failures that are reported are known from what becomes of the inputs. -/
theorem failures_stages (journal : Journal) (o : BatchOptions) (t : FileTree)
    (inputs : List Path) :
    (o.stages t inputs).flatMap (·.failures journal) = (o.course t inputs).flatMap fun c =>
      match c.2 with
      | .ok _ => []
      | .error e => journal.failureReports e := by
  rw [course, List.flatMap_map]
  rfl

/-! ## One directory of results -/

/-- The name of the result of an input. -/
def result (o : BatchOptions) (input : Path) : Name :=
  resultName (input.stemText?.getD "input") o.suffix

/-- An output is the name of the result in the output directory. -/
theorem outputPath_eq (o : BatchOptions) (input : Path) :
    outputPath input o.outputDirectory o.suffix = o.outputDirectory.join (o.result input) := by
  simp only [outputPath, result, resultName, Utf8.encode_append]

/-- The results of two inputs of a directory have one name exactly if their stems are one text. -/
theorem result_eq_iff (o : BatchOptions) (d : Path) {stem stem' : Name}
    (hname : ProperName (inputName stem)) (hstem : stem ≠ [])
    (hname' : ProperName (inputName stem')) (hstem' : stem' ≠ []) :
    o.result (d.join (inputName stem)) = o.result (d.join (inputName stem')) ↔
      Utf8.decode stem = Utf8.decode stem' := by
  rw [result, result, stemText?_join d hname hstem, stemText?_join d hname' hstem',
    Option.getD_some, Option.getD_some]
  exact ⟨resultName_injective, fun h => by rw [h]⟩

/-- The results have names, and lie in one directory that holds no links. -/
structure Ready (o : BatchOptions) (t : FileTree) (directory : Location) : Prop where
  suffix : '/' ∉ o.suffix.toList
  place : t.resolve true o.outputDirectory = .ok (.occupied directory .directory)
  noLinks : ∀ name target, t.get? (directory ++ [name]) ≠ some (.link target)

namespace Ready

variable {directory : Location}

/-- A result has a name that something can have. -/
theorem result_properName (h : o.Ready t directory) (input : Path) :
    ProperName (o.result input) := by
  refine resultName_properName ?_ h.suffix
  cases hstem : input.stemText? with
  | none => decide
  | some stem => exact Path.no_slash_of_stemText? hstem

/-- Two outputs are one exactly if the names of the results are. -/
theorem outputPath_eq_iff (h : o.Ready t directory) {input' : Path} :
    outputPath input o.outputDirectory o.suffix = outputPath input' o.outputDirectory o.suffix ↔
      o.result input = o.result input' := by
  have hproper := h.result_properName input
  have hproper' := h.result_properName input'
  rw [outputPath_eq, outputPath_eq]
  exact ⟨Path.join_injective _ hproper.ne_nil hproper.no_slash hproper'.ne_nil hproper'.no_slash,
    fun heq => by rw [heq]⟩

/-- Two inputs of a directory have one output exactly if their stems are one text. -/
theorem outputPath_inputs_iff (h : o.Ready t directory) {inputDirectory : Location} {d : Path}
    {stem stem' : Name} (hstem : inputName stem ∈ t.inputNames inputDirectory)
    (hstem' : inputName stem' ∈ t.inputNames inputDirectory) :
    outputPath (d.join (inputName stem)) o.outputDirectory o.suffix =
        outputPath (d.join (inputName stem')) o.outputDirectory o.suffix ↔
      Utf8.decode stem = Utf8.decode stem' := by
  have hne {stem : Name} (hmem : inputName stem ∈ t.inputNames inputDirectory) : stem ≠ [] := by
    obtain ⟨⟨stem', hnil, heq⟩, -⟩ := FileTree.mem_inputNames.1 hmem
    rwa [List.append_cancel_right heq]
  rw [h.outputPath_eq_iff]
  exact o.result_eq_iff d (FileTree.properName_of_mem_inputNames hstem) (hne hstem)
    (FileTree.properName_of_mem_inputNames hstem') (hne hstem')

/-- Writing files does not change where results lie. -/
theorem writes (h : o.Ready t directory) (hwrites : t.Writes t') : o.Ready t' directory where
  suffix := h.suffix
  place := hwrites.toKeeps.resolve_directory h.place
  noLinks name target hlink := by
    have hentry := hwrites.entry (directory ++ [name])
    rw [hlink] at hentry
    exact h.noLinks name target hentry.eq_link

/-- Behind some of the inputs, results lie where they lay. -/
theorem filesAfter (h : o.Ready t directory) (inputs : List Path) :
    o.Ready (o.filesAfter t inputs) directory :=
  h.writes (o.filesAfter_writes t inputs)

/-- The output of an input leads to its name in the directory. -/
theorem eq_of_leadsTo (h : o.Ready t directory) {key : Location}
    (hleads : t.LeadsTo (outputPath input o.outputDirectory o.suffix) key) :
    key = directory ++ [o.result input] := by
  rw [outputPath_eq] at hleads
  exact FileTree.LeadsTo.eq_of_join h.place (h.result_properName input) (h.noLinks _) hleads

/-- Whether and where a result can be written does not change while files are written. -/
theorem target_eq (h : o.Ready t directory) (hwrites : t.Writes t') (input : Path) :
    t'.target (outputPath input o.outputDirectory o.suffix) =
      t.target (outputPath input o.outputDirectory o.suffix) := by
  have h' := h.writes hwrites
  rw [outputPath_eq, FileTree.target_join h.place (h.result_properName input) (h.noLinks _),
    FileTree.target_join h'.place (h.result_properName input) (h'.noLinks _),
    hwrites.toKeeps.nameable, hwrites.fileAt_placeAt]

/-- A run leaves a location as it is unless it is that of the result of one of the inputs. -/
theorem filesAfter_get?_of_ne (h : o.Ready t directory) {key : Location}
    (hkey : ∀ input ∈ inputs, key ≠ directory ++ [o.result input]) :
    (o.filesAfter t inputs).get? key = t.get? key := by
  rw [filesAfter_get? (.refl _)]
  cases hlast : FileTree.lastLine? _ key _ with
  | none => rfl
  | some line =>
    obtain ⟨s, hs, -, hleads⟩ := of_lastLine?_stages hlast
    obtain ⟨before, input, behind, rfl, rfl⟩ := exists_of_mem_stages hs
    rw [stage_output] at hleads
    exact absurd ((h.filesAfter _).eq_of_leadsTo hleads) (hkey input (by simp))

section
variable (h : o.Ready t directory) {outcome : Outcome}
  (hanswer : (o.stage t input).answer = .ok outcome)
  (hlater : ∀ s ∈ o.stages (o.stage t input).after behind,
    s.output = outputPath input o.outputDirectory o.suffix → ∀ outcome, s.answer ≠ .ok outcome)
include h hanswer hlater

/-- The result of an input stays unless that of a later input is written to the same path. -/
theorem get?_result : (o.filesAfter t (input :: behind)).get? (directory ++ [o.result input]) =
    some (.file (resultContent outcome)) := by
  obtain ⟨content, location, -, htarget, -, hafter⟩ := Stage.of_answer_ok hanswer
  rw [stage_files, stage_output] at htarget
  obtain rfl := h.eq_of_leadsTo (FileTree.target_leadsTo htarget)
  rw [filesAfter_cons, filesAfter_get? (.refl _)]
  cases hlast : FileTree.lastLine? _ _ _ with
  | none =>
    rw [hafter, stage_files, FileTree.get?_put_self (FileTree.target_admits htarget _)]
    rfl
  | some line =>
    obtain ⟨s, hs, hwrite, hleads⟩ := of_lastLine?_stages hlast
    obtain ⟨-, outcome', hok, -⟩ := Stage.of_written_mem hwrite
    refine absurd hok (hlater s hs ?_ outcome')
    obtain ⟨before, later, rest, -, rfl⟩ := exists_of_mem_stages hs
    rw [stage_output] at hleads ⊢
    have hready : o.Ready (o.stage t input).after directory := h.writes (o.stage t input).writes
    have hsame := (hready.filesAfter behind).eq_of_leadsTo hleads
    exact h.outputPath_eq_iff.2 (List.singleton_inj.1 (List.append_cancel_left hsame)).symm

/-- At the end, the output of such an input leads to its line. -/
theorem resolve_result : (o.filesAfter t (input :: behind)).resolve true
    (outputPath input o.outputDirectory o.suffix) = .ok (.occupied (directory ++ [o.result input])
      (.file (resultContent outcome))) := by
  obtain ⟨-, location, -, htarget, -, -⟩ := Stage.of_answer_ok hanswer
  rw [stage_files, stage_output] at htarget
  have hleads := FileTree.target_leadsTo htarget
  obtain rfl := h.eq_of_leadsTo hleads
  exact ((o.filesAfter_writes t (input :: behind)).toKeeps.leadsTo hleads).resolve_eq
    (h.get?_result hanswer hlater)

/-- At the end, the line is read from such an output, if that may be read. -/
theorem read_result (hright : t.grants (directory ++ [o.result input]) .read) :
    (o.filesAfter t (input :: behind)).read (outputPath input o.outputDirectory o.suffix) =
      .ok (resultContent outcome) :=
  FileTree.read_eq_ok_iff.2 ⟨_, h.resolve_result hanswer hlater,
    ((o.filesAfter_writes t (input :: behind)).toKeeps.grants _ _).trans hright⟩

end

end Ready

/-- A directory that was made is one, if it has a name. -/
theorem exists_place (hname : o.outputDirectory.bytes ≠ [])
    (hmake : t.makeAll o.outputDirectory.ancestors = (.ok (), t')) :
    ∃ directory, t'.resolve true o.outputDirectory = .ok (.occupied directory .directory) := by
  rw [Path.ancestors_eq hname] at hmake
  exact FileTree.isDirectory_iff.1 (FileTree.isDirectory_of_makeAll hmake)

end BatchOptions

end Reckon
