import Reckon.Proofs.Arguments
import Reckon.Proofs.Rerun

/-!
# Runs over a directory

A run over a directory reads each of its inputs once, in the order of their names, and comes to an
answer for each: an outcome, and then its line is in the result of the input at the end, or a
failure, which is reported and keeps no other input from its answer (`runCommand_directory`).
Whether an input fails is known before the run (`BatchOptions.Ready.answer_alone`).
-/

namespace Reckon

namespace BatchOptions.Ready

variable {o : BatchOptions} {t : FileTree} {place directory : Location} {d : Path} {name : Name}

/-- An input fails on its turn as it does by itself before all others. -/
theorem answer_alone (h : o.Ready t place)
    (hd : t.resolve true d = .ok (.occupied directory .directory))
    (hname : name ∈ t.inputNames directory) (before : List Path) :
    (o.stage (o.filesAfter t before) (d.join name)).answer.map (fun _ => ()) =
      (o.stage t (d.join name)).answer.map fun _ => () := by
  have hwrites := o.filesAfter_writes t before
  obtain ⟨content, -, hread⟩ := FileTree.read_input hd hname (.refl t)
  obtain ⟨content', -, hread'⟩ := FileTree.read_input hd hname hwrites.toKeeps
  refine Stage.answer_congr rfl rfl ?_ ?_
  · rw [stage_files, stage_files, stage_input, hread, hread']
    cases t.readable directory d name <;> rfl
  · rw [stage_files, stage_files, stage_output]
    exact h.target_eq hwrites (d.join name)

end BatchOptions.Ready

/-! ## The course of a run -/

/-- The line of output for an input holds the content of its result. -/
theorem encode_summaryLine (input : Path) (outcome : Outcome) :
    Utf8.encode (summaryLine input outcome ++ "\n") =
      Utf8.encode (input.display ++ ": ") ++ resultContent outcome := by
  simp [summaryLine, resultContent, Utf8.encode_append]

/-- What a run over the inputs of a directory does: `names` are those of the inputs, `course` lists
the inputs with what becomes of each, `ready` is the world before the first of them, and `after` is
what the run leaves. -/
structure DirectoryRun (filter? : Option String) (o : BatchOptions) (d : Path) (names : List Name)
    (ready : World) (after : Ledger) (course : List (Path × Except FileError Outcome)) : Prop where
  /-- The inputs come in the order of their names. -/
  inputs : course.map Prod.fst = names.map d.join
  /-- Each input is read once, in order. -/
  reads : after.accesses.filterMap Access.readPath? = course.map Prod.fst
  /-- Two inputs have one output exactly if their stems are read as one text. -/
  meet : ∀ stem stem' : Name, inputName stem ∈ names → inputName stem' ∈ names →
    (outputPath (d.join (inputName stem)) o.outputDirectory o.suffix =
        outputPath (d.join (inputName stem')) o.outputDirectory o.suffix ↔
      Utf8.decode stem = Utf8.decode stem')
  /-- No two inputs whose names are text have one output. -/
  distinct : ∀ stem stem' : String, inputName stem ∈ names → inputName stem' ∈ names →
    outputPath (d.join (inputName stem)) o.outputDirectory o.suffix =
      outputPath (d.join (inputName stem')) o.outputDirectory o.suffix → stem = stem'
  /-- An outcome is that of the content read. -/
  evaluated : ∀ input outcome, (input, .ok outcome) ∈ course →
    ∃ content, .read input (.ok content) ∈ after.accesses ∧
      outcome = contentOutcome content o.maxDepth
  /-- The line of an outcome is in the result at the end, unless a later result has its place. -/
  written : ∀ before input outcome behind, course = before ++ (input, .ok outcome) :: behind →
    (∀ later outcome', (later, .ok outcome') ∈ behind →
      outputPath later o.outputDirectory o.suffix ≠
        outputPath input o.outputDirectory o.suffix) →
    ∃ location, after.world.files.resolve true (outputPath input o.outputDirectory o.suffix) =
      .ok (.occupied location (.file (resultContent outcome)))
  /-- An input fails exactly as it does if it is processed alone. -/
  alone : ∀ input ∈ course.map Prod.fst, ∀ e, (input, .error e) ∈ course ↔
    ((processFile (filter?.map LogFilter.parse) input o.outputDirectory o.suffix o.maxDepth :
      StateM World _) ready).1 = .error e
  /-- Behind the complaints about the filter, the failures are reported, each on its turn. -/
  reported : after.world.reports.filter Report.isFailure =
    ((filter?.map LogFilter.complaints).getD []).map .line ++ course.flatMap fun c =>
      match c.2 with
      | .ok _ => []
      | .error e => Journal.failureReports (filter?.map LogFilter.parse) e
  /-- A failure is reported once, unless the filter of the log does not take it. -/
  once : ∀ input e, (input, .error e) ∈ course →
    (∀ filter, filter? = some filter →
      (LogFilter.parse filter).allows ⟨.error, .command, e.message, []⟩) →
    (Journal.failureReports (filter?.map LogFilter.parse) e).length = 1
  /-- If lines are printed, there is one for each result, in order. -/
  printed : after.world.output = course.flatMap fun c =>
    match c.2 with
    | .ok outcome => if o.print then [summaryLine c.1 outcome] else []
    | .error _ => []
  /-- A line is the input and the content of its result. -/
  line : ∀ input outcome, (input, .ok outcome) ∈ course →
    Utf8.encode (summaryLine input outcome ++ "\n") =
      Utf8.encode (input.display ++ ": ") ++ resultContent outcome

namespace BatchOptions

variable {o : BatchOptions} {t : FileTree} {inputs : List Path}

/-- What becomes of an input is the answer on its turn. -/
theorem exists_of_mem_course {input : Path} {answer : Except FileError Outcome}
    (h : (input, answer) ∈ o.course t inputs) :
    ∃ before behind, inputs = before ++ input :: behind ∧
      o.stage (o.filesAfter t before) input ∈ o.stages t inputs ∧
      (o.stage (o.filesAfter t before) input).answer = answer := by
  obtain ⟨s, hs, heq⟩ := List.mem_map.1 h
  obtain ⟨before, input', behind, hinputs, rfl⟩ := exists_of_mem_stages hs
  rw [stage_input, Prod.mk.injEq] at heq
  obtain ⟨rfl, hanswer⟩ := heq
  exact ⟨before, behind, hinputs, hs, hanswer⟩

/-- The course of a run behind an input is that of a run from there on. -/
theorem course_split {before behind : List (Path × Except FileError Outcome)} {input : Path}
    {answer : Except FileError Outcome}
    (h : o.course t inputs = before ++ (input, answer) :: behind) : ∃ earlier later,
      inputs = earlier ++ input :: later ∧
      (o.stage (o.filesAfter t earlier) input).answer = answer ∧
      o.course (o.stage (o.filesAfter t earlier) input).after later = behind := by
  induction before generalizing t inputs with
  | nil =>
    cases inputs with
    | nil => cases h
    | cons first inputs =>
      obtain ⟨hfirst, hrest⟩ := List.cons.inj h
      obtain ⟨rfl, hanswer⟩ := Prod.mk.inj hfirst
      exact ⟨[], inputs, rfl, hanswer, hrest⟩
  | cons c before ih =>
    cases inputs with
    | nil => cases h
    | cons first inputs =>
      obtain ⟨earlier, later, hinputs, hbehind⟩ := ih (List.cons.inj h).2
      exact ⟨first :: earlier, later, congrArg (first :: ·) hinputs, hbehind⟩

/-- An outcome is that of the content that was read on the turn of its input. -/
theorem read_of_mem_course {input : Path} {outcome : Outcome}
    (h : (input, .ok outcome) ∈ o.course t inputs) :
    ∃ content, .read input (.ok content) ∈ (o.stages t inputs).flatMap (·.accesses) ∧
      outcome = contentOutcome content o.maxDepth := by
  obtain ⟨before, behind, -, hstage, hanswer⟩ := exists_of_mem_course h
  obtain ⟨content, hread, houtcome⟩ := Stage.read_of_answer_ok hanswer
  exact ⟨content, List.mem_flatMap.2 ⟨_, hstage, hread⟩, houtcome⟩

/-- The line of an outcome is where its output leads to, unless a later result is written to the
same path. -/
theorem Ready.resolve_of_course {place : Location} (h : o.Ready t place)
    {before behind : List (Path × Except FileError Outcome)} {input : Path} {outcome : Outcome}
    (hcourse : o.course t inputs = before ++ (input, .ok outcome) :: behind)
    (hlater : ∀ later outcome', (later, .ok outcome') ∈ behind →
      outputPath later o.outputDirectory o.suffix ≠ outputPath input o.outputDirectory o.suffix) :
    (o.filesAfter t inputs).resolve true (outputPath input o.outputDirectory o.suffix) =
      .ok (.occupied (place ++ [o.result input]) (.file (resultContent outcome))) := by
  obtain ⟨earlier, later, rfl, hanswer, rfl⟩ := course_split hcourse
  rw [filesAfter_append]
  refine (h.filesAfter earlier).resolve_result hanswer fun s hs hsame outcome' hok => ?_
  refine hlater s.input outcome' (List.mem_map.2 ⟨s, hs, by rw [hok]⟩) ?_
  rw [← output_of_mem_stages hs, hsame]

end BatchOptions

/-- What is done with a value changes no error. -/
theorem map_eq_error_iff {ε α β : Type} (f : α → β) {a : Except ε α} {e : ε} :
    a.map f = .error e ↔ a = .error e := by
  cases a <;> simp [Except.map]

/-- Processing an input by itself answers as its stage does. -/
theorem processFile_answer (journal : Journal) (o : BatchOptions) (input : Path) (w : World) :
    ((processFile journal input o.outputDirectory o.suffix o.maxDepth : StateM World _) w).1 =
      (o.stage w.files input).answer.map fun outcome =>
        ⟨(o.stage w.files input).output, outcome⟩ := by
  have hcarries := Carries.processFile journal o input (Ledger.ofWorld w).books
  exact (hcarries.world (.processFile journal input o.outputDirectory o.suffix o.maxDepth) rfl).1

/-- Where the output directory is made, the files are those with the directories above it made. -/
theorem ensureDirectory_eq_ok {directory : Path} {w w' : World}
    (h : (ensureDirectory directory : StateM World _) w = (.ok (), w')) :
    w.files.makeAll directory.ancestors = (.ok (), w'.files) := by
  rcases hmake : w.files.makeAll directory.ancestors with ⟨_ | _, t⟩
  · have hworld := (Carries.ensureDirectory_error (b := (Ledger.ofWorld w).books) hmake).world
      (.ensureDirectory directory) rfl
    rw [h] at hworld
    cases hworld.1
  · have hworld := (Carries.ensureDirectory_ok (b := (Ledger.ofWorld w).books) hmake).world
      (.ensureDirectory directory) rfl
    rw [h] at hworld
    rw [hworld.2.1]

/-- An input fails in the course of a run if it fails by itself. -/
theorem BatchOptions.Ready.error_mem_course_iff {o : BatchOptions} {t : FileTree}
    {place directory : Location} {d : Path} {name : Name} {e : FileError}
    (h : o.Ready t place) (hd : t.resolve true d = .ok (.occupied directory .directory))
    (hname : name ∈ t.inputNames directory) :
    (d.join name, .error e) ∈ o.course t ((t.inputNames directory).map d.join) ↔
      (o.stage t (d.join name)).answer = .error e := by
  have halone (before : List Path) :
      (o.stage (o.filesAfter t before) (d.join name)).answer = .error e ↔
        (o.stage t (d.join name)).answer = .error e := by
    rw [← map_eq_error_iff (fun _ => ()), h.answer_alone hd hname before, map_eq_error_iff]
  constructor
  · intro hmem
    obtain ⟨before, -, -, -, hanswer⟩ := o.exists_of_mem_course hmem
    exact (halone before).1 hanswer
  · intro hanswer
    have hinput :
        d.join name ∈ (o.course t ((t.inputNames directory).map d.join)).map Prod.fst := by
      rw [o.map_fst_course]
      exact List.mem_map_of_mem hname
    obtain ⟨⟨input, answer⟩, hmem, rfl⟩ := List.mem_map.1 hinput
    obtain ⟨before, -, -, -, hturn⟩ := o.exists_of_mem_course hmem
    obtain rfl := hturn.symm.trans ((halone before).2 hanswer)
    exact hmem

/-- A failure is reported once, unless the filter of the log does not take it. -/
theorem length_failureReports {filter? : Option String} {e : FileError}
    (h : ∀ filter, filter? = some filter →
      (LogFilter.parse filter).allows ⟨.error, .command, e.message, []⟩) :
    (Journal.failureReports (filter?.map LogFilter.parse) e).length = 1 := by
  cases filter? with
  | none => rfl
  | some filter =>
    rw [Option.map_some, Journal.failureReports, if_pos (h filter rfl)]
    rfl

/-- The course of a run over the inputs of a directory. -/
theorem BatchOptions.Ready.directoryRun {filter? : Option String} {o : BatchOptions}
    {ready : World} {place directory : Location} {d : Path} {after : Ledger}
    (h : o.Ready ready.files place)
    (hd : ready.files.resolve true d = .ok (.occupied directory .directory))
    (hafter : after.books =
      { files := o.filesAfter ready.files ((ready.files.inputNames directory).map d.join)
        output := (o.stages ready.files ((ready.files.inputNames directory).map d.join)).flatMap
          (·.lines o.print)
        failures := ((filter?.map LogFilter.complaints).getD []).map .line ++
          (o.stages ready.files ((ready.files.inputNames directory).map d.join)).flatMap
            (·.failures (filter?.map LogFilter.parse))
        accesses := (o.stages ready.files
          ((ready.files.inputNames directory).map d.join)).flatMap (·.accesses) }) :
    DirectoryRun filter? o d (ready.files.inputNames directory) ready after
      (o.course ready.files ((ready.files.inputNames directory).map d.join)) := by
  have hfiles : after.world.files = _ := congrArg Books.files hafter
  have houtput : after.world.output = _ := congrArg Books.output hafter
  have haccesses : after.accesses = _ := congrArg Books.accesses hafter
  have hfailures : after.world.reports.filter Report.isFailure = _ := congrArg Books.failures hafter
  refine {
    inputs := o.map_fst_course _ _
    reads := ?_
    meet := fun stem stem' => h.outputPath_inputs_iff
    distinct := fun stem stem' hstem hstem' hsame => ?_
    evaluated := fun input outcome hmem => ?_
    written := fun before input outcome behind hcourse hlater => ?_
    alone := fun input hmem e => ?_
    reported := ?_
    once := fun input e _ htakes => length_failureReports htakes
    printed := ?_
    line := fun input outcome _ => encode_summaryLine input outcome }
  · rw [haccesses, o.map_fst_course]
    exact o.stages_reads _ _
  · have htext := (h.outputPath_inputs_iff hstem hstem').1 hsame
    rwa [Utf8.decode_encode, Utf8.decode_encode] at htext
  · rw [haccesses]
    exact o.read_of_mem_course hmem
  · rw [hfiles]
    exact ⟨_, h.resolve_of_course hcourse hlater⟩
  · rw [o.map_fst_course] at hmem
    obtain ⟨name, hname, rfl⟩ := List.mem_map.1 hmem
    rw [processFile_answer, map_eq_error_iff]
    exact h.error_mem_course_iff hd hname
  · exact hfailures.trans (congrArg (_ ++ ·) (o.failures_stages _ _ _))
  · exact houtput.trans (o.lines_stages _ _)

/-- A run over a directory that may be listed, whose output directory can be made and holds no
links, ends well, and goes through the inputs of the directory in the order of their names. -/
theorem runCommand_directory {words : List Bytes} {filter? : Option String} {o : BatchOptions}
    {d : Path} {t : FileTree} {directory : Location} {ready : World}
    (hwords : Invocation.ofArguments words = .batch o) (hdirectory : o.directory? = some d)
    (hd : t.resolve true d = .ok (.occupied directory .directory))
    (hread : t.grants directory .read) (hsuffix : '/' ∉ o.suffix.toList)
    (hready : (ensureDirectory o.outputDirectory : StateM World _) (.ofFiles t) = (.ok (), ready))
    (hlinks : ∀ place name target,
      ready.files.resolve true o.outputDirectory = .ok (.occupied place .directory) →
        ready.files.get? (place ++ [name]) ≠ some (.link target)) :
    ∃ after names course,
      (runCommand words filter? : StateM Ledger Nat) (.ofWorld (.ofFiles t)) = (0, after) ∧
      Ascending names ∧
      (∀ name, name ∈ names ↔ (∃ stem, stem ≠ [] ∧ name = inputName stem) ∧
        ∃ content, t.get? (directory ++ [name]) = some (.file content)) ∧
      DirectoryRun filter? o d names ready after course := by
  have hmake : t.makeAll o.outputDirectory.ancestors = (.ok (), ready.files) :=
    ensureDirectory_eq_ok hready
  have hmakes := t.makes_makeAll o.outputDirectory.ancestors
  rw [hmake] at hmakes
  have hd' := hmakes.toKeeps.resolve_directory hd
  have hnames := hmakes.inputNames directory
  obtain ⟨place, hplace⟩ := BatchOptions.exists_place
    (Invocation.outputDirectory_ne_nil hwords) hmake
  have hin : o.Ready ready.files place := ⟨hsuffix, hplace, fun name target =>
    hlinks place name target hplace⟩
  have hselect : t.select o.directory? o.input? = .ok ((t.inputNames directory).map d.join) := by
    rw [hdirectory]
    exact FileTree.collect_eq hd hread
  obtain ⟨after, hrun, hafter⟩ := runCommand_books filter? hwords hselect hmake
  refine ⟨after, t.inputNames directory,
    o.course ready.files ((t.inputNames directory).map d.join), hrun,
    t.ascending_inputNames directory, fun name => FileTree.mem_inputNames, ?_⟩
  rw [← hnames] at hafter ⊢
  exact hin.directoryRun hd' hafter

/-- A run that cannot write the first of two results. -/
theorem runCommand_directory_one_failure :
    let t : FileTree := ⟨[], [(["d"], .directory), (["d", "a.txt"], .file [0x31]),
      (["d", "b.txt"], .file [0x2B]), (["o"], .directory), (["o", "a_result.txt"], .directory)],
      [], by decide +kernel⟩
    ∃ after names course,
      (runCommand ["-p", "-d", "d", "-o", "o"] none : StateM Ledger Nat) (.ofWorld (.ofFiles t)) =
        (0, after) ∧
      Ascending names ∧
      (∀ name, name ∈ names ↔ (∃ stem, stem ≠ [] ∧ name = inputName stem) ∧
        ∃ content, t.get? ["d", name] = some (.file content)) ∧
      DirectoryRun none ⟨some ⟨"d"⟩, some ⟨"o"⟩, "result", 200, true, none⟩ ⟨"d"⟩ names (.ofFiles t)
        after course := by
  intro t
  have hwords : Invocation.ofArguments ["-p", "-d", "d", "-o", "o"] =
      .batch ⟨some ⟨"d"⟩, some ⟨"o"⟩, "result", 200, true, none⟩ := by decide +kernel
  have hd : t.resolve true ⟨"d"⟩ = .ok (.occupied ["d"] .directory) := by cbv
  have hready : (ensureDirectory ⟨"o"⟩ : StateM World _) (.ofFiles t) = (.ok (), .ofFiles t) := by
    cbv
  have hfree : t.LinkFree := FileTree.linkFree_of_entries (by simp [t])
  exact runCommand_directory hwords rfl hd (by decide +kernel) (by decide +kernel) hready
    fun _ _ target _ => hfree _ target

/-! ## Stems that are read as one text -/

/-- A directory with two files whose stems are no text, and one for the results. -/
def twins : FileTree :=
  ⟨[], [(["d"], .directory), (["d", 0xFE :: (".txt" : Bytes)], .file [0x31]),
    (["d", 0xFF :: (".txt" : Bytes)], .file [0x32]), (["o"], .directory)], [], by decide +kernel⟩

/-- The two files. -/
def twinInputs : List Path :=
  [⟨("d/" : Bytes) ++ 0xFE :: (".txt" : Bytes)⟩, ⟨("d/" : Bytes) ++ 0xFF :: (".txt" : Bytes)⟩]

/-- The options of a run over the one directory, with the results in the other. -/
def twinOptions : BatchOptions :=
  ⟨some ⟨"d"⟩, some ⟨"o"⟩, "result", 200, false, none⟩

/-- Both files are inputs. -/
theorem collect_twins : twins.collect ⟨"d"⟩ = .ok twinInputs := by cbv

/-- The output directory is there. -/
theorem makeAll_twins :
    twins.makeAll twinOptions.outputDirectory.ancestors = (.ok (), twins) := by cbv

/-- The results lie in it. -/
theorem ready_twins : twinOptions.Ready twins ["o"] where
  suffix := by decide +kernel
  place := by cbv
  noLinks _ target := FileTree.linkFree_of_entries (by simp [twins]) _ target

/-- The two inputs have one output. -/
theorem outputPath_twins : ∀ input ∈ twinInputs, outputPath input twinOptions.outputDirectory
    twinOptions.suffix = ⟨"o/\uFFFD_result.txt"⟩ := by decide +kernel

/-- Both inputs are evaluated. No result is an input, so each is what it would be by itself. -/
theorem course_twins : twinOptions.course twins twinInputs =
    [(twinInputs[0], .ok (contentOutcome [0x31] 200)),
      (twinInputs[1], .ok (contentOutcome [0x32] 200))] := by
  have hd : twins.resolve true ⟨"d"⟩ = .ok (.occupied ["d"] .directory) := by cbv
  have hnames : (twins.inputNames ["d"]).map (Path.join ⟨"d"⟩) = twinInputs :=
    Except.ok.inj ((FileTree.collect_eq hd (by decide +kernel)).symm.trans collect_twins)
  have hsteady : twinOptions.Steady ["o"] twinInputs twins :=
    hnames ▸ BatchOptions.steady_directory (by decide +kernel) hd
  have hanswer {input : Path} {content : Bytes} (hinput : input ∈ twinInputs)
      (hread : twins.read input = .ok content) :
      (twinOptions.stage twins input).answer = .ok (contentOutcome content 200) := by
    have htarget : twins.target ⟨"o/\uFFFD_result.txt"⟩ =
        .ok ["o", ("\uFFFD_result.txt" : Bytes)] := by cbv
    rw [← outputPath_twins input hinput] at htarget
    exact twinOptions.stage_answer_of_ok hread htarget
  rw [hsteady.course_eq ready_twins (.refl twins) fun _ => id]
  exact congrArg₂ (fun a a' => [(twinInputs[0], a), (twinInputs[1], a')])
    (hanswer (.head _) (by cbv)) (hanswer (.tail _ (.head _)) (by cbv))

/-- The line of the second input is the one that is left. -/
theorem read_twins :
    (twinOptions.filesAfter twins twinInputs).read ⟨"o/\uFFFD_result.txt"⟩ =
      .ok (resultContent (contentOutcome [0x32] 200)) := by
  have hready := ready_twins.filesAfter [twinInputs[0]]
  have hanswer : (twinOptions.stage (twinOptions.filesAfter twins [twinInputs[0]])
      twinInputs[1]).answer = .ok (contentOutcome [0x32] 200) :=
    congrArg (fun c => c.2) (List.cons.inj (List.cons.inj course_twins).2).1
  rw [← outputPath_twins twinInputs[1] (.tail _ (.head _))]
  refine hready.read_result hanswer nofun ?_
  rw [(twinOptions.filesAfter_writes twins _).toKeeps.grants]
  decide +kernel

/-- Both inputs are evaluated and nothing is reported, but the later result has taken the place of
the earlier one. -/
theorem results_meet : ∃ after,
    (runCommand ["--dir", "d", "-o", "o"] none : StateM Ledger Nat) (.ofWorld (.ofFiles twins)) =
      (0, after) ∧
    ((collectInputs ⟨"d"⟩ : StateM World _) (.ofFiles twins)).1 = .ok twinInputs ∧
    (¬ ∀ input ∈ twinInputs, ∀ input' ∈ twinInputs,
      outputPath input ⟨"o"⟩ "result" = outputPath input' ⟨"o"⟩ "result" → input = input') ∧
    after.world.reports.filter Report.isFailure = [] ∧
    ¬ ∀ input ∈ twinInputs, ∃ content, twins.read input = .ok content ∧
      after.world.files.read (outputPath input ⟨"o"⟩ "result") =
        .ok (resultContent (contentOutcome content 200)) := by
  have hwords : Invocation.ofArguments ["--dir", "d", "-o", "o"] = .batch twinOptions := by
    decide +kernel
  obtain ⟨after, hrun, hbooks⟩ := runCommand_books none hwords collect_twins makeAll_twins
  have hfiles : after.world.files = _ := congrArg Books.files hbooks
  have hfailures : after.world.reports.filter Report.isFailure = _ := congrArg Books.failures hbooks
  refine ⟨after, hrun, (collectInputs_answer _ _).trans collect_twins, fun hdistinct => ?_, ?_,
    fun hall => ?_⟩
  · have hsame := (outputPath_twins twinInputs[0] (.head _)).trans
      (outputPath_twins twinInputs[1] (.tail _ (.head _))).symm
    exact absurd (hdistinct _ (.head _) _ (.tail _ (.head _)) hsame) (by decide +kernel)
  · rw [hfailures, twinOptions.failures_stages, course_twins]
    rfl
  · obtain ⟨content, hcontent, hline⟩ := hall twinInputs[0] (.head _)
    have hread : twins.read twinInputs[0] = .ok [0x31] := by cbv
    obtain rfl := Except.ok.inj (hread.symm.trans hcontent)
    rw [show outputPath twinInputs[0] ⟨"o"⟩ "result" = _ from outputPath_twins _ (.head _), hfiles,
      read_twins] at hline
    exact absurd hline (by decide +kernel)

/-! ## Failures that are left out -/

/-- A file and, where its result would be, a directory. -/
def blocked : FileTree :=
  ⟨[], [(["d"], .directory), (["d", "a.txt"], .file [0x31]), (["o"], .directory),
    (["o", "a_result.txt"], .directory)], [], by decide +kernel⟩

/-- The result cannot be written. -/
theorem answer_blocked : (twinOptions.stage blocked ⟨"d/a.txt"⟩).answer =
    .error (.writeOutput ⟨"o/a_result.txt"⟩ .isDirectory) := by cbv

/-- A failure is not reported if the filter of the log leaves it out. -/
theorem failure_left_out : ∃ after,
    (runCommand ["--dir", "d", "-o", "o"] (some "off") : StateM Ledger Nat)
      (.ofWorld (.ofFiles blocked)) = (0, after) ∧
    ((processFile (some (LogFilter.parse "off")) ⟨"d/a.txt"⟩ ⟨"o"⟩ "result" 200 :
      StateM World _) (.ofFiles blocked)).1 =
        .error (.writeOutput ⟨"o/a_result.txt"⟩ .isDirectory) ∧
    after.world.reports.filter Report.isFailure = [] := by
  have hwords : Invocation.ofArguments ["--dir", "d", "-o", "o"] = .batch twinOptions := by
    decide +kernel
  have hcollect : blocked.collect ⟨"d"⟩ = .ok [⟨"d/a.txt"⟩] := by cbv
  have hmake : blocked.makeAll twinOptions.outputDirectory.ancestors = (.ok (), blocked) := by cbv
  obtain ⟨after, hrun, hbooks⟩ := runCommand_books (some "off") hwords hcollect hmake
  have hfailures : after.world.reports.filter Report.isFailure = _ := congrArg Books.failures hbooks
  refine ⟨after, hrun, ?_, ?_⟩
  · refine (processFile_answer _ twinOptions ⟨"d/a.txt"⟩ (.ofFiles blocked)).trans ?_
    rw [map_eq_error_iff]
    exact answer_blocked
  · have hcomplaints : LogFilter.complaints "off" = [] := by decide +kernel
    have hreports : Journal.failureReports (some (LogFilter.parse "off"))
        (.writeOutput ⟨"o/a_result.txt"⟩ .isDirectory) = [] := by decide +kernel
    simp [hfailures, BatchOptions.stages, Stage.failures, answer_blocked, hcomplaints, hreports]

/-- Inputs whose names are no text may have one output, and a filter may leave out a failure. So not
every input ends with its own line in its result or with a report. -/
theorem not_runCommand_directory :
    (∃ after,
      (runCommand ["--dir", "d", "-o", "o"] none : StateM Ledger Nat) (.ofWorld (.ofFiles twins)) =
        (0, after) ∧
      ((collectInputs ⟨"d"⟩ : StateM World _) (.ofFiles twins)).1 = .ok twinInputs ∧
      (¬ ∀ input ∈ twinInputs, ∀ input' ∈ twinInputs,
        outputPath input ⟨"o"⟩ "result" = outputPath input' ⟨"o"⟩ "result" → input = input') ∧
      after.world.reports.filter Report.isFailure = [] ∧
      ¬ ∀ input ∈ twinInputs, ∃ content, twins.read input = .ok content ∧
        after.world.files.read (outputPath input ⟨"o"⟩ "result") =
          .ok (resultContent (contentOutcome content 200))) ∧
    ∃ after,
      (runCommand ["--dir", "d", "-o", "o"] (some "off") : StateM Ledger Nat)
        (.ofWorld (.ofFiles blocked)) = (0, after) ∧
      ((processFile (some (LogFilter.parse "off")) ⟨"d/a.txt"⟩ ⟨"o"⟩ "result" 200 :
        StateM World _) (.ofFiles blocked)).1 =
          .error (.writeOutput ⟨"o/a_result.txt"⟩ .isDirectory) ∧
      after.world.reports.filter Report.isFailure = [] :=
  ⟨results_meet, failure_left_out⟩

end Reckon
