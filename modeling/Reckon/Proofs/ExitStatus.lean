import Reckon.Proofs.DirectoryRun
import Reckon.Proofs.Rerun

/-!
# The exit status

A run fails as a whole in three cases: nothing was given to work on, the directory that was given
leads to nothing or may not be read, or the output directory cannot be made
(`BatchOptions.effect_status`). In the first two it fails before anything is done, and only reports
the failure (`runBatch_of_select_error`). `runCommand_status` puts this together for a command line.

A directory that leads to a file is not among the cases. Nothing is inside of a file, so the run
works on no inputs and succeeds (`not_status_of_directory`).
-/

namespace Reckon

/-! ## What is given -/

namespace FileTree

variable {t : FileTree} {p : Path}

/-- What a path leads to can be listed unless it is nothing, or a directory that may not be read. -/
theorem list_eq_error_iff : (∃ cause, t.list p = .error cause) ↔
    (∀ location entry, t.resolve true p ≠ .ok (.occupied location entry)) ∨
      ∃ location, t.resolve true p = .ok (.occupied location .directory) ∧
        ¬ t.grants location .read := by
  unfold list
  rcases hresolve : t.resolve true p with cause | (⟨location, entry⟩ | location)
  · exact iff_of_true ⟨cause, rfl⟩ (.inl nofun)
  · have hsome : ¬ ∀ place entry',
        (.ok (.occupied location entry) : Except SystemError Place) ≠
          .ok (.occupied place entry') :=
      fun h => h location entry rfl
    cases entry with
    | directory =>
      show (∃ cause, (if t.grants location .read then _ else _) = _) ↔ _
      by_cases hread : t.grants location .read
      · rw [if_pos hread]
        refine iff_of_false nofun (not_or.2 ⟨hsome, ?_⟩)
        rintro ⟨_, ⟨⟩, hnone⟩
        exact hnone hread
      · rw [if_neg hread]
        exact iff_of_true ⟨.denied, rfl⟩ (.inr ⟨location, rfl, hread⟩)
    | file | link => exact iff_of_false nofun (not_or.2 ⟨hsome, by simp⟩)
  · exact iff_of_true ⟨.notFound, rfl⟩ (.inl nofun)

/-- Where a directory can be made, those above it are not asked for. -/
theorem makeAll_of_createDirectory {t' : FileTree} (h : t.createDirectory p = .ok t')
    (above : List Path) : t.makeAll (p :: above) = (.ok (), t') := by
  have hnone : t.createDirectory p ≠ .error .notFound := by
    rw [h]
    rintro ⟨⟩
  rw [makeAll, if_neg hnone, make, h]

end FileTree

/-- What comes of making a directory is what comes of making it and those above it in the files. -/
theorem ensureDirectory_makeAll (directory : Path) (w : World) :
    let run := (ensureDirectory directory : StateM World _) w
    let made := w.files.makeAll directory.ancestors
    run.1 = made.1.mapError (.createDirectory directory) ∧ run.2.files = made.2 := by
  intro run made
  rcases hmake : made with ⟨cause | _, t⟩
  · have hworld := (Carries.ensureDirectory_error (b := (Ledger.ofWorld w).books) hmake).world
      (.ensureDirectory directory) rfl
    exact ⟨hworld.1, hworld.2.1⟩
  · have hworld := (Carries.ensureDirectory_ok (b := (Ledger.ofWorld w).books) hmake).world
      (.ensureDirectory directory) rfl
    exact ⟨hworld.1, hworld.2.1⟩

namespace BatchOptions

/-- Neither a directory nor an input is given. -/
def GivesNothing (o : BatchOptions) : Prop :=
  o.directory? = none ∧ o.input? = none

/-- A directory is given that leads to nothing, or to a directory that may not be read. -/
def CannotList (o : BatchOptions) (t : FileTree) : Prop :=
  ∃ d, o.directory? = some d ∧
    ((∀ location entry, t.resolve true d ≠ .ok (.occupied location entry)) ∨
      ∃ location, t.resolve true d = .ok (.occupied location .directory) ∧
        ¬ t.grants location .read)

/-- The output directory cannot be made. -/
def LacksOutput (o : BatchOptions) (t : FileTree) : Prop :=
  ∃ e, ((ensureDirectory o.outputDirectory : StateM World _) (.ofFiles t)).1 = .error e

variable {o : BatchOptions} {t : FileTree}

/-- Inputs cannot be selected if nothing is given, or a directory that cannot be listed. -/
theorem select_eq_error_iff {e : FileError} : t.select o.directory? o.input? = .error e ↔
    o.GivesNothing ∧ e = .noInput ∨
      ∃ d cause, o.directory? = some d ∧ t.list d = .error cause ∧ e = .listDirectory d cause := by
  unfold GivesNothing
  cases o.directory? with
  | none => cases o.input? <;> simp [FileTree.select, eq_comm]
  | some d =>
    cases hlist : t.list d with
    | ok entries => simp [FileTree.select, FileTree.collect, hlist]
    | error cause => simp [FileTree.select, FileTree.collect, hlist, eq_comm]

/-- Inputs are selected unless nothing is given that can be listed. -/
theorem exists_select_eq_error_iff :
    (∃ e, t.select o.directory? o.input? = .error e) ↔ o.GivesNothing ∨ o.CannotList t := by
  simp only [select_eq_error_iff, CannotList, ← FileTree.list_eq_error_iff]
  constructor
  · rintro ⟨e, ⟨hnothing, -⟩ | ⟨d, cause, hd, hlist, -⟩⟩
    · exact .inl hnothing
    · exact .inr ⟨d, hd, cause, hlist⟩
  · rintro (hnothing | ⟨d, hd, cause, hlist⟩)
    · exact ⟨_, .inl ⟨hnothing, rfl⟩⟩
    · exact ⟨_, .inr ⟨d, cause, hd, hlist, rfl⟩⟩

/-- The output directory is lacking exactly if it cannot be made. -/
theorem lacksOutput_iff :
    o.LacksOutput t ↔ ∃ e t', t.makeAll o.outputDirectory.ancestors = (.error e, t') := by
  rw [LacksOutput, (ensureDirectory_makeAll _ _).1, World.ofFiles]
  rcases t.makeAll o.outputDirectory.ancestors with ⟨cause | _, t'⟩
  · exact iff_of_true ⟨_, rfl⟩ ⟨cause, t', rfl⟩
  · refine iff_of_false ?_ ?_
    · rintro ⟨e, ⟨⟩⟩
    · rintro ⟨e, t', ⟨⟩⟩

/-- Where the output directory cannot be made, it is none behind the attempt, and only there. -/
theorem lacksOutput_iff_not_isDirectory (h : o.outputDirectory.bytes ≠ []) :
    o.LacksOutput t ↔ ¬ ((ensureDirectory o.outputDirectory : StateM World _)
      (.ofFiles t)).2.files.isDirectory o.outputDirectory := by
  have hchain := Path.isChain_ancestors o.outputDirectory
  rw [lacksOutput_iff, (ensureDirectory_makeAll _ _).2, World.ofFiles]
  rw [Path.ancestors_eq h] at hchain ⊢
  dsimp only
  rcases hmake : t.makeAll _ with ⟨cause | _, t'⟩
  · exact iff_of_true ⟨cause, t', rfl⟩ (FileTree.not_isDirectory_of_makeAll hchain hmake).1
  · refine iff_of_false ?_ (not_not_intro (FileTree.isDirectory_of_makeAll hmake))
    rintro ⟨e, t', ⟨⟩⟩

/-- The status of a run is one or zero, and one in three cases. -/
theorem effect_status (o : BatchOptions) (t : FileTree) :
    ((o.effect t).1 = 1 ↔ o.GivesNothing ∨ o.CannotList t ∨ o.LacksOutput t) ∧
      ((o.effect t).1 = 0 ↔ ¬ (o.GivesNothing ∨ o.CannotList t ∨ o.LacksOutput t)) := by
  rw [← or_assoc, ← exists_select_eq_error_iff, lacksOutput_iff]
  unfold effect
  cases hselect : t.select o.directory? o.input? with
  | error e => simp
  | ok inputs => rcases hmake : t.makeAll o.outputDirectory.ancestors with ⟨_ | _, t'⟩ <;> simp

end BatchOptions

/-! ## Failing before anything is done -/

/-- Behind an action, the next one goes on with the world that it leaves. -/
theorem bind_world {α β : Type} {x : StateM World α} {f : α → StateM World β} {a : α}
    {w w' : World} (h : x w = (a, w')) : (x >>= f) w = f a w' := by
  show f (x w).1 (x w).2 = _
  rw [h]

/-- Reporting lines puts them behind what was reported. -/
theorem report_lines (lines : List String) (w : World) :
    (lines.forM Host.report : StateM World Unit) w =
      ((), { w with reports := w.reports ++ lines.map .line }) := by
  induction lines generalizing w with
  | nil => simp [List.forM_nil, pure, StateT.pure]
  | cons line lines ih =>
    show (lines.forM Host.report : StateM World Unit)
      { w with reports := w.reports ++ [.line line] } = _
    rw [ih, List.append_assoc]
    rfl

/-- A failure is reported, and nothing else is done. -/
theorem Journal.fail_eq (journal : Journal) (e : FileError) (w : World) :
    (journal.fail e : StateM World Unit) w =
      ((), { w with reports := w.reports ++ journal.failureReports e }) := by
  unfold Journal.fail Journal.failureReports
  split
  · unfold Journal.note
    dsimp only
    split
    · rfl
    · rw [List.append_nil]
      rfl
  · rfl

/-- Inputs are selected from the files, which stay as they are. -/
theorem selectInputs_eq (directory? input? : Option Path) (w : World) :
    (selectInputs directory? input? : StateM World _) w =
      (w.files.select directory? input?, w) := by
  rcases directory? with _ | directory
  · cases input? <;> rfl
  · have hlist : (Host.list directory : StateM World _) w = (w.files.list directory, w) := rfl
    refine (bind_world hlist).trans ?_
    show _ = (w.files.collect directory, w)
    unfold FileTree.collect
    cases w.files.list directory <;> rfl

section
variable {o : BatchOptions} {e : FileError}

/-- Where no inputs can be selected, the failure is reported, and nothing else is done. -/
theorem runBatch_of_select_error (journal : Journal) {w : World}
    (h : w.files.select o.directory? o.input? = .error e) :
    (runBatch journal o : StateM World Nat) w =
      (1, { w with reports := w.reports ++ journal.failureReports e }) := by
  have hselect := selectInputs_eq o.directory? o.input? w
  rw [h] at hselect
  exact (bind_world hselect).trans (bind_world (journal.fail_eq e w))

/-- If no inputs can be selected, the run reports that and nothing else. -/
theorem runCommand_of_select_error {words : List Bytes} (filter? : Option String) {t : FileTree}
    (hwords : Invocation.ofArguments words = .batch o)
    (h : t.select o.directory? o.input? = .error e) :
    (runCommand words filter? : StateM World Nat) (.ofFiles t) =
      (1, ⟨t, [], ((filter?.map LogFilter.complaints).getD []).map .line ++
        Journal.failureReports (filter?.map LogFilter.parse) e⟩) := by
  refine (bind_world (report_lines _ _)).trans ?_
  rw [hwords]
  exact runBatch_of_select_error _ h

end

/-! ## A command line -/

/-- The exit status is one exactly if nothing is given to work on, or the directory that is given
leads to nothing or may not be read, or the output directory cannot be made, and else it is zero. In
the first two cases nothing is written, no file is changed, and the one failure is reported. -/
theorem runCommand_status {words : List Bytes} (filter? : Option String) {o : BatchOptions}
    (t : FileTree) (hwords : Invocation.ofArguments words = .batch o) :
    let run := (runCommand words filter? : StateM World Nat) (.ofFiles t)
    (run.1 = 1 ↔ o.GivesNothing ∨ o.CannotList t ∨ o.LacksOutput t) ∧
    (run.1 = 0 ↔ ¬ (o.GivesNothing ∨ o.CannotList t ∨ o.LacksOutput t)) ∧
    (o.LacksOutput t ↔ ¬ ((ensureDirectory o.outputDirectory : StateM World _)
      (.ofFiles t)).2.files.isDirectory o.outputDirectory) ∧
    (o.GivesNothing ∨ o.CannotList t → run.2.output = [] ∧ run.2.files = t ∧
      ∃ e, run.2.reports = ((filter?.map LogFilter.complaints).getD []).map .line ++
          Journal.failureReports (filter?.map LogFilter.parse) e ∧
        (filter? = none → run.2.reports = [.line e.message]) ∧
        (o.GivesNothing ∧ e = .noInput ∨ ∃ d cause, o.directory? = some d ∧
          t.list d = .error cause ∧ e = .listDirectory d cause)) := by
  intro run
  have hstatus : run.1 = (o.effect t).1 := (BatchOptions.runCommand_effect filter? hwords t).1
  rw [hstatus]
  refine ⟨(o.effect_status t).1, (o.effect_status t).2,
    BatchOptions.lacksOutput_iff_not_isDirectory (Invocation.outputDirectory_ne_nil hwords),
    fun hnothing => ?_⟩
  obtain ⟨e, hselect⟩ := BatchOptions.exists_select_eq_error_iff.2 hnothing
  have hrun : run = _ := runCommand_of_select_error filter? hwords hselect
  rw [hrun]
  refine ⟨rfl, rfl, e, rfl, ?_, BatchOptions.select_eq_error_iff.1 hselect⟩
  rintro rfl
  rfl

/-- A directory that is missing. -/
theorem runCommand_status_missing_directory :
    let run := (runCommand ["--dir", "d"] none : StateM World Nat) (.ofFiles .empty)
    run.1 = 1 ∧ run.2.reports = [.line ("Cannot list directory d: " ++
      "IO error for operation on d: No such file or directory (os error 2)")] := by
  intro run
  have hwords : Invocation.ofArguments ["--dir", "d"] =
      .batch ⟨some ⟨"d"⟩, none, "result", 200, false, none⟩ := by decide +kernel
  have hresolve : FileTree.empty.resolve true ⟨"d"⟩ = .ok (.vacant ["d"]) := by cbv
  have hnowhere :
      BatchOptions.CannotList ⟨some ⟨"d"⟩, none, "result", 200, false, none⟩ .empty := by
    refine ⟨⟨"d"⟩, rfl, .inl fun location entry h => ?_⟩
    cases hresolve.symm.trans h
  obtain ⟨hone, -, -, hfails⟩ := runCommand_status none .empty hwords
  obtain ⟨-, -, e, -, hreports, ⟨⟨hnothing, -⟩, -⟩ | ⟨d, cause, hd, hlist, rfl⟩⟩ :=
    hfails (.inr hnowhere)
  · cases hnothing
  · cases hd
    have hcause : FileTree.empty.list ⟨"d"⟩ = .error .notFound := by
      unfold FileTree.list
      rw [hresolve]
      rfl
    cases hcause.symm.trans hlist
    refine ⟨hone.2 (.inr (.inl hnowhere)), (hreports rfl).trans ?_⟩
    decide +kernel

/-- A directory that leads to a file is no failure: the run works on no inputs, and succeeds. -/
theorem not_status_of_directory :
    let t : FileTree := ⟨[], [(["f.txt"], .file [0x31])], [], by decide +kernel⟩
    let o : BatchOptions := ⟨some ⟨"f.txt"⟩, none, "result", 200, false, none⟩
    let run := (runCommand ["--dir", "f.txt"] none : StateM World Nat) (.ofFiles t)
    Invocation.ofArguments ["--dir", "f.txt"] = .batch o ∧ ¬ t.isDirectory ⟨"f.txt"⟩ ∧
      run.1 = 0 ∧ run.2.output = [] ∧ run.2.files = t.put ["results_result"] .directory ∧
      ¬ (run.1 = 1 ↔ o.GivesNothing ∨ (∃ d, o.directory? = some d ∧ ¬ t.isDirectory d) ∨
        o.LacksOutput t) := by
  intro t o run
  have hwords : Invocation.ofArguments ["--dir", "f.txt"] = .batch o := by decide +kernel
  have hresolve : t.resolve true ⟨"f.txt"⟩ = .ok (.occupied ["f.txt"] (.file [0x31])) := by cbv
  have hfile : ¬ t.isDirectory ⟨"f.txt"⟩ := by
    rw [FileTree.isDirectory_iff, hresolve]
    rintro ⟨directory, ⟨⟩⟩
  have hmake : t.makeAll o.outputDirectory.ancestors =
      (.ok (), t.put ["results_result"] .directory) := by
    have houtput : o.outputDirectory = ⟨"results_result"⟩ := by decide +kernel
    have hcreate : t.createDirectory ⟨"results_result"⟩ =
        .ok (t.put ["results_result"] .directory) := by cbv
    rw [houtput, Path.ancestors_eq (by decide +kernel),
      FileTree.makeAll_of_createDirectory hcreate]
  have heffect := BatchOptions.effect_of_ok (o := o) (FileTree.collect_eq_nil hresolve) hmake
  obtain ⟨hstatus, hfiles, houtput⟩ := BatchOptions.runCommand_effect none hwords t
  rw [heffect] at hstatus hfiles houtput
  refine ⟨hwords, hfile, hstatus, houtput, hfiles, fun hiff => ?_⟩
  have hone : run.1 = 1 := hiff.2 (.inr (.inl ⟨_, rfl, hfile⟩))
  cases hstatus.symm.trans hone

end Reckon
