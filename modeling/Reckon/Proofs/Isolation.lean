import Reckon.Proofs.Stages

/-!
# Results among the inputs

The results of a run over a directory may lie in that directory, and have the extension of inputs.
So a result may be written over an input, and if that one has its turn later, it is the result that
is read (`not_runCommand_isolated`). Nothing else comes between the inputs: what is read on a turn
is the line that was written there last, or else what the run found, and so is what a file that was
collected has at the end (`runCommand_isolated`).
-/

namespace Reckon

namespace BatchOptions

variable {o : BatchOptions} {t t' ready : FileTree} {directory : Location} {d : Path} {name : Name}
  {inputs : List Path}

/-! ## One turn -/

/-- A file that was there has the line that was written there last, or else what it had. -/
theorem filesAfter_file {location : Location} {content : Bytes} (hmakes : t.Makes ready)
    (hkeeps : (o.filesAfter ready inputs).Keeps t')
    (hget : t.get? location = some (.file content)) :
    (o.filesAfter ready inputs).get? location = some (.file
      ((t'.lastLine? location ((o.stages ready inputs).flatMap (·.accesses))).getD content)) := by
  rw [filesAfter_get? hkeeps, hmakes.file hget]
  cases FileTree.lastLine? t' location _ <;> rfl

/-- What is read on a turn is the line that was written there last, or else what was there before
the run. -/
theorem read_on_turn (hmakes : t.Makes ready)
    (hd : t.resolve true d = .ok (.occupied directory .directory))
    (hname : name ∈ t.inputNames directory) {before : List Path}
    (hkeeps : (o.filesAfter ready before).Keeps t') {content : Bytes}
    (hread : (o.filesAfter ready before).read (d.join name) = .ok content) :
    t'.LeadsTo (d.join name) (directory ++ [name]) ∧
      ∃ initial, t.read (d.join name) = .ok initial ∧ content =
        (t'.lastLine? (directory ++ [name]) ((o.stages ready before).flatMap (·.accesses))).getD
          initial := by
  have hturn := hmakes.toKeeps.trans (o.filesAfter_writes ready before).toKeeps
  obtain ⟨first, hfirst, hread₀⟩ := FileTree.read_input hd hname (.refl t)
  obtain ⟨now, hnow, hread₁⟩ := FileTree.read_input hd hname hturn
  rw [hread] at hread₁
  cases hreadable : t.readable directory d name with
  | error e =>
    rw [hreadable] at hread₁
    cases hread₁
  | ok _ =>
    rw [hreadable] at hread₀ hread₁
    obtain rfl : content = now := Except.ok.inj hread₁
    constructor
    · exact (hturn.trans hkeeps).leadsTo (FileTree.leadsTo_join hd
        (FileTree.properName_of_mem_inputNames hname) (FileTree.nameable_of_readable hreadable)
        fun target hlink => nomatch hfirst.symm.trans hlink)
    · refine ⟨first, hread₀, ?_⟩
      rw [filesAfter_file hmakes hkeeps hfirst] at hnow
      exact (Entry.file.inj (Option.some.inj hnow)).symm

/-- What is written is the result of what was read just before, on the turn of its input. -/
theorem exists_turn_of_write {earlier later : List Access} {output : Path} {line : Bytes}
    {answer : Except SystemError Unit}
    (h : (o.stages t inputs).flatMap (·.accesses) = earlier ++ .write output line answer :: later) :
    ∃ before input behind content, inputs = before ++ input :: behind ∧
      earlier = (o.stages t before).flatMap (·.accesses) ++ [.read input (.ok content)] ∧
      (o.filesAfter t before).read input = .ok content ∧
      output = outputPath input o.outputDirectory o.suffix ∧
      line = resultContent (contentOutcome content o.maxDepth) := by
  induction inputs generalizing t earlier with
  | nil => simp [stages] at h
  | cons input inputs ih =>
    rw [stages, List.flatMap_cons] at h
    -- a write behind the accesses of this turn is one of a later turn
    have hbehind {rest : List Access} (hearlier : earlier = (o.stage t input).accesses ++ rest)
        (hrest : (o.stages (o.stage t input).after inputs).flatMap (·.accesses) =
          rest ++ .write output line answer :: later) :
        ∃ before later behind content, input :: inputs = before ++ later :: behind ∧
          earlier = (o.stages t before).flatMap (·.accesses) ++ [.read later (.ok content)] ∧
          (o.filesAfter t before).read later = .ok content ∧
          output = outputPath later o.outputDirectory o.suffix ∧
          line = resultContent (contentOutcome content o.maxDepth) := by
      obtain ⟨before, later, behind, content, hinputs, hreads, hread, houtput, hline⟩ := ih hrest
      refine ⟨input :: before, later, behind, content, congrArg (input :: ·) hinputs, ?_, hread,
        houtput, hline⟩
      rw [hearlier, hreads, stages, List.flatMap_cons, List.append_assoc]
    rcases (o.stage t input).accesses_cases with ⟨e, haccesses⟩ |
      ⟨content, answer', hread, haccesses⟩ <;> rw [haccesses] at h hbehind
    · cases earlier with
      | nil => cases (List.cons.inj h).1
      | cons first rest =>
        obtain ⟨rfl, hrest⟩ := List.cons.inj h
        exact hbehind rfl hrest
    · rcases earlier with _ | ⟨first, _ | ⟨second, rest⟩⟩
      · cases (List.cons.inj h).1
      · obtain ⟨rfl, hrest⟩ := List.cons.inj h
        obtain ⟨houtput, rfl, -⟩ := Access.write.inj (List.cons.inj hrest).1
        exact ⟨[], input, inputs, content, rfl, rfl, hread, houtput.symm, rfl⟩
      · obtain ⟨rfl, hrest⟩ := List.cons.inj h
        obtain ⟨rfl, hlater⟩ := List.cons.inj hrest
        exact hbehind rfl hlater

end BatchOptions

/-! ## Runs -/

/-- A run does nothing with files but to make directories, or it goes through its inputs. -/
theorem runCommand_cases {words : List Bytes} {filter? : Option String} {o : BatchOptions}
    {w : World} {status : Nat} {after : Ledger} (hwords : Invocation.ofArguments words = .batch o)
    (hrun : (runCommand words filter? : StateM Ledger Nat) (.ofWorld w) = (status, after)) :
    (after.accesses = [] ∧ w.files.Makes after.world.files) ∨
    ∃ inputs ready, w.files.select o.directory? o.input? = .ok inputs ∧ w.files.Makes ready ∧
      after.world.files = o.filesAfter ready inputs ∧
      after.accesses = (o.stages ready inputs).flatMap (·.accesses) := by
  have hbooks {b : Books} {status : Nat}
      (hrun' : Carries (runBatch (filter?.map LogFilter.parse) o)
        { (Ledger.ofWorld w).books with
          failures := (Ledger.ofWorld w).books.failures ++
            ((filter?.map LogFilter.complaints).getD []).map .line } status b) :
      after.books = b := by
    have hcarries := (Carries.runCommand hwords hrun' (Ledger.ofWorld w) rfl).2
    rwa [hrun] at hcarries
  have hmakes := w.files.makes_makeAll o.outputDirectory.ancestors
  cases hselect : w.files.select o.directory? o.input? with
  | error e =>
    have hafter := hbooks (Carries.runBatch_of_select _ hselect)
    have hfiles : after.world.files = w.files := congrArg Books.files hafter
    exact .inl ⟨congrArg Books.accesses hafter, hfiles ▸ .refl w.files⟩
  | ok inputs =>
    rcases hmake : w.files.makeAll o.outputDirectory.ancestors with ⟨_ | _, ready⟩
    · have hafter := hbooks (Carries.runBatch_of_makeAll _ hselect hmake)
      have hfiles : after.world.files = ready := congrArg Books.files hafter
      rw [hmake] at hmakes
      exact .inl ⟨congrArg Books.accesses hafter, hfiles ▸ hmakes⟩
    · have hafter := hbooks (Carries.runBatch_ok _ hselect hmake)
      rw [hmake] at hmakes
      exact .inr ⟨inputs, ready, rfl, hmakes, congrArg Books.files hafter,
        congrArg Books.accesses hafter⟩

/-- The result of an input is written, as a line, to a location. -/
structure BatchOptions.Stores (o : BatchOptions) (l : Ledger) (input : Path) (line : Bytes)
    (location : Location) : Prop where
  write : .write (outputPath input o.outputDirectory o.suffix) line (.ok ()) ∈ l.accesses
  leadsTo : l.world.files.LeadsTo (outputPath input o.outputDirectory o.suffix) location

section
variable {o : BatchOptions} {d : Path} {t ready : FileTree} {inputs : List Path} {after : Ledger}
  (haccesses : after.accesses = (o.stages ready inputs).flatMap (·.accesses))
include haccesses

/-- The last line at a location, behind some of the inputs, is the result of one of them. -/
theorem BatchOptions.exists_stores {before behind : List Path} {location : Location} {line : Bytes}
    (hinputs : inputs = before ++ behind) (hlast : after.world.files.lastLine? location
      ((o.stages ready before).flatMap (·.accesses)) = some line) :
    ∃ other ∈ before, o.Stores after other line location := by
  obtain ⟨s, hs, hwrite, hleads⟩ := o.of_lastLine?_stages hlast
  have hinput : s.input ∈ before := by
    rw [← o.map_input_stages ready before]
    exact List.mem_map_of_mem hs
  rw [o.output_of_mem_stages hs] at hwrite hleads
  refine ⟨s.input, hinput, ?_, hleads⟩
  rw [haccesses, hinputs, stages_append, List.flatMap_append]
  exact List.mem_append_left _ (List.mem_flatMap.2 ⟨s, hs, hwrite⟩)

variable (hfiles : after.world.files = o.filesAfter ready inputs) (hmakes : t.Makes ready)
  (hcollect : t.collect d = .ok inputs)
include hfiles hmakes hcollect

/-- A line that is written is the result of the line that was written over its input last, or else
of what the input had. -/
theorem BatchOptions.line_of_write {earlier later : List Access} {output : Path} {line : Bytes}
    {answer : Except SystemError Unit}
    (hwrite : after.accesses = earlier ++ .write output line answer :: later) :
    ∃ before input behind location initial, inputs = before ++ input :: behind ∧
      earlier.filterMap Access.readPath? = before ++ [input] ∧
      output = outputPath input o.outputDirectory o.suffix ∧
      t.read input = .ok initial ∧ after.world.files.LeadsTo input location ∧
      line = resultContent (contentOutcome
        ((after.world.files.lastLine? location earlier).getD initial) o.maxDepth) ∧
      ∀ stored, after.world.files.lastLine? location earlier = some stored →
        ∃ other ∈ before, o.Stores after other stored location := by
  rw [haccesses] at hwrite
  obtain ⟨before, input, behind, content, hinputs, hearlier, hread, houtput, hline⟩ :=
    o.exists_turn_of_write hwrite
  rcases FileTree.collect_cases hcollect with ⟨directory, hd, -, hnames⟩ | ⟨hnil, -⟩
  · obtain ⟨name, hname, rfl⟩ : ∃ name ∈ t.inputNames directory, d.join name = input := by
      rw [← List.mem_map, ← hnames, hinputs]
      exact List.mem_append_right _ (List.mem_cons_self ..)
    have hkeeps : (o.filesAfter ready before).Keeps after.world.files := by
      rw [hfiles, hinputs, filesAfter_append]
      exact (o.filesAfter_writes _ _).toKeeps
    obtain ⟨hleads, initial, hinitial, hcontent⟩ := o.read_on_turn hmakes hd hname hkeeps hread
    -- what is read on the turn itself is no line at a location
    have hlast : after.world.files.lastLine? (directory ++ [name]) earlier =
        after.world.files.lastLine? (directory ++ [name])
          ((o.stages ready before).flatMap (·.accesses)) := by
      rw [hearlier, FileTree.lastLine?_append]
      rfl
    refine ⟨before, d.join name, behind, directory ++ [name], initial, hinputs, ?_, houtput,
      hinitial, hleads, ?_, fun stored hstored => ?_⟩
    · rw [hearlier, List.filterMap_append, o.stages_reads]
      rfl
    · rw [hlast, ← hcontent, hline]
    · exact o.exists_stores haccesses hinputs (hlast ▸ hstored)
  · rw [hnil] at hinputs
    simp at hinputs

/-- At the end, an input has the line that was written over it last, or else what it had. -/
theorem BatchOptions.content_of_input {input : Path} (hinput : input ∈ inputs) :
    ∃ directory name content,
      t.resolve true d = .ok (.occupied directory .directory) ∧ input = d.join name ∧
      t.get? (directory ++ [name]) = some (.file content) ∧
      after.world.files.get? (directory ++ [name]) = some (.file
        ((after.world.files.lastLine? (directory ++ [name]) after.accesses).getD content)) ∧
      ∀ stored, after.world.files.lastLine? (directory ++ [name]) after.accesses = some stored →
        ∃ other ∈ inputs, o.Stores after other stored (directory ++ [name]) := by
  rcases FileTree.collect_cases hcollect with ⟨directory, hd, -, hnames⟩ | ⟨hnil, -⟩
  · rw [hnames] at hinput
    obtain ⟨name, hname, rfl⟩ := List.mem_map.1 hinput
    obtain ⟨-, content, hget⟩ := FileTree.mem_inputNames.1 hname
    refine ⟨directory, name, content, hd, rfl, hget, ?_, fun stored hstored => ?_⟩
    · have hkeeps : (o.filesAfter ready inputs).Keeps after.world.files := hfiles ▸ .refl _
      have hlast := filesAfter_file hmakes hkeeps hget
      rwa [← haccesses, ← hfiles] at hlast
    · rw [haccesses] at hstored
      exact o.exists_stores haccesses (List.append_nil inputs).symm hstored
  · rw [hnil] at hinput
    cases hinput

end

/-- What a run over a directory reads and writes: `w` is the world before the run, and `after` is
what it leaves. -/
structure IsolatedRun (o : BatchOptions) (d : Path) (w : World) (after : Ledger) : Prop where
  /-- A line that is written is the result of the line that was written over its input last, which
  is that of an earlier input, or else of what the input had before the run. -/
  lines : ∀ earlier output line answer later,
    after.accesses = earlier ++ .write output line answer :: later →
    ∃ before input behind location initial,
      ((collectInputs d : StateM World _) w).1 = .ok (before ++ input :: behind) ∧
      earlier.filterMap Access.readPath? = before ++ [input] ∧
      output = outputPath input o.outputDirectory o.suffix ∧
      w.files.read input = .ok initial ∧ after.world.files.LeadsTo input location ∧
      line = resultContent (contentOutcome
        ((after.world.files.lastLine? location earlier).getD initial) o.maxDepth) ∧
      ∀ stored, after.world.files.lastLine? location earlier = some stored →
        ∃ other ∈ before, o.Stores after other stored location
  /-- At the end, an input has the line that was written over it last, which is that of an input, or
  else what it had before the run. -/
  inputs : ∀ inputs, ((collectInputs d : StateM World _) w).1 = .ok inputs → ∀ input ∈ inputs,
    ∃ directory name content,
      w.files.resolve true d = .ok (.occupied directory .directory) ∧ input = d.join name ∧
      w.files.get? (directory ++ [name]) = some (.file content) ∧
      after.world.files.get? (directory ++ [name]) = some (.file
        ((after.world.files.lastLine? (directory ++ [name]) after.accesses).getD content)) ∧
      ∀ stored, after.world.files.lastLine? (directory ++ [name]) after.accesses = some stored →
        ∃ other ∈ inputs, o.Stores after other stored (directory ++ [name])

/-- Nothing but results of the run comes between its inputs. -/
theorem runCommand_isolated {words : List Bytes} {filter? : Option String} {o : BatchOptions}
    {d : Path} {w : World} {status : Nat} {after : Ledger}
    (hwords : Invocation.ofArguments words = .batch o) (hdirectory : o.directory? = some d)
    (hrun : (runCommand words filter? : StateM Ledger Nat) (.ofWorld w) = (status, after)) :
    IsolatedRun o d w after := by
  have hanswer := collectInputs_answer d w
  rcases runCommand_cases hwords hrun with ⟨haccesses, hmakes⟩ |
    ⟨inputs, ready, hselect, hmakes, hfiles, haccesses⟩
  · constructor
    · intro earlier output line answer later hwrite
      rw [haccesses] at hwrite
      simp at hwrite
    · intro inputs hcollect input hinput
      rw [hanswer] at hcollect
      rcases FileTree.collect_cases hcollect with ⟨directory, hd, -, rfl⟩ | ⟨rfl, -⟩
      · obtain ⟨name, hname, rfl⟩ := List.mem_map.1 hinput
        obtain ⟨-, content, hget⟩ := FileTree.mem_inputNames.1 hname
        rw [haccesses]
        exact ⟨directory, name, content, hd, rfl, hget, hmakes.file hget, nofun⟩
      · cases hinput
  · have hcollect : w.files.collect d = .ok inputs := by
      rw [hdirectory] at hselect
      exact hselect
    constructor
    · intro earlier output line answer later hwrite
      obtain ⟨before, input, behind, location, initial, hinputs, hrest⟩ :=
        o.line_of_write haccesses hfiles hmakes hcollect hwrite
      exact ⟨before, input, behind, location, initial, by rw [hanswer, hcollect, hinputs], hrest⟩
    · intro inputs' hcollect' input hinput
      obtain rfl := Except.ok.inj (hcollect.symm.trans (hanswer.symm.trans hcollect'))
      exact o.content_of_input haccesses hfiles hmakes hcollect hinput

/-- A run whose results lie among its inputs. -/
theorem runCommand_isolated_overwriting :
    let w : World := .ofFiles ⟨[], [(["d"], .directory), (["d", "x.txt"], .file [0x31]),
      (["d", "x_result.txt"], .file [0x32, 0x2B])], [], by decide +kernel⟩
    ∃ status after,
      (runCommand ["-d", "d", "-o", "d"] none : StateM Ledger Nat) (.ofWorld w) = (status, after) ∧
      IsolatedRun ⟨some ⟨"d"⟩, some ⟨"d"⟩, "result", 200, false, none⟩ ⟨"d"⟩ w after := by
  intro w
  have hwords : Invocation.ofArguments ["-d", "d", "-o", "d"] =
      .batch ⟨some ⟨"d"⟩, some ⟨"d"⟩, "result", 200, false, none⟩ := by decide +kernel
  rcases hrun : (runCommand ["-d", "d", "-o", "d"] none : StateM Ledger Nat) (.ofWorld w) with
    ⟨status, after⟩
  exact ⟨status, after, rfl, runCommand_isolated hwords rfl hrun⟩

/-! ## A result over an input -/

/-- An input that is the output of the one before it is evaluated as the result of that one, and has
that result at the end. -/
theorem BatchOptions.Ready.result_evaluated {o : BatchOptions} {t : FileTree} {place : Location}
    {earlier later : Path} {outcome : Outcome} (h : o.Ready t place)
    (hout : outputPath earlier o.outputDirectory o.suffix = later)
    (hne : outputPath later o.outputDirectory o.suffix ≠ later)
    (hanswer : (o.stage t earlier).answer = .ok outcome)
    (hright : t.grants (place ++ [o.result earlier]) .read) :
    (∃ answer, .write (outputPath later o.outputDirectory o.suffix)
        (resultContent (contentOutcome (resultContent outcome) o.maxDepth)) answer ∈
      (o.stages t [earlier, later]).flatMap (·.accesses)) ∧
    (o.filesAfter t [earlier, later]).read later = .ok (resultContent outcome) := by
  have hafter (behind : List Path) (hlater : ∀ s ∈ o.stages (o.stage t earlier).after behind,
      s.output ≠ later) :
      (o.filesAfter t (earlier :: behind)).read later = .ok (resultContent outcome) := by
    rw [← hout] at hlater ⊢
    exact h.read_result hanswer (fun s hs hsame => absurd hsame (hlater s hs)) hright
  constructor
  · obtain ⟨answer, hwrite⟩ :=
      Stage.write_mem (s := o.stage (o.filesAfter t [earlier]) later) (hafter [] nofun)
    rw [stage_output, stage_maxDepth] at hwrite
    exact ⟨answer, List.mem_flatMap.2
      ⟨_, List.mem_cons_of_mem _ (List.mem_singleton_self _), hwrite⟩⟩
  · refine hafter [later] fun s hs => ?_
    rw [List.mem_singleton.1 hs, stage_output]
    exact hne

/-- A directory in which the second file has the name of the result of the first. -/
def overlap : FileTree :=
  ⟨[], [(["d"], .directory), (["d", "x.txt"], .file [0x31]),
    (["d", "x_result.txt"], .file [0x32, 0x2B])], [], by decide +kernel⟩

/-- The options of a run over the directory, with the results in it. -/
def overlapOptions : BatchOptions :=
  ⟨some ⟨"d"⟩, some ⟨"d"⟩, "result", 200, true, none⟩

/-- Both files are inputs. -/
theorem collect_overlap : overlap.collect ⟨"d"⟩ = .ok [⟨"d/x.txt"⟩, ⟨"d/x_result.txt"⟩] := by cbv

/-- The output directory is there. -/
theorem makeAll_overlap :
    overlap.makeAll overlapOptions.outputDirectory.ancestors = (.ok (), overlap) := by cbv

/-- The results lie in the directory. -/
theorem ready_overlap : overlapOptions.Ready overlap ["d"] where
  suffix := by decide +kernel
  place := by cbv
  noLinks _ target := FileTree.linkFree_of_entries (by simp [overlap]) _ target

/-- The output of the first file is the second one. -/
theorem outputPath_overlap : outputPath ⟨"d/x.txt"⟩ overlapOptions.outputDirectory
    overlapOptions.suffix = ⟨"d/x_result.txt"⟩ := by decide +kernel

/-- On its turn, the first file is evaluated. -/
theorem answer_overlap : (overlapOptions.stage overlap ⟨"d/x.txt"⟩).answer =
    .ok (contentOutcome [0x31] overlapOptions.maxDepth) := by
  have hread : overlap.read ⟨"d/x.txt"⟩ = .ok [0x31] := by cbv
  have htarget : overlap.target ⟨"d/x_result.txt"⟩ = .ok ["d", "x_result.txt"] := by cbv
  rw [← outputPath_overlap] at htarget
  exact overlapOptions.stage_answer_of_ok hread htarget

/-- A result that is written over an input of the run is read in its place, and stays there. -/
theorem not_runCommand_isolated :
    let inputs : List Path := [⟨"d/x.txt"⟩, ⟨"d/x_result.txt"⟩]
    ∃ after,
      (runCommand ["-p", "-o", "d", "--dir", "d"] none : StateM Ledger Nat)
        (.ofWorld (.ofFiles overlap)) = (0, after) ∧
      ((collectInputs ⟨"d"⟩ : StateM World _) (.ofFiles overlap)).1 = .ok inputs ∧
      (¬ ∀ output line answer, .write output line answer ∈ after.accesses →
        ∃ input ∈ inputs, ∃ content, overlap.read input = .ok content ∧
          output = outputPath input ⟨"d"⟩ "result" ∧
          line = resultContent (contentOutcome content 200)) ∧
      ¬ ∀ input ∈ inputs, after.world.files.read input = overlap.read input := by
  intro inputs
  have hwords : Invocation.ofArguments ["-p", "-o", "d", "--dir", "d"] = .batch overlapOptions := by
    decide +kernel
  obtain ⟨after, hrun, hbooks⟩ :=
    runCommand_books none hwords collect_overlap makeAll_overlap
  have hfiles : after.world.files = _ := congrArg Books.files hbooks
  have haccesses : after.accesses = _ := congrArg Books.accesses hbooks
  have hread : overlap.read ⟨"d/x_result.txt"⟩ = .ok [0x32, 0x2B] := by cbv
  obtain ⟨⟨answer, hwrite⟩, hlast⟩ := ready_overlap.result_evaluated outputPath_overlap
    (by decide +kernel) answer_overlap (by decide +kernel)
  refine ⟨after, hrun, (collectInputs_answer _ _).trans collect_overlap, fun hall => ?_,
    fun hall => ?_⟩
  · obtain ⟨input, hinput, content, hcontent, houtput, hline⟩ :=
      hall _ _ answer (by rw [haccesses]; exact hwrite)
    simp only [inputs, List.mem_cons, List.not_mem_nil, or_false] at hinput
    rcases hinput with rfl | rfl
    · exact absurd houtput (by decide +kernel)
    · obtain rfl := Except.ok.inj (hread.symm.trans hcontent)
      exact absurd hline (by decide +kernel)
  · have hsame := hall ⟨"d/x_result.txt"⟩ (by simp [inputs])
    rw [hfiles, hread] at hsame
    exact absurd (Except.ok.inj (hsame.symm.trans hlast)) (by decide +kernel)

end Reckon
