import Reckon.CommandLine

/-!
# A run with its books

A `Ledger` is a world in which every file that is read or written is entered together with what
came of it. It is a host as well, so all the work can be done on it, and doing it there is the same
as doing it on the world alone (`Erases.runCommand`): nothing that a run does depends on what is
entered.
-/

namespace Reckon

/-- A file that was read or written, and what came of it. -/
inductive Access where
  | read (path : Path) (answer : Except SystemError Bytes)
  | write (path : Path) (content : Bytes) (answer : Except SystemError Unit)

/-- The path of a file that was read. -/
def Access.readPath? : Access → Option Path
  | .read p _ => some p
  | .write _ _ _ => none

/-- A world with all files that were read or written, in order. -/
structure Ledger where
  world : World
  accesses : List Access

namespace Ledger

/-- A world in which no file was read or written yet. -/
def ofWorld (w : World) : Ledger := ⟨w, []⟩

/-- Work that neither reads nor writes a file. -/
def onWorld {α : Type} (x : StateM World α) : StateM Ledger α := fun l =>
  ((x l.world).1, ⟨(x l.world).2, l.accesses⟩)

/-- Work on a file, with its entry. -/
def entering {α : Type} (x : StateM World α) (entry : α → Access) : StateM Ledger α := fun l =>
  ((x l.world).1, ⟨(x l.world).2, l.accesses ++ [entry (x l.world).1]⟩)

end Ledger

instance : Host (StateM Ledger) where
  readFile p := Ledger.entering (Host.readFile p) (.read p)
  writeFile p content := Ledger.entering (Host.writeFile p content) (.write p content)
  createDirectory p := Ledger.onWorld (Host.createDirectory p)
  isDirectory p := Ledger.onWorld (Host.isDirectory p)
  list p := Ledger.onWorld (Host.list p)
  print line := Ledger.onWorld (Host.print line)
  report line := Ledger.onWorld (Host.report line)
  log r := Ledger.onWorld (Host.log r)

/-- Work on a ledger is the work on its world, with entries. -/
def Erases {α : Type} (x : StateM Ledger α) (y : StateM World α) : Prop :=
  ∀ l, y l.world = ((x l).1, (x l).2.world)

namespace Erases

variable {α β : Type} {x : StateM Ledger α} {y : StateM World α}

/-- Nothing is entered for nothing. -/
theorem pure (a : α) : Erases (Pure.pure a) (Pure.pure a) :=
  fun _ => rfl

/-- Entries of one piece of work and of the next change neither of them. -/
theorem bind {f : α → StateM Ledger β} {g : α → StateM World β} (h : Erases x y)
    (hf : ∀ a, Erases (f a) (g a)) : Erases (x >>= f) (y >>= g) := by
  intro l
  show g (y l.world).1 (y l.world).2 = _
  rw [h l]
  exact hf _ _

/-- Work that reads and writes no file is entered nowhere. -/
theorem onWorld (y : StateM World α) : Erases (Ledger.onWorld y) y :=
  fun _ => rfl

/-- An entry does not change the work. -/
theorem entering (y : StateM World α) (entry : α → Access) : Erases (Ledger.entering y entry) y :=
  fun _ => rfl

/-- Entries do not change work that is repeated. -/
theorem forM {f : β → StateM Ledger Unit} {g : β → StateM World Unit}
    (h : ∀ b, Erases (f b) (g b)) (items : List β) : Erases (items.forM f) (items.forM g) := by
  induction items with
  | nil => exact .pure ()
  | cons item items ih => exact .bind (h item) fun _ => ih

/-- Entries do not change what goes to the log. -/
theorem note (journal : Journal) (r : LogRecord) : Erases (journal.note r) (journal.note r) := by
  unfold Journal.note
  split
  · split
    · exact .onWorld _
    · exact .pure ()
  · exact .pure ()

/-- Entries do not change how a failure is reported. -/
theorem fail (journal : Journal) (e : FileError) : Erases (journal.fail e) (journal.fail e) := by
  unfold Journal.fail
  split
  · exact .note _ _
  · exact .onWorld _

/-- Entries do not change which directories are made. -/
theorem createDirectories (paths : List Path) :
    Erases (Reckon.createDirectories paths) (Reckon.createDirectories paths) := by
  induction paths with
  | nil => exact .pure _
  | cons p above ih =>
    refine .bind (.onWorld _) fun answer => ?_
    split
    · exact .pure _
    · refine .bind ih fun answer => ?_
      split
      · exact .pure _
      · refine .bind (.onWorld _) fun answer => ?_
        split
        · exact .pure _
        · exact .bind (.onWorld _) fun _ => .pure _
    · exact .bind (.onWorld _) fun _ => .pure _

/-- Entries do not change whether the output directory is made. -/
theorem ensureDirectory (directory : Path) :
    Erases (Reckon.ensureDirectory directory) (Reckon.ensureDirectory directory) := by
  refine .bind (.createDirectories _) fun answer => ?_
  split <;> exact .pure _

/-- Entries do not change which inputs are selected. -/
theorem selectInputs (directory? input? : Option Path) :
    Erases (Reckon.selectInputs directory? input?) (Reckon.selectInputs directory? input?) := by
  unfold Reckon.selectInputs
  split
  · refine .bind (.onWorld _) fun answer => ?_
    split <;> exact .pure _
  · exact .pure _
  · exact .pure _

/-- Entries do not change what a file is evaluated to. -/
theorem evaluateFile (journal : Journal) (input : Path) (maxDepth : Nat) :
    Erases (Reckon.evaluateFile journal input maxDepth)
      (Reckon.evaluateFile journal input maxDepth) := by
  refine .bind (.entering _ (.read input)) fun answer => ?_
  split
  · exact .pure _
  · refine .bind (.forM (fun _ => .note _ _) _) fun _ => ?_
    exact .bind (.note _ _) fun _ => .pure _

/-- Entries do not change how a file is processed. -/
theorem processFile (journal : Journal) (input directory : Path) (suffix : String)
    (maxDepth : Nat) : Erases (Reckon.processFile journal input directory suffix maxDepth)
      (Reckon.processFile journal input directory suffix maxDepth) := by
  refine .bind (.evaluateFile _ _ _) fun answer => ?_
  split
  · exact .pure _
  · refine .bind (.entering _ (.write _ _)) fun answer => ?_
    split
    · exact .pure _
    · exact .bind (.note _ _) fun _ => .pure _

/-- Entries do not change what is done for an input. -/
theorem runInput (journal : Journal) (o : BatchOptions) (directory input : Path) :
    Erases (Reckon.runInput journal o directory input)
      (Reckon.runInput journal o directory input) := by
  refine .bind (.processFile _ _ _ _ _) fun answer => ?_
  split
  · exact .fail _ _
  · next processed =>
    have hprint : Erases
        (if o.print then Host.print (summaryLine input processed.outcome) else Pure.pure ())
        (if o.print then Host.print (summaryLine input processed.outcome) else Pure.pure ()) := by
      split
      · exact .onWorld _
      · exact .pure ()
    dsimp only
    split
    · exact .bind (.note _ _) fun _ => hprint
    · exact hprint

/-- Entries do not change what a run does. -/
theorem runBatch (journal : Journal) (o : BatchOptions) :
    Erases (Reckon.runBatch journal o) (Reckon.runBatch journal o) := by
  refine .bind (.selectInputs _ _) fun answer => ?_
  split
  · exact .bind (.fail _ _) fun _ => .pure _
  · refine .bind (.ensureDirectory _) fun answer => ?_
    split
    · exact .bind (.fail _ _) fun _ => .pure _
    · refine .bind (.note _ _) fun _ => ?_
      exact .bind (.forM (fun _ => .runInput _ _ _ _) _) fun _ => .pure _

/-- A run on a ledger is the run on its world. -/
theorem runCommand (words : List Bytes) (filter? : Option String) :
    Erases (Reckon.runCommand words filter?) (Reckon.runCommand words filter?) := by
  refine .bind (.forM (fun _ => .onWorld _) _) fun _ => ?_
  unfold Invocation.execute
  split
  · exact .runBatch _ _
  · exact .bind (.onWorld _) fun _ => .pure _
  · exact .bind (.forM (fun _ => .onWorld _) _) fun _ => .pure _
  · exact .bind (.onWorld _) fun _ => .pure _

end Erases

end Reckon
