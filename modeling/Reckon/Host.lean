import Reckon.Files.Tree
import Reckon.Log.Record

/-!
# What a run works with

`Host` is what the batch work asks of its surroundings: files, a stream of output, and a stream of
reports, some of which are records of the log. A `World` is a surrounding that is a value, a file
tree with what was written so far, and `StateM World` does all the work on it.
-/

namespace Reckon

/-- Surroundings that hold files and take lines of text and log records. -/
class Host (m : Type → Type) where
  /-- The content of a file. -/
  readFile : Path → m (Except SystemError Bytes)
  /-- Puts a content into a file. -/
  writeFile : Path → Bytes → m (Except SystemError Unit)
  /-- Makes a directory inside of one that exists. -/
  createDirectory : Path → m (Except SystemError Unit)
  /-- Whether a path leads to a directory. -/
  isDirectory : Path → m Bool
  /-- What is directly inside of a directory. -/
  list : Path → m (Except SystemError (List DirectoryEntry))
  /-- Writes a line of output. -/
  print : String → m Unit
  /-- Writes a line about the run itself. -/
  report : String → m Unit
  /-- Writes a record of the log. -/
  log : LogRecord → m Unit

/-- Something written about a run itself. -/
inductive Report where
  | line (text : String)
  | record (r : LogRecord)
  deriving DecidableEq, Repr

/-- A report as text. -/
def Report.text : Report → String
  | .line text => text
  | .record r => r.line

/-- A file tree and what was written so far. -/
structure World where
  files : FileTree
  /-- The lines of output, in order. -/
  output : List String
  /-- The reports about the run itself, in order. -/
  reports : List Report

/-- A world with files in which nothing was written yet. -/
def World.ofFiles (files : FileTree) : World := ⟨files, [], []⟩

instance : Host (StateM World) where
  readFile p := fun w => (w.files.read p, w)
  writeFile p content := fun w =>
    match w.files.write p content with
    | .ok files => (.ok (), { w with files })
    | .error e => (.error e, w)
  createDirectory p := fun w =>
    match w.files.createDirectory p with
    | .ok files => (.ok (), { w with files })
    | .error e => (.error e, w)
  isDirectory p := fun w => (w.files.isDirectory p, w)
  list p := fun w => (w.files.list p, w)
  print line := fun w => ((), { w with output := w.output ++ [line] })
  report line := fun w => ((), { w with reports := w.reports ++ [.line line] })
  log r := fun w => ((), { w with reports := w.reports ++ [.record r] })

end Reckon
