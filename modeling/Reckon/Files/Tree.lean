import Reckon.Files.Entries
import Reckon.Files.SystemError

/-!
# File trees

A `FileTree` holds files, directories and symbolic links, each at its `Location` below the root, and
one directory of it is the working directory. Rights may be withheld from whoever works with it.
`FileTree.resolve` follows a path to a location, and `FileTree.read`, `FileTree.write`,
`FileTree.createDirectory` and `FileTree.list` are what a program does with paths. Nothing but the
file at the resolved location changes in a write.
-/

namespace Reckon

/-- Everything below the root, the working directory, and the rights that are withheld. -/
structure FileTree where
  home : Location
  entries : List (Location × Entry)
  withheld : List (Location × Right)
  wellFormed : WellFormed home entries withheld
  deriving DecidableEq, Repr

/-- Where a path leads. -/
inductive Place where
  /-- Something is there. -/
  | occupied (location : Location) (entry : Entry)
  /-- The last name is not there, but the directory that would hold it is. -/
  | vacant (location : Location)
  deriving DecidableEq, Repr

/-- Where a place is. -/
def Place.location : Place → Location
  | .occupied location _ => location
  | .vacant location => location

/-- A thing directly inside of a directory. -/
structure DirectoryEntry where
  name : Name
  isFile : Bool
  deriving DecidableEq, Repr

/-- The greatest number of bytes of one name. -/
def maxNameBytes : Nat := 255

/-- The number of bytes from which on a path is too long. -/
def maxPathBytes : Nat := 4096

/-- The number of symbolic links that one path may go through. -/
def maxLinks : Nat := 40

/-- The names that a path goes through; behind a slash at the end comes the empty name, and the path
has to lead to a directory. -/
def Path.steps (p : Path) : List Name :=
  if p.endsInSlash then p.names ++ [[]] else p.names

namespace FileTree

/-- The tree with nothing in it but the root. -/
def empty : FileTree := ⟨[], [], [], by decide⟩

/-- What is at a location. -/
def get? (t : FileTree) (location : Location) : Option Entry :=
  entryAt t.entries location

/-- Whether something may be done with what is at a location. -/
def grants (t : FileTree) (location : Location) (right : Right) : Bool :=
  !t.withheld.contains (location, right)

/-- The tree with something put at a location; where it cannot be, nothing changes. -/
def put (t : FileTree) (location : Location) (entry : Entry) : FileTree :=
  if h : Admits t.entries location entry then
    ⟨t.home, putEntry location entry t.entries, t.withheld, t.wellFormed.put h⟩
  else t

/-- The tree with another working directory, if there is one at the location. -/
def enter (t : FileTree) (location : Location) : FileTree :=
  if h : t.get? location = some .directory then
    ⟨location, t.entries, t.withheld, { t.wellFormed with home := h }⟩
  else t

/-- Follows names from a directory on, each as far as the directory may be searched. A link on the
way is followed as long as the budget of links lasts; a link at the end only on demand. -/
def walk (t : FileTree) (followLast : Bool) (links : Nat) (here : Location) :
    List Name → Except SystemError Place
  | [] => .ok (.occupied here .directory)
  | name :: rest =>
    if name = [] then t.walk followLast links here rest
    else if !t.grants here .search then .error .denied
    else if name = hereName then t.walk followLast links here rest
    else if name = upName then t.walk followLast links here.dropLast rest
    else if maxNameBytes < name.length then .error .nameTooLong
    else
      let location := here ++ [name]
      match t.get? location with
      | none => if rest.isEmpty then .ok (.vacant location) else .error .notFound
      | some .directory => t.walk followLast links location rest
      | some (.file content) =>
        if rest.isEmpty then .ok (.occupied location (.file content)) else .error .notDirectory
      | some (.link target) =>
        if rest.isEmpty && !followLast then .ok (.occupied location (.link target))
        else
          match links with
          | 0 => .error .tooManyLinks
          | links + 1 =>
            let start := if target.isAbsolute then [] else here
            t.walk followLast links start (target.steps ++ rest)
termination_by names => (links, names.length)

/-- Checks that a path can name something at all. -/
def checkPath (p : Path) : Except SystemError Unit :=
  if p.bytes.contains 0 then .error .zeroInPath
  else if p.bytes.isEmpty then .error .notFound
  else if maxPathBytes ≤ p.bytes.length then .error .nameTooLong
  else .ok ()

/-- Where a path starts. -/
def start (t : FileTree) (p : Path) : Location :=
  if p.isAbsolute then [] else t.home

/-- Where a path leads. -/
def resolve (t : FileTree) (followLast : Bool) (p : Path) : Except SystemError Place := do
  checkPath p
  t.walk followLast maxLinks (t.start p) p.steps

/-- The content of the file that a path leads to. -/
def read (t : FileTree) (p : Path) : Except SystemError Bytes := do
  match ← t.resolve true p with
  | .occupied location (.file content) =>
    if t.grants location .read then .ok content else .error .denied
  | .occupied location .directory =>
    if t.grants location .read then .error .isDirectory else .error .denied
  | .occupied _ (.link _) => .error .tooManyLinks
  | .vacant _ => .error .notFound

/-- Where a file is put at a place: where a file is, or where nothing is, if that may be written. -/
def fileAt (t : FileTree) : Place → Except SystemError Location
  | .occupied location (.file _) =>
    if t.grants location .write then .ok location else .error .denied
  | .occupied _ .directory => .error .isDirectory
  | .occupied _ (.link _) => .error .tooManyLinks
  | .vacant location =>
    if t.grants location.dropLast .write then .ok location else .error .denied

/-- Where a file is put that is written to a path. -/
def target (t : FileTree) (p : Path) : Except SystemError Location := do
  t.fileAt (← t.resolve true p)

/-- The tree in which the file that a path leads to has the given content; the file is made if
only its last name is missing. -/
def write (t : FileTree) (p : Path) (content : Bytes) : Except SystemError FileTree := do
  let location ← t.target p
  return t.put location (.file content)

/-- Whether a path leads to a directory. -/
def isDirectory (t : FileTree) (p : Path) : Bool :=
  match t.resolve true p with
  | .ok (.occupied _ .directory) => true
  | _ => false

/-- The tree with the directory that a path names, inside of one that exists. -/
def createDirectory (t : FileTree) (p : Path) : Except SystemError FileTree := do
  checkPath p
  match p.names.getLast? with
  | none => .error .alreadyExists
  | some name =>
    match ← t.walk true maxLinks (t.start p) (p.names.dropLast ++ [hereName]) with
    | .vacant _ => .error .notFound
    | .occupied parent _ =>
      if name = hereName ∨ name = upName then .error .alreadyExists
      else if maxNameBytes < name.length then .error .nameTooLong
      else
        match t.get? (parent ++ [name]) with
        | some _ => .error .alreadyExists
        | none =>
          if t.grants parent .write then .ok (t.put (parent ++ [name]) .directory)
          else .error .denied

/-- What is directly inside of the directory at a location. -/
def children (t : FileTree) (directory : Location) : List DirectoryEntry :=
  t.entries.filterMap fun (location, entry) =>
    match location.getLast? with
    | some name =>
      if location.dropLast = directory then
        some ⟨name, match entry with | .file _ => true | _ => false⟩
      else none
    | none => none

/-- What is directly inside of the directory that a path leads to. A path that leads to a file
has nothing inside. -/
def list (t : FileTree) (p : Path) : Except SystemError (List DirectoryEntry) := do
  match ← t.resolve true p with
  | .occupied location .directory =>
    if t.grants location .read then .ok (t.children location) else .error .denied
  | .occupied _ _ => .ok []
  | .vacant _ => .error .notFound

/-- The tree with a symbolic link at the location that a path names. -/
def link (t : FileTree) (target p : Path) : Except SystemError FileTree := do
  match ← t.resolve false p with
  | .occupied _ _ => .error .alreadyExists
  | .vacant location =>
    if t.grants location.dropLast .write then .ok (t.put location (.link target))
    else .error .denied

/-- Everything below the working directory, by the names that lead there from it: names in the
order of their bytes, and what is inside of a directory behind it. -/
def belowHome (t : FileTree) : List (Location × Entry) :=
  let below := t.entries.filterMap fun (location, entry) =>
    if t.home.isPrefixOf location && location != t.home then
      some (location.drop t.home.length, entry)
    else none
  below.mergeSort fun a b => decide (a.1 ≤ b.1)

end FileTree

end Reckon
