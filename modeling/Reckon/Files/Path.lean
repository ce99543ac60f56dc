import Reckon.Text.Utf8

/-!
# Paths

A `Path` is kept as the bytes that it is written with, whether they are text or not, and shown as
text (`Path.display`). `Path.fileName?`, `Path.stem?` and `Path.extension?` read its last name,
`Path.join` puts a name behind it, and `Path.ancestors` lists the paths above it.
-/

namespace Reckon

/-- The name of something in a directory. -/
abbrev Name := Bytes

/-- A path, as it is written. -/
structure Path where
  bytes : Bytes
  deriving DecidableEq, Repr

/-- What stands between the names of a path. -/
def slash : UInt8 := 0x2F

/-- What stands between the stem of a name and its extension. -/
def point : UInt8 := 0x2E

/-- The name by which a directory is inside of itself. -/
def hereName : Name := [point]

/-- The name by which the directory above is inside of a directory. -/
def upName : Name := [point, point]

/-- A name that something in a directory can have. -/
structure ProperName (name : Name) : Prop where
  ne_nil : name ≠ []
  no_slash : slash ∉ name
  ne_here : name ≠ hereName
  ne_up : name ≠ upName

instance (name : Name) : Decidable (ProperName name) :=
  decidable_of_iff (name ≠ [] ∧ slash ∉ name ∧ name ≠ hereName ∧ name ≠ upName)
    ⟨fun ⟨hnil, hslash, hhere, hup⟩ => ⟨hnil, hslash, hhere, hup⟩,
      fun ⟨hnil, hslash, hhere, hup⟩ => ⟨hnil, hslash, hhere, hup⟩⟩

/-- The parts of some bytes between the slashes. -/
def splitSlashes : Bytes → List Name
  | [] => [[]]
  | byte :: rest =>
    if byte = slash then [] :: splitSlashes rest
    else
      match splitSlashes rest with
      | [] => [[byte]]
      | part :: parts => (byte :: part) :: parts

/-- A name split at its last point into stem and extension. A point at the very beginning belongs
to the stem. -/
def splitName (name : Name) : Name × Option Name :=
  match name.reverse.dropWhile (· ≠ point) with
  | _ :: byte :: stem => ((byte :: stem).reverse, some (name.reverse.takeWhile (· ≠ point)).reverse)
  | _ => (name, none)

namespace Path

/-- A path as text, for people to read. -/
def display (p : Path) : String :=
  Utf8.decode p.bytes

/-- The names that a path goes through, in order. -/
def names (p : Path) : List Name :=
  (splitSlashes p.bytes).filter (!·.isEmpty)

/-- Whether a slash ends the path. -/
def endsInSlash (p : Path) : Bool :=
  p.bytes.getLast? = some slash

/-- The last name of a path. A single point at the end is passed over, and a path that ends by
going up has none. -/
def fileName? (p : Path) : Option Name :=
  (p.names.filter (· ≠ hereName)).getLast?.filter (· ≠ upName)

/-- The last name without its extension. -/
def stem? (p : Path) : Option Name :=
  p.fileName?.map fun name => (splitName name).1

/-- The extension of the last name. -/
def extension? (p : Path) : Option Name :=
  p.fileName?.bind fun name => (splitName name).2

/-- Whether a path starts at the root, and not in the working directory. -/
def isAbsolute (p : Path) : Bool :=
  p.bytes.head? = some slash

/-- The path to `name` inside of `p`; a name that starts at the root stays as it is. -/
def join (p : Path) (name : Name) : Path :=
  if (Path.mk name).isAbsolute then ⟨name⟩
  else if p.bytes.isEmpty || p.endsInSlash then ⟨p.bytes ++ name⟩
  else ⟨p.bytes ++ slash :: name⟩

/-- A path and all the paths above it that still have a name, from the innermost to the outermost;
the empty path has none. -/
def ancestors (p : Path) : List Path :=
  let names := p.names.filter (· ≠ hereName)
  let root : Bytes := if p.isAbsolute then [slash] else []
  if p.bytes.isEmpty then []
  else
    p :: ((List.range (names.length - 1)).map fun i =>
      Path.mk (root ++ [slash].intercalate (names.take (i + 1)))).reverse

end Path

end Reckon
