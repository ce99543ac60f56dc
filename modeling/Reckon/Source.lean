import Reckon.Text.Blank

/-!
# Comment lines

A line of a source ends behind a line feed, and behind nothing else. A line whose first character
that is not white space is `#` is a comment. `stripComments` drops the comments and keeps every
other line as it is, with its line feed.
-/

namespace Reckon

/-- The lines of a text, each with the line feed that ends it. -/
def splitLines : List Char → List (List Char)
  | [] => []
  | c :: rest =>
    if c = '\n' then [c] :: splitLines rest
    else
      match splitLines rest with
      | [] => [[c]]
      | line :: lines => (c :: line) :: lines

/-- Whether a line is a comment. -/
def isComment (line : List Char) : Bool :=
  (line.dropWhile isWhiteSpace).head? = some '#'

/-- The source without its comments. -/
def stripComments (source : String) : String :=
  String.ofList ((splitLines source.toList).filter (!isComment ·)).flatten

end Reckon
