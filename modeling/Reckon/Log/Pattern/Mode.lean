import Reckon.Text.Blank

/-!
# How a pattern is read

A `Pattern.Mode` holds the flags that bear on whether a pattern is accepted, and a
`Pattern.Literal` is a character as a pattern writes it. Patterns are accepted without a table of
letters, so a mode for all of Unicode in which upper and lower case are alike admits no literal.
`Pattern.Parts` counts how deep a pattern nests.
-/

namespace Reckon.Pattern

/-- A character as a pattern writes it. -/
structure Literal where
  char : Char
  /-- Whether it is written by two hexadecimal digits. -/
  byte : Bool
  deriving DecidableEq, Repr

/-- The flags in force at a place of a pattern. -/
structure Mode where
  /-- Whether upper and lower case are alike. -/
  ignoreCase : Bool
  /-- Whether a pattern is about characters, and not about bytes. -/
  unicode : Bool
  /-- Whether blanks and comments stand for nothing. -/
  spaced : Bool
  deriving DecidableEq, Repr

namespace Mode

/-- The mode in which a pattern begins. -/
def initial : Mode := ⟨false, true, false⟩

/-- The rest of a text behind blanks and comments, where one begins inside of a comment or not. -/
def dropBlanks : Bool → List Char → List Char
  | _, [] => []
  | true, c :: rest => dropBlanks (c ≠ '\n') rest
  | false, c :: rest =>
    if isWhiteSpace c then dropBlanks false rest
    else if c = '#' then dropBlanks true rest
    else c :: rest

/-- The rest of a text behind what stands for nothing. -/
def skip (mode : Mode) (text : List Char) : List Char :=
  if mode.spaced then dropBlanks false text else text

/-- Whether a literal may stand by itself. -/
def admits (mode : Mode) (l : Literal) : Bool :=
  if mode.unicode then !mode.ignoreCase else !(l.byte && 0x80 ≤ l.char.toNat)

/-- Whether a literal may stand in brackets. -/
def admitsWithin (mode : Mode) (l : Literal) : Bool :=
  if mode.unicode then !mode.ignoreCase else l.char.toNat < 0x80

/-- Whether a set of ASCII characters may stand in brackets, or all characters but those. -/
def admitsSet (mode : Mode) (negated : Bool) : Bool :=
  if mode.unicode then !mode.ignoreCase else !negated

/-- Whether the digits, the blanks or the characters of words may be asked for, or all others. -/
def admitsKind (mode : Mode) (negated : Bool) : Bool :=
  !mode.unicode && !negated

end Mode

/-- How many parts follow one another, and how deep the deepest of them nests. -/
structure Parts where
  count : Nat
  depth : Nat
  deriving DecidableEq, Repr

namespace Parts

/-- No parts. -/
def empty : Parts := ⟨0, 0⟩

/-- One more part. -/
def add (p : Parts) (depth : Nat) : Parts :=
  ⟨p.count + 1, max p.depth depth⟩

/-- How deep the parts nest as a whole: a single one is no sequence. -/
def whole (p : Parts) : Nat :=
  if p.count ≤ 1 then p.depth else p.depth + 1

end Parts

end Reckon.Pattern
