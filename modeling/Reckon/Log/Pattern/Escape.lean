import Reckon.Log.Pattern.Mode

/-!
# Escapes in a pattern

`Escape.scan?` reads what stands behind a backslash: a character that would else be a mark, one
written by its number, a kind of characters, or a place between characters. Properties of
characters by name, and groups by number, are refused.
-/

namespace Reckon.Pattern

/-- What a backslash and the text behind it stand for. -/
inductive Escape where
  /-- A character. -/
  | literal (l : Literal)
  /-- Digits, blanks or the characters of words, or all characters but those. -/
  | kind (negated : Bool)
  /-- The beginning or the end of the text. -/
  | anchor
  /-- The beginning or the end of a word. -/
  | boundary
  deriving DecidableEq, Repr

/-- Whether a character is a hexadecimal digit. -/
def isHexDigit (c : Char) : Bool :=
  c.isDigit || ('a' ≤ c && c ≤ 'f') || ('A' ≤ c && c ≤ 'F')

/-- The value of a hexadecimal digit. -/
def hexDigitValue (c : Char) : Nat :=
  if c.isDigit then c.toNat - '0'.toNat else c.toLower.toNat - 'a'.toNat + 10

/-- Splits a number of hexadecimal digits off the front of a text. -/
def splitHex? (mode : Mode) : Nat → List Char → Option (List Char × List Char)
  | 0, text => some ([], text)
  | count + 1, text =>
    match mode.skip text with
    | [] => none
    | c :: rest =>
      if isHexDigit c then
        (splitHex? mode count rest).map fun (digits, rest) => (c :: digits, rest)
      else none

/-- Reads the character that some hexadecimal digits number. -/
def scanHex? (mode : Mode) (count : Nat) (text : List Char) : Option (Escape × List Char) := do
  let (digits, rest) ← splitHex? mode count text
  let code := digits.foldl (fun code c => code * 16 + hexDigitValue c) 0
  if code.isValidChar then some (.literal ⟨Char.ofNat code, count = 2⟩, rest) else none

/-- Reads what stands behind a backslash. -/
def Escape.scan? (mode : Mode) : List Char → Option (Escape × List Char)
  | [] => none
  | c :: rest =>
    let char (code : Nat) : Option (Escape × List Char) :=
      some (.literal ⟨Char.ofNat code, false⟩, rest)
    match c with
    | 'x' => scanHex? mode 2 rest
    | 'u' => scanHex? mode 4 rest
    | 'U' => scanHex? mode 8 rest
    | 'd' | 's' | 'w' => some (.kind false, rest)
    | 'D' | 'S' | 'W' => some (.kind true, rest)
    | 'a' => char 0x07
    | 't' => char 0x09
    | 'n' => char 0x0A
    | 'v' => char 0x0B
    | 'f' => char 0x0C
    | 'r' => char 0x0D
    | 'A' | 'z' => some (.anchor, rest)
    | 'b' | 'B' | '<' | '>' => some (.boundary, rest)
    | _ => if c.toNat < 0x80 && !c.isAlphanum then char c.toNat else none

end Reckon.Pattern
