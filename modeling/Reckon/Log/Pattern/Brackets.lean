import Reckon.Log.Pattern.Escape

/-!
# Brackets in a pattern

Brackets hold the characters that may stand at one place: single ones, ranges, kinds, named sets
such as `[:digit:]`, further brackets, and operations between all that. `scanBrackets?` reads what
stands behind the opening bracket up to the closing one, and comes to how deep it nests.
-/

namespace Reckon.Pattern

/-- The names of sets of ASCII characters. -/
def setNames : List String :=
  ["alnum", "alpha", "ascii", "blank", "cntrl", "digit", "graph", "lower", "print", "punct",
    "space", "upper", "word", "xdigit"]

/-- Reads a named set behind its bracket: whether it is negated, and the rest of the text. -/
def scanSet? : List Char → Option (Bool × List Char)
  | ':' :: rest =>
    let (negated, rest) :=
      match rest with
      | '^' :: rest => (true, rest)
      | rest => (false, rest)
    let name := rest.takeWhile (· ≠ ':')
    match rest.drop name.length with
    | ':' :: ']' :: rest =>
      if setNames.contains (String.ofList name) then some (negated, rest) else none
    | _ => none
  | _ => none

/-- Brackets that are not closed yet. -/
structure Bracket where
  /-- What stands behind the last operation. -/
  parts : Parts
  /-- How deep the operations so far nest, if there is one. -/
  left : Option Nat
  deriving DecidableEq, Repr

namespace Bracket

/-- Takes one more part into brackets. -/
def add (b : Bracket) (depth : Nat) : Bracket :=
  { b with parts := b.parts.add depth }

/-- How deep the content of brackets nests. -/
def depth (b : Bracket) : Nat :=
  match b.left with
  | none => b.parts.whole
  | some left => max left b.parts.whole + 1

/-- Brackets behind one more operation. -/
def operate (b : Bracket) : Bracket :=
  ⟨.empty, some b.depth⟩

/-- Takes the hyphens at the beginning of brackets, which stand for themselves. -/
def takeHyphens (mode : Mode) : List Char → Parts × List Char
  | [] => (.empty, [])
  | c :: rest =>
    if c = '-' then
      let (parts, rest) := takeHyphens mode rest
      (parts.add 0, rest)
    else if mode.spaced && isWhiteSpace c then takeHyphens mode rest
    else (.empty, mode.skip (c :: rest))

/-- Reads the beginning of brackets behind the opening one: a mark that negates them, hyphens, and
else a closing bracket that stands for itself. -/
def open? (mode : Mode) (text : List Char) : Option (Bracket × List Char) :=
  let (negated, text) :=
    match mode.skip text with
    | '^' :: rest => (true, mode.skip rest)
    | text => (false, text)
  let (parts, text) :=
    match takeHyphens mode text with
    | (⟨0, _⟩, ']' :: rest) => (Parts.empty.add 0, rest)
    | (parts, text) => (parts, text)
  if negated && !mode.unicode then none
  else if parts.count ≠ 0 && !mode.admitsWithin ⟨'-', false⟩ then none
  else some (⟨parts, none⟩, text)

end Bracket

/-- Reads a character or a kind of characters. -/
def scanMember? (mode : Mode) : List Char → Option (Escape × List Char)
  | [] => none
  | '\\' :: rest => Escape.scan? mode rest
  | c :: rest => some (.literal ⟨c, false⟩, rest)

/-- The rest of a text behind a hyphen, if the hyphen makes a range. -/
def rangeEnd? (mode : Mode) : List Char → Option (List Char)
  | '-' :: rest =>
    match mode.skip rest with
    | ']' :: _ => none
    | '-' :: _ => none
    | rest => some rest
  | _ => none

/-- Reads one member of brackets, or a range of them, and comes to the rest of the text. -/
def scanRange? (mode : Mode) (text : List Char) : Option (List Char) := do
  let (first, rest) ← scanMember? mode text
  let rest := mode.skip rest
  match rangeEnd? mode rest with
  | none =>
    match first with
    | .literal l => if mode.admitsWithin l then some rest else none
    | .kind negated => if mode.admitsKind negated then some rest else none
    | _ => none
  | some rest =>
    let (last, rest) ← scanMember? mode rest
    match first, last with
    | .literal a, .literal b =>
      if a.char ≤ b.char && mode.admitsWithin a && mode.admitsWithin b then some rest else none
    | _, _ => none

/-- Reads what stands in brackets, `outer` being those around them; each step takes at least one
character, so the fuel is more than the length of the text. -/
def scanWithin? (mode : Mode) :
    Nat → Bracket → List Bracket → List Char → Option (Nat × List Char)
  | 0, _, _, _ => none
  | fuel + 1, b, outer, text =>
    match mode.skip text with
    | ']' :: rest =>
      match outer with
      | [] => some (b.depth + 1, rest)
      | parent :: outer => scanWithin? mode fuel (parent.add (b.depth + 1)) outer rest
    | '[' :: rest =>
      match scanSet? rest with
      | some (negated, rest) =>
        if mode.admitsSet negated then scanWithin? mode fuel (b.add 0) outer rest else none
      | none => do
        let (opened, rest) ← Bracket.open? mode rest
        scanWithin? mode fuel opened (b :: outer) rest
    | '&' :: '&' :: rest => scanWithin? mode fuel b.operate outer rest
    | '-' :: '-' :: rest => scanWithin? mode fuel b.operate outer rest
    | '~' :: '~' :: rest => scanWithin? mode fuel b.operate outer rest
    | text => do
      let rest ← scanRange? mode text
      scanWithin? mode fuel (b.add 0) outer rest

/-- Reads brackets behind the opening one: how deep they nest, and the rest of the text. -/
def scanBrackets? (mode : Mode) (text : List Char) : Option (Nat × List Char) := do
  let (b, rest) ← Bracket.open? mode text
  scanWithin? mode (rest.length + 1) b [] rest

end Reckon.Pattern
