import Reckon.Log.Pattern.Brackets
import Reckon.Text.Alphanumeric

/-!
# Which texts are patterns

A pattern is a regular expression: characters, brackets, a point for any character, anchors,
escapes, groups, repetitions and alternatives. `Pattern.check` says whether a text is one, and if
not, why. A pattern may nest `maxDepth` levels deep, where a group, a repetition, alternatives,
a sequence and brackets are a level each.

What a pattern matches is not said here, for it would be matched with the values of spans, of
which there are none.
-/

namespace Reckon.Pattern

/-- What keeps a text from being a pattern. -/
inductive PatternError where
  /-- It is not put together as a pattern is. -/
  | malformed
  /-- It asks for the beginning or the end of a word of any letters. -/
  | boundary
  deriving DecidableEq, Repr

/-- The wording of an error. -/
def PatternError.message : PatternError → String
  | .malformed => "error building NFA"
  | .boundary =>
    "unsupported regex feature for DFAs: cannot build DFAs for regexes with Unicode word " ++
      "boundaries; switch to ASCII word boundaries, or heuristically enable Unicode word " ++
      "boundaries or use a different regex engine"

/-- The greatest number of levels. -/
def maxDepth : Nat := 250

/-- One part of a sequence. -/
structure Part where
  depth : Nat
  /-- Whether it can be repeated. -/
  repeatable : Bool
  deriving DecidableEq, Repr

/-- A group that is not closed yet. -/
structure Group where
  mode : Mode
  /-- The parts of the last alternative in front of the last one. -/
  before : Parts
  /-- The last part of the last alternative. -/
  last : Option Part
  /-- How deep the alternatives in front of the last one nest, if there are any. -/
  others : Option Nat
  deriving DecidableEq, Repr

namespace Group

/-- A group in which nothing stands yet. -/
def empty (mode : Mode) : Group := ⟨mode, .empty, none, none⟩

/-- The parts of the last alternative. -/
def parts (g : Group) : Parts :=
  match g.last with
  | none => g.before
  | some p => g.before.add p.depth

/-- Takes one more part. -/
def add (g : Group) (p : Part) : Group :=
  { g with before := g.parts, last := some p }

/-- Begins one more alternative. -/
def split (g : Group) : Group :=
  { g with before := .empty, last := none, others := some (max (g.others.getD 0) g.parts.whole) }

/-- How deep the content of a group nests. -/
def depth (g : Group) : Nat :=
  match g.others with
  | none => g.parts.whole
  | some others => max others g.parts.whole + 1

/-- Repeats the last part, if it can be repeated. -/
def repeat? (g : Group) : Option Group :=
  match g.last with
  | some ⟨depth, true⟩ => some { g with last := some ⟨depth + 1, true⟩ }
  | _ => none

end Group

/-- A pattern of which some text was read. -/
structure Reading where
  /-- The innermost group that is open, or the pattern as a whole. -/
  group : Group
  /-- The groups around it, the innermost first. -/
  outer : List Group
  /-- The names of groups so far. -/
  names : List (List Char)
  /-- Whether a word boundary was met for which a table of letters is missing. -/
  boundary : Bool
  deriving DecidableEq, Repr

/-! ## Groups -/

/-- Whether a text can name a group. -/
def isGroupName : List Char → Bool
  | [] => false
  | c :: rest =>
    (c = '_' || isAlphabetic c) &&
      rest.all fun c => c = '_' || c = '.' || c = '[' || c = ']' || isAlphanumeric c

/-- Whether a text lists flags: no one twice, and some behind a hyphen. -/
def areFlags (text : List Char) : Bool :=
  text.all "imsUuRx-".toList.contains && text.Nodup && text.getLast? ≠ some '-'

/-- The mode behind flags, of which those behind a hyphen are taken back. -/
def Mode.set (mode : Mode) (flags : List Char) : Mode :=
  let on := flags.takeWhile (· ≠ '-')
  let off := flags.dropWhile (· ≠ '-')
  let choose (c : Char) (old : Bool) : Bool := (old || on.contains c) && !off.contains c
  ⟨choose 'i' mode.ignoreCase, choose 'u' mode.unicode, choose 'x' mode.spaced⟩

namespace Reading

/-- A pattern of which nothing was read. -/
def start : Reading := ⟨.empty .initial, [], [], false⟩

/-- Takes one more part into the innermost group. -/
def add (r : Reading) (p : Part) : Reading :=
  { r with group := r.group.add p }

/-- Opens a group. -/
def openGroup (r : Reading) (mode : Mode) : Reading :=
  { r with group := .empty mode, outer := r.group :: r.outer }

/-- Reads the name of a group, and opens the group. -/
def scanName? (r : Reading) (text : List Char) : Option (Reading × List Char) :=
  let name := text.takeWhile (· ≠ '>')
  match text.drop name.length with
  | _ :: rest =>
    if isGroupName name && !r.names.contains name then
      some ({ r.openGroup r.group.mode with names := name :: r.names }, rest)
    else none
  | [] => none

/-- Reads flags, which are for a group that begins behind them, or for what follows in the same
group. -/
def scanFlags? (r : Reading) (text : List Char) : Option (Reading × List Char) :=
  let flags := text.takeWhile fun c => c ≠ ':' && c ≠ ')'
  let mode := r.group.mode.set flags
  if areFlags flags then
    match text.drop flags.length with
    | ':' :: rest => some (r.openGroup mode, rest)
    | ')' :: rest =>
      if flags.isEmpty then none
      else some ({ r with group := { r.group.add ⟨0, false⟩ with mode } }, rest)
    | _ => none
  else none

/-- Reads the beginning of a group behind its opening parenthesis. -/
def scanGroup? (r : Reading) (text : List Char) : Option (Reading × List Char) :=
  match r.group.mode.skip text with
  | '?' :: 'P' :: '<' :: rest => r.scanName? rest
  | '?' :: '<' :: rest => r.scanName? rest
  | '?' :: rest => r.scanFlags? rest
  | text => some (r.openGroup r.group.mode, text)

/-- Closes the innermost group. -/
def close? (r : Reading) : Option Reading :=
  match r.outer with
  | [] => none
  | parent :: outer =>
    some { r with group := parent.add ⟨r.group.depth + 1, true⟩, outer := outer }

/-! ## Reading a pattern -/

/-- Takes what stands behind a backslash. -/
def addEscape? (r : Reading) : Escape → Option Reading
  | .literal l => if r.group.mode.admits l then some (r.add ⟨0, true⟩) else none
  | .kind negated => if r.group.mode.admitsKind negated then some (r.add ⟨0, true⟩) else none
  | .anchor => some (r.add ⟨0, true⟩)
  | .boundary => some { r.add ⟨0, true⟩ with boundary := r.boundary || r.group.mode.unicode }

/-- Reads on from a character that does not stand for nothing. -/
def step? (r : Reading) (c : Char) (rest : List Char) : Option (Reading × List Char) :=
  let mode := r.group.mode
  match c with
  | '(' => r.scanGroup? rest
  | ')' => r.close?.map (·, rest)
  | '|' => some ({ r with group := r.group.split }, rest)
  | '[' => (scanBrackets? mode rest).map fun (depth, rest) => (r.add ⟨depth, true⟩, rest)
  | '?' | '*' | '+' =>
    let rest := if rest.head? = some '?' then rest.drop 1 else rest
    r.group.repeat?.map fun group => ({ r with group }, rest)
  | '\x7b' => none
  | '\\' => do
    let (e, rest) ← Escape.scan? mode rest
    return (← r.addEscape? e, rest)
  | '.' => if mode.unicode then some (r.add ⟨0, true⟩, rest) else none
  | '^' | '$' => some (r.add ⟨0, true⟩, rest)
  | _ => if mode.admits ⟨c, false⟩ then some (r.add ⟨0, true⟩, rest) else none

/-- Reads a text to its end; each step takes at least one character, so the fuel is more than the
length of the text. -/
def scan? : Nat → Reading → List Char → Option Reading
  | 0, _, _ => none
  | fuel + 1, r, text =>
    match r.group.mode.skip text with
    | [] => some r
    | c :: rest => do
      let (r, rest) ← r.step? c rest
      scan? fuel r rest

end Reading

/-- Says whether a text is a pattern. -/
def check (text : List Char) : Except PatternError Unit :=
  match Reading.start.scan? (text.length + 1) text with
  | none => .error .malformed
  | some r =>
    if !r.outer.isEmpty || maxDepth < r.group.depth then .error .malformed
    else if r.boundary then .error .boundary
    else .ok ()

end Reckon.Pattern
