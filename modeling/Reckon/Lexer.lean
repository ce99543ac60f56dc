import Reckon.Numeral
import Reckon.Token

/-!
# Reading tokens from a text

`Lexeme.scan` reads the one token that starts at a character that is not blank, together with the
characters it covers. A `Cursor` is a place in a text; `Cursor.next` skips blanks and reads the
next token, and at the end of the text it reads `Token.finish` again and again. `Cursor.tokens` is
the whole stream. A `Lexer` offers the same stream through two calls: `Lexer.nextToken` never ends
and `Lexer.next?` ends behind the first `Token.finish` that it has handed out itself.
-/

namespace Reckon

/-- The characters that separate tokens. -/
def isBlank (c : Char) : Bool :=
  c = ' ' || c = '\t' || c = '\n' || c = '\r'

/-- A token with the characters it covers. -/
structure Lexeme where
  token : Token
  text : List Char

namespace Lexeme

/-- The token of a numeral; the whole numeral is invalid if its value is infinite. -/
def ofNumeral (n : Numeral) : Lexeme :=
  match n.decimal.double? with
  | some value => ⟨.number value, n.text⟩
  | none => ⟨.invalid, n.text⟩

/-- Reads the operator, parenthesis or invalid character `c`, where `rest` follows. -/
def scanMark (c : Char) (rest : List Char) : Lexeme × List Char :=
  match c with
  | '+' => (⟨.plus, ['+']⟩, rest)
  | '-' => (⟨.minus, ['-']⟩, rest)
  | '*' =>
    match rest with
    | '*' :: rest => (⟨.power, ['*', '*']⟩, rest)
    | _ => (⟨.star, ['*']⟩, rest)
  | '/' => (⟨.slash, ['/']⟩, rest)
  | '(' => (⟨.opening, ['(']⟩, rest)
  | ')' => (⟨.closing, [')']⟩, rest)
  | _ => (⟨.invalid, [c]⟩, rest)

/-- Reads the token that starts at `c`, where `rest` follows. -/
def scan (c : Char) (rest : List Char) : Lexeme × List Char :=
  match Numeral.scan? (c :: rest) with
  | some (n, rest) => (ofNumeral n, rest)
  | none => scanMark c rest

end Lexeme

/-- A place in a text: what is left of it, and the position of the first character left. -/
structure Cursor where
  rest : List Char
  position : Nat
  deriving DecidableEq, Repr

namespace Cursor

/-- The place in front of a text. -/
def start (text : List Char) : Cursor := ⟨text, 1⟩

/-- Reads the next token of the text `rest`, whose first character is at `position`. -/
def nextFrom : List Char → Nat → Placed × Cursor
  | [], position => (⟨.finish, position⟩, ⟨[], position⟩)
  | c :: rest, position =>
    if isBlank c then nextFrom rest (position + 1)
    else
      let (lexeme, rest) := Lexeme.scan c rest
      (⟨lexeme.token, position⟩, ⟨rest, position + lexeme.text.length⟩)

/-- Reads the next token. -/
def next (c : Cursor) : Placed × Cursor :=
  nextFrom c.rest c.position

end Cursor

/-! ## Every token but the last takes something off the text -/

/-- The text behind a lexeme is no longer than what follows its first character. -/
theorem Lexeme.scan_length (c : Char) (rest : List Char) :
    (scan c rest).2.length ≤ rest.length := by
  unfold scan
  split
  · next hnumeral =>
    have := Numeral.scan?_length hnumeral
    simp only [List.length_cons] at this
    dsimp only
    omega
  · unfold scanMark
    repeat' split
    all_goals simp

/-- Reading a token shortens the text, unless the end is reached and nothing is left. -/
theorem Cursor.nextFrom_length (rest : List Char) (position : Nat) :
    (nextFrom rest position).2.rest.length < rest.length ∨
      (nextFrom rest position).1.token = .finish ∧ (nextFrom rest position).2.rest = [] := by
  induction rest generalizing position with
  | nil => exact .inr ⟨rfl, rfl⟩
  | cons c rest ih =>
    unfold nextFrom
    split
    · rcases ih (position + 1) with h | h
      · exact .inl (Nat.lt_succ_of_lt h)
      · exact .inr h
    · have := Lexeme.scan_length c rest
      exact .inl (by simp only [List.length_cons]; omega)

theorem Cursor.next_length (c : Cursor) :
    c.next.2.rest.length < c.rest.length ∨ c.next.1.token = .finish ∧ c.next.2.rest = [] :=
  nextFrom_length c.rest c.position

/-! ## Streams -/

/-- All tokens from a place on, up to and including the end of the text. -/
def Cursor.tokens (c : Cursor) : List Placed :=
  if _h : c.next.1.token = .finish then [c.next.1] else c.next.1 :: c.next.2.tokens
termination_by c.rest.length
decreasing_by
  rcases c.next_length with hlt | hend
  · exact hlt
  · exact absurd hend.1 _h

/-- The token stream of a text. -/
def tokens (source : String) : List Placed :=
  (Cursor.start source.toList).tokens

/-- A reader of tokens: its whole text, its place, and whether `next?` has come to the end. -/
structure Lexer where
  source : String
  cursor : Cursor
  ended : Bool

namespace Lexer

/-- A reader at the start of a text. -/
def ofSource (source : String) : Lexer :=
  ⟨source, Cursor.start source.toList, false⟩

/-- Reads the next token; at the end of the text, `Token.finish` each time. -/
def nextToken (l : Lexer) : Placed × Lexer :=
  (l.cursor.next.1, { l with cursor := l.cursor.next.2 })

/-- Reads the next token, up to and including the first `Token.finish` that this call reads. -/
def next? (l : Lexer) : Option Placed × Lexer :=
  if l.ended then (none, l)
  else
    let (token, l) := l.nextToken
    (some token, { l with ended := decide (token.token = .finish) })

end Lexer

end Reckon
