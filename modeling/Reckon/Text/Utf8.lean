/-!
# Text as bytes

`encode` writes a text in UTF-8, and a text that stands where bytes are wanted is so encoded.
`decode` reads any bytes as a text: each longest beginning of a well-formed sequence that is not
completed, and each byte that cannot begin one, becomes the character U+FFFD. `text?` reads only
bytes that a text is written with. `Opening.ofByte?` is the table of well-formed sequences: how many
bytes follow a first byte, and between which bounds the second has to lie, so that no overlong form,
no surrogate and nothing beyond U+10FFFF is accepted. `width` and `slice` count bytes while they
work on characters.
-/

namespace Reckon

/-- The content of a file, the name of one, or a word of a command. -/
abbrev Bytes := List UInt8

namespace Utf8

/-- The bytes of a text. -/
def encode (text : String) : Bytes :=
  text.toList.flatMap String.utf8EncodeChar

instance : Coe String Bytes := ⟨encode⟩

/-- The number of bytes of a text. -/
def width : List Char → Nat
  | [] => 0
  | c :: rest => c.utf8Size + width rest

/-- The beginning of a text up to a number of bytes. A character that lies across the end belongs
to it. -/
def takeBytes : Nat → List Char → List Char
  | 0, _ => []
  | _ + 1, [] => []
  | n + 1, c :: rest => c :: takeBytes (n + 1 - c.utf8Size) rest

/-- What follows the beginning of a text up to a number of bytes. -/
def dropBytes : Nat → List Char → List Char
  | 0, text => text
  | _ + 1, [] => []
  | n + 1, c :: rest => dropBytes (n + 1 - c.utf8Size) rest

/-- What stands in a text from one number of bytes up to another. -/
def slice (start finish : Nat) (text : List Char) : List Char :=
  takeBytes (finish - start) (dropBytes start text)

/-- What stands for bytes that are not text. -/
def replacement : Char := '\uFFFD'

/-- The beginning of a sequence that is not complete yet. -/
structure Opening where
  /-- How many bytes have to follow the next one. -/
  behind : Nat
  /-- The least value of the next byte. -/
  low : Nat
  /-- The greatest value of the next byte. -/
  high : Nat
  /-- The bits read so far. -/
  value : Nat
  deriving DecidableEq, Repr

namespace Opening

/-- What a first byte begins, if a sequence of several bytes begins with it. -/
def ofByte? (byte : Nat) : Option Opening :=
  if 0xC2 ≤ byte ∧ byte ≤ 0xDF then some ⟨0, 0x80, 0xBF, byte - 0xC0⟩
  else if byte = 0xE0 then some ⟨1, 0xA0, 0xBF, 0⟩
  else if byte = 0xED then some ⟨1, 0x80, 0x9F, byte - 0xE0⟩
  else if 0xE1 ≤ byte ∧ byte ≤ 0xEF then some ⟨1, 0x80, 0xBF, byte - 0xE0⟩
  else if byte = 0xF0 then some ⟨2, 0x90, 0xBF, 0⟩
  else if 0xF1 ≤ byte ∧ byte ≤ 0xF3 then some ⟨2, 0x80, 0xBF, byte - 0xF0⟩
  else if byte = 0xF4 then some ⟨2, 0x80, 0x8F, byte - 0xF0⟩
  else none

/-- The value with the six bits of one more byte. -/
def extend (o : Opening) (byte : Nat) : Nat :=
  o.value * 64 + (byte - 0x80)

end Opening

/-- What a byte yields where a sequence may begin: characters, and an opening if it begins a
sequence. -/
def first (byte : Nat) : List Char × Option Opening :=
  if byte < 0x80 then ([Char.ofNat byte], none)
  else
    match Opening.ofByte? byte with
    | some o => ([], some o)
    | none => ([replacement], none)

/-- What a byte yields behind the beginning of a sequence. A byte that does not belong to the
sequence ends it and may begin the next. -/
def further (o : Opening) (byte : Nat) : List Char × Option Opening :=
  if o.low ≤ byte ∧ byte ≤ o.high then
    match o.behind with
    | 0 => ([Char.ofNat (o.extend byte)], none)
    | behind + 1 => ([], some ⟨behind, 0x80, 0xBF, o.extend byte⟩)
  else
    let (chars, next) := first byte
    (replacement :: chars, next)

/-- The characters of the bytes that follow an opening, or of bytes from a beginning on. -/
def decodeFrom : Option Opening → Bytes → List Char
  | none, [] => []
  | some _, [] => [replacement]
  | none, byte :: rest =>
    let (chars, next) := first byte.toNat
    chars ++ decodeFrom next rest
  | some o, byte :: rest =>
    let (chars, next) := further o byte.toNat
    chars ++ decodeFrom next rest

/-- The text of any bytes. -/
def decode (bytes : Bytes) : String :=
  String.ofList (decodeFrom none bytes)

/-- The text of bytes that are one. -/
def text? (bytes : Bytes) : Option String :=
  if encode (decode bytes) = bytes then some (decode bytes) else none

end Utf8

end Reckon
