import Mathlib
import Reckon.Text.Utf8

/-!
# What bytes decode to

A byte below `0x80` stands for its character wherever it stands: it ends whatever sequence is
open before it and nothing behind it depends on what stands before it
(`Utf8.decodeFrom_append_ascii`). Conversely a character below `0x80` comes from its byte
(`Utf8.mem_of_mem_decodeFrom`), and bytes of which one is `0x80` or more decode to a text with a
character beyond (`Utf8.eq_of_ascii`). A text is read back from its own bytes
(`Utf8.decode_encode`), and bytes are a text only if they are those that it is written with
(`Utf8.text?_eq_some_iff`).

All but the last two rest on `Utf8.Opening.Scalar`, which every opening that is reached satisfies:
whatever bytes complete it, the result is a code of Unicode, no surrogate, and at least `0x80`.
-/

namespace Reckon.Utf8

/-! ## Openings -/

namespace Opening

/-- The least code that an opening can be completed to. -/
def least (o : Opening) : Nat :=
  o.extend o.low * 64 ^ o.behind

/-- A bound of the codes that an opening can be completed to. -/
def bound (o : Opening) : Nat :=
  (o.extend o.high + 1) * 64 ^ o.behind

/-- Only bytes from `0x80` on continue the opening, and it can be completed only to codes of
characters that are at least `0x80`. -/
structure Scalar (o : Opening) : Prop where
  low : 0x80 ≤ o.low
  least : 0x80 ≤ o.least
  valid : o.bound ≤ 0xD800 ∨ 0xE000 ≤ o.least ∧ o.bound ≤ 0x110000

/-- A greater byte extends an opening to a greater code. -/
theorem extend_mono (o : Opening) {a b : Nat} (h : a ≤ b) : o.extend a ≤ o.extend b := by
  unfold extend
  omega

/-- The bounds of an opening, written out. -/
theorem scalar_mk {behind low high value : Nat} (hlow : 0x80 ≤ low)
    (hleast : 0x80 ≤ (value * 64 + (low - 0x80)) * 64 ^ behind)
    (hvalid : (value * 64 + (high - 0x80) + 1) * 64 ^ behind ≤ 0xD800 ∨
      0xE000 ≤ (value * 64 + (low - 0x80)) * 64 ^ behind ∧
        (value * 64 + (high - 0x80) + 1) * 64 ^ behind ≤ 0x110000) :
    Scalar ⟨behind, low, high, value⟩ :=
  ⟨hlow, hleast, hvalid⟩

/-- The first byte of a sequence opens codes of characters only. -/
theorem ofByte?_scalar {byte : Nat} {o : Opening} (h : ofByte? byte = some o) : o.Scalar := by
  unfold ofByte? at h
  repeat' split at h
  all_goals cases h
  all_goals exact scalar_mk (by omega) (by omega) (by omega)

/-- Where any byte may follow, the least code has zeros behind the opening. -/
theorem least_next (behind value : Nat) :
    Opening.least ⟨behind, 0x80, 0xBF, value⟩ = value * 64 ^ (behind + 1) := by
  unfold least extend
  dsimp only
  rw [Nat.sub_self, Nat.add_zero, Nat.pow_succ', Nat.mul_assoc]

/-- Where any byte may follow, the codes are those up to the next opening's. -/
theorem bound_next (behind value : Nat) :
    bound ⟨behind, 0x80, 0xBF, value⟩ = (value + 1) * 64 ^ (behind + 1) := by
  unfold bound extend
  dsimp only
  rw [Nat.pow_succ', ← Nat.mul_assoc, Nat.succ_mul value 64, Nat.add_assoc (value * 64)]

/-- A byte that belongs to the sequence narrows the codes down. -/
theorem Scalar.next {o : Opening} (h : o.Scalar) {byte behind : Nat} (hlow : o.low ≤ byte)
    (hhigh : byte ≤ o.high) (hbehind : o.behind = behind + 1) :
    Scalar ⟨behind, 0x80, 0xBF, o.extend byte⟩ := by
  have hleast : o.least ≤ Opening.least ⟨behind, 0x80, 0xBF, o.extend byte⟩ := by
    rw [least_next, Opening.least, hbehind]
    exact Nat.mul_le_mul_right _ (o.extend_mono hlow)
  have hbound : bound ⟨behind, 0x80, 0xBF, o.extend byte⟩ ≤ o.bound := by
    rw [bound_next, bound, hbehind]
    exact Nat.mul_le_mul_right _ (Nat.succ_le_succ (o.extend_mono hhigh))
  refine ⟨Nat.le_refl _, Nat.le_trans h.least hleast, ?_⟩
  rcases h.valid with hvalid | ⟨hge, hle⟩
  · exact .inl (Nat.le_trans hbound hvalid)
  · exact .inr ⟨Nat.le_trans hge hleast, Nat.le_trans hbound hle⟩

/-- The last byte of a sequence completes it to a character. -/
theorem Scalar.toNat_ofNat {o : Opening} (h : o.Scalar) {byte : Nat} (hlow : o.low ≤ byte)
    (hhigh : byte ≤ o.high) (hbehind : o.behind = 0) :
    (Char.ofNat (o.extend byte)).toNat = o.extend byte ∧ 0x80 ≤ o.extend byte := by
  have hge : o.least ≤ o.extend byte := by
    rw [Opening.least, hbehind]
    simpa using o.extend_mono hlow
  have hlt : o.extend byte < o.bound := by
    have hmono := o.extend_mono hhigh
    rw [bound, hbehind]
    omega
  have hvalid : (o.extend byte).isValidChar := by
    rcases h.valid with hvalid | ⟨hleast, hbound⟩
    · exact .inl (by omega)
    · exact .inr ⟨by omega, by omega⟩
  refine ⟨?_, Nat.le_trans h.least hge⟩
  rw [Char.ofNat, dif_pos hvalid]
  rfl

end Opening

/-- What is open, if anything is, can be completed only to characters that are no ASCII. -/
def Sound (open? : Option Opening) : Prop :=
  ∀ o ∈ open?, o.Scalar

/-- Nothing is open at the beginning. -/
theorem sound_none : Sound none := nofun

/-! ## One byte -/

/-- A byte below `0x80` is a character where a sequence may begin. -/
theorem first_ascii {byte : Nat} (h : byte < 0x80) : first byte = ([Char.ofNat byte], none) :=
  if_pos h

/-- Other bytes yield characters beyond ASCII only. -/
theorem first_cases (byte : Nat) :
    (byte < 0x80 ∧ first byte = ([Char.ofNat byte], none)) ∨
      0x80 ≤ byte ∧ Sound (first byte).2 ∧
        ((∃ o, first byte = ([], some o)) ∨ first byte = ([replacement], none)) := by
  by_cases hbyte : byte < 0x80
  · exact .inl ⟨hbyte, first_ascii hbyte⟩
  · refine .inr ⟨by omega, ?_⟩
    unfold first
    rw [if_neg hbyte]
    split
    · next o ho =>
      refine ⟨fun p hp => ?_, .inl ⟨o, rfl⟩⟩
      cases hp
      exact Opening.ofByte?_scalar ho
    · exact ⟨sound_none, .inr rfl⟩

/-- What the first byte of a sequence opens can be completed to characters only. -/
theorem first_sound (byte : Nat) : Sound (first byte).2 := by
  rcases first_cases byte with ⟨-, hfirst⟩ | ⟨-, hsound, -⟩
  · rw [hfirst]
    exact sound_none
  · exact hsound

/-- Behind an opening a byte continues the sequence, completes it, or ends it unfinished and is
read as a first byte. -/
theorem further_cases {o : Opening} (ho : o.Scalar) (byte : Nat) :
    (0x80 ≤ byte ∧ ∃ p, p.Scalar ∧ further o byte = ([], some p)) ∨
    (0x80 ≤ byte ∧ ∃ c : Char, 0x80 ≤ c.toNat ∧ further o byte = ([c], none)) ∨
      further o byte = (replacement :: (first byte).1, (first byte).2) := by
  unfold further
  split
  · next hrange =>
    have hbyte : 0x80 ≤ byte := Nat.le_trans ho.low hrange.1
    split
    · next hbehind =>
      obtain ⟨hcode, hge⟩ := ho.toNat_ofNat hrange.1 hrange.2 hbehind
      exact .inr (.inl ⟨hbyte, _, by rwa [hcode], rfl⟩)
    · next behind hbehind =>
      exact .inl ⟨hbyte, _, ho.next hrange.1 hrange.2 hbehind, rfl⟩
  · exact .inr (.inr rfl)

/-- So can what a further byte leaves open. -/
theorem further_sound {o : Opening} (ho : o.Scalar) (byte : Nat) : Sound (further o byte).2 := by
  rcases further_cases ho byte with ⟨-, p, hp, heq⟩ | ⟨-, c, -, heq⟩ | heq
  · rw [heq]
    rintro q ⟨⟩
    exact hp
  · rw [heq]
    exact sound_none
  · rw [heq]
    exact first_sound byte

/-- A byte below `0x80` ends an opening unfinished. -/
theorem further_ascii {o : Opening} (ho : o.Scalar) {byte : Nat} (h : byte < 0x80) :
    further o byte = ([replacement, Char.ofNat byte], none) := by
  rcases further_cases ho byte with ⟨hbyte, -⟩ | ⟨hbyte, -⟩ | heq
  · omega
  · omega
  · rw [heq, first_ascii h]

/-- The replacement character is beyond ASCII. -/
theorem replacement_toNat : 0x80 ≤ replacement.toNat := by decide

/-! ## Any bytes -/

/-- Where nothing is open, a byte is the first of a sequence. -/
theorem decodeFrom_none_cons (byte : UInt8) (rest : Bytes) :
    decodeFrom none (byte :: rest) =
      (first byte.toNat).1 ++ decodeFrom (first byte.toNat).2 rest :=
  rfl

/-- Where something is open, a byte is a further one. -/
theorem decodeFrom_some_cons (o : Opening) (byte : UInt8) (rest : Bytes) :
    decodeFrom (some o) (byte :: rest) =
      (further o byte.toNat).1 ++ decodeFrom (further o byte.toNat).2 rest :=
  rfl

/-- A byte below `0x80` stands for its character, ends what is open before it, and what is behind
it is read by itself. -/
theorem decodeFrom_append_ascii {open? : Option Opening} (hopen : Sound open?) (text : Bytes)
    {byte : UInt8} (hbyte : byte.toNat < 0x80) (rest : Bytes) :
    decodeFrom open? (text ++ byte :: rest) =
      decodeFrom open? text ++ Char.ofNat byte.toNat :: decodeFrom none rest := by
  induction text generalizing open? with
  | nil =>
    cases open? with
    | none => simp [decodeFrom, first_ascii hbyte]
    | some o => simp [decodeFrom, further_ascii (hopen o rfl) hbyte]
  | cons b text ih =>
    cases open? with
    | none => simp [decodeFrom, ih (first_sound _)]
    | some o => simp [decodeFrom, ih (further_sound (hopen o rfl) _)]

/-- A character below `0x80` comes from the byte that stands for it. -/
theorem mem_of_mem_decodeFrom {open? : Option Opening} (hopen : Sound open?) {text : Bytes}
    {c : Char} (hc : c ∈ decodeFrom open? text) (hascii : c.toNat < 0x80) :
    ∃ byte ∈ text, byte.toNat < 0x80 ∧ c = Char.ofNat byte.toNat := by
  have hreplacement : c ≠ replacement := by
    rintro rfl
    exact absurd hascii (Nat.not_lt.2 replacement_toNat)
  induction text generalizing open? with
  | nil =>
    cases open? with
    | none => cases hc
    | some o => exact absurd (List.mem_singleton.1 hc) hreplacement
  | cons b text ih =>
    -- whatever else the byte yields, its own character is the only one below `0x80`
    have hfirst : c ∈ (first b.toNat).1 → b.toNat < 0x80 ∧ c = Char.ofNat b.toNat := by
      intro hmem
      rcases first_cases b.toNat with ⟨hb, heq⟩ | ⟨-, -, ⟨o, heq⟩ | heq⟩
      · rw [heq] at hmem
        exact ⟨hb, List.mem_singleton.1 hmem⟩
      · rw [heq] at hmem
        cases hmem
      · rw [heq] at hmem
        exact absurd (List.mem_singleton.1 hmem) hreplacement
    cases open? with
    | none =>
      rw [decodeFrom_none_cons] at hc
      rcases List.mem_append.1 hc with hmem | hmem
      · exact ⟨b, List.mem_cons_self .., hfirst hmem⟩
      · obtain ⟨byte, hbyte, h⟩ := ih (first_sound _) hmem
        exact ⟨byte, List.mem_cons_of_mem _ hbyte, h⟩
    | some o =>
      have ho := hopen o rfl
      rw [decodeFrom_some_cons] at hc
      rcases List.mem_append.1 hc with hmem | hmem
      · rcases further_cases ho b.toNat with ⟨-, p, -, heq⟩ | ⟨-, d, hd, heq⟩ | heq
        · rw [heq] at hmem
          cases hmem
        · rw [heq] at hmem
          rw [List.mem_singleton.1 hmem] at hascii
          exact absurd hascii (Nat.not_lt.2 hd)
        · rw [heq] at hmem
          rcases List.mem_cons.1 hmem with hmem | hmem
          · exact absurd hmem hreplacement
          · exact ⟨b, List.mem_cons_self .., hfirst hmem⟩
      · obtain ⟨byte, hbyte, h⟩ := ih (further_sound ho _) hmem
        exact ⟨byte, List.mem_cons_of_mem _ hbyte, h⟩

/-- Behind an opening something beyond ASCII comes in any case. -/
theorem exists_of_open {o : Opening} (ho : o.Scalar) (text : Bytes) :
    ∃ c ∈ decodeFrom (some o) text, 0x80 ≤ c.toNat := by
  induction text generalizing o with
  | nil => exact ⟨replacement, List.mem_singleton_self _, replacement_toNat⟩
  | cons b text ih =>
    rw [decodeFrom_some_cons]
    rcases further_cases ho b.toNat with ⟨-, p, hp, heq⟩ | ⟨-, c, hc, heq⟩ | heq
    · obtain ⟨c, hmem, hc⟩ := ih hp
      exact ⟨c, by rw [heq]; exact hmem, hc⟩
    · exact ⟨c, by rw [heq]; exact List.mem_cons_self .., hc⟩
    · exact ⟨replacement, by rw [heq]; exact List.mem_cons_self .., replacement_toNat⟩

/-- Bytes that decode to ASCII only are ASCII, and the text is one character for each. -/
theorem eq_of_ascii {text : Bytes} (h : ∀ c ∈ decodeFrom none text, c.toNat < 0x80) :
    (∀ byte ∈ text, byte.toNat < 0x80) ∧
      decodeFrom none text = text.map fun byte => Char.ofNat byte.toNat := by
  induction text with
  | nil => exact ⟨nofun, rfl⟩
  | cons b text ih =>
    rw [decodeFrom_none_cons] at h ⊢
    rcases first_cases b.toNat with ⟨hb, heq⟩ | ⟨-, hsound, ⟨o, heq⟩ | heq⟩
    · rw [heq] at h ⊢
      obtain ⟨hascii, htext⟩ := ih fun c hc => h c (List.mem_cons_of_mem _ hc)
      exact ⟨List.forall_mem_cons.2 ⟨hb, hascii⟩, congrArg (Char.ofNat b.toNat :: ·) htext⟩
    · rw [heq] at h hsound
      obtain ⟨c, hmem, hc⟩ := exists_of_open (hsound o rfl) text
      exact absurd (h c hmem) (Nat.not_lt.2 hc)
    · rw [heq] at h
      exact absurd (h replacement (List.mem_cons_self ..)) (Nat.not_lt.2 replacement_toNat)

/-- Bytes below `0x80` decode to one character each. -/
theorem decodeFrom_ascii {text : Bytes} (h : ∀ byte ∈ text, byte.toNat < 0x80) :
    decodeFrom none text = text.map fun byte => Char.ofNat byte.toNat := by
  induction text with
  | nil => rfl
  | cons b text ih =>
    obtain ⟨hb, htext⟩ := List.forall_mem_cons.1 h
    simp [decodeFrom, first_ascii hb, ih htext]

/-! ## Texts read back -/

/-- A byte within the bounds of an opening that expects no more completes it. -/
theorem further_last {low high value byte : Nat} (hlow : low ≤ byte) (hhigh : byte ≤ high) :
    further ⟨0, low, high, value⟩ byte = ([Char.ofNat (value * 64 + (byte - 0x80))], none) :=
  if_pos ⟨hlow, hhigh⟩

/-- A byte within the bounds of an opening that expects more goes into it. -/
theorem further_more {behind low high value byte : Nat} (hlow : low ≤ byte) (hhigh : byte ≤ high) :
    further ⟨behind + 1, low, high, value⟩ byte =
      ([], some ⟨behind, 0x80, 0xBF, value * 64 + (byte - 0x80)⟩) :=
  if_pos ⟨hlow, hhigh⟩

/-- The first byte of a sequence of two. -/
theorem first_two {byte : Nat} (hlow : 0xC2 ≤ byte) (hhigh : byte ≤ 0xDF) :
    first byte = ([], some ⟨0, 0x80, 0xBF, byte - 0xC0⟩) := by
  rw [first, if_neg (by omega), Opening.ofByte?, if_pos ⟨hlow, hhigh⟩]

/-- The first byte of a sequence of three, and the second, which does not make it overlong or a
surrogate. -/
theorem first_three (byte next : Nat) (hbyte : 0xE0 ≤ byte ∧ byte ≤ 0xEF)
    (hnext : 0x80 ≤ next ∧ next ≤ 0xBF) (hoverlong : byte = 0xE0 → 0xA0 ≤ next)
    (hsurrogate : byte = 0xED → next ≤ 0x9F) :
    ∃ low high, first byte = ([], some ⟨1, low, high, byte - 0xE0⟩) ∧ low ≤ next ∧ next ≤ high := by
  unfold first Opening.ofByte?
  rw [if_neg (by omega), if_neg (by omega)]
  by_cases hfirst : byte = 0xE0
  · subst hfirst
    exact ⟨0xA0, 0xBF, rfl, hoverlong rfl, hnext.2⟩
  by_cases hlast : byte = 0xED
  · subst hlast
    exact ⟨0x80, 0x9F, rfl, hnext.1, hsurrogate rfl⟩
  · rw [if_neg hfirst, if_neg hlast, if_pos ⟨by omega, hbyte.2⟩]
    exact ⟨0x80, 0xBF, rfl, hnext⟩

/-- The first byte of a sequence of four, and the second, which does not make it overlong or too
great. -/
theorem first_four (byte next : Nat) (hbyte : 0xF0 ≤ byte ∧ byte ≤ 0xF4)
    (hnext : 0x80 ≤ next ∧ next ≤ 0xBF) (hoverlong : byte = 0xF0 → 0x90 ≤ next)
    (hgreat : byte = 0xF4 → next ≤ 0x8F) :
    ∃ low high, first byte = ([], some ⟨2, low, high, byte - 0xF0⟩) ∧ low ≤ next ∧ next ≤ high := by
  unfold first Opening.ofByte?
  rw [if_neg (by omega), if_neg (by omega), if_neg (by omega), if_neg (by omega), if_neg (by omega)]
  by_cases hfirst : byte = 0xF0
  · subst hfirst
    exact ⟨0x90, 0xBF, rfl, hoverlong rfl, hnext.2⟩
  by_cases hlast : byte = 0xF4
  · subst hlast
    exact ⟨0x80, 0x8F, rfl, hnext.1, hgreat rfl⟩
  · rw [if_neg hfirst, if_pos ⟨by omega, by omega⟩]
    exact ⟨0x80, 0xBF, rfl, hnext⟩

/-- A character is read back from its bytes, whatever stands behind them. -/
theorem decodeFrom_encodeChar (c : Char) (rest : Bytes) :
    decodeFrom none (String.utf8EncodeChar c ++ rest) = c :: decodeFrom none rest := by
  have hvalid : c.toNat < 0xD800 ∨ 0xDFFF < c.toNat ∧ c.toNat < 0x110000 := c.valid
  have hbyte {code : Nat} (h : code < 256) : (UInt8.ofNat code).toNat = code :=
    UInt8.toNat_ofNat_of_lt' h
  have hchar {code : Nat} (h : code = c.toNat) : Char.ofNat code = c := by
    rw [h, Char.ofNat_toNat]
  unfold String.utf8EncodeChar
  rw [show c.val.toNat = c.toNat from rfl]
  generalize c.toNat = n at hvalid hchar
  dsimp only
  split
  · rw [List.singleton_append, decodeFrom_none_cons, hbyte (by omega), first_ascii (by omega),
      hchar rfl]
    rfl
  split
  · rw [List.cons_append, List.singleton_append, decodeFrom_none_cons, hbyte (by omega),
      first_two (by omega) (by omega), decodeFrom_some_cons, hbyte (by omega),
      further_last (by omega) (by omega), hchar (by omega)]
    rfl
  split
  · obtain ⟨low, high, hfirst, hlow, hhigh⟩ := first_three (n / 4096 % 16 + 224)
      (n / 64 % 64 + 128) (by omega) (by omega) (by omega) (by omega)
    rw [List.cons_append, List.cons_append, List.singleton_append, decodeFrom_none_cons,
      hbyte (by omega), hfirst, decodeFrom_some_cons, hbyte (by omega), further_more hlow hhigh,
      decodeFrom_some_cons, hbyte (by omega), further_last (by omega) (by omega), hchar (by omega)]
    rfl
  · obtain ⟨low, high, hfirst, hlow, hhigh⟩ := first_four (n / 262144 % 8 + 240)
      (n / 4096 % 64 + 128) (by omega) (by omega) (by omega) (by omega)
    rw [List.cons_append, List.cons_append, List.cons_append, List.singleton_append,
      decodeFrom_none_cons, hbyte (by omega), hfirst, decodeFrom_some_cons, hbyte (by omega),
      further_more hlow hhigh, decodeFrom_some_cons, hbyte (by omega),
      further_more (by omega) (by omega), decodeFrom_some_cons, hbyte (by omega),
      further_last (by omega) (by omega), hchar (by omega)]
    rfl

/-- A text is read back from its bytes. -/
theorem decode_encode (text : String) : decode (encode text) = text := by
  have hchars (chars : List Char) :
      decodeFrom none (chars.flatMap String.utf8EncodeChar) = chars := by
    induction chars with
    | nil => rfl
    | cons c chars ih => rw [List.flatMap_cons, decodeFrom_encodeChar, ih]
  rw [decode, encode, hchars, String.ofList_toList]

/-- Different texts are written with different bytes. -/
theorem encode_injective : Function.Injective encode :=
  Function.LeftInverse.injective decode_encode

/-- Bytes are the text that they are written with, and no others are a text. -/
theorem text?_eq_some_iff {bytes : Bytes} {text : String} :
    text? bytes = some text ↔ bytes = encode text := by
  unfold text?
  constructor
  · intro h
    split at h
    · next heq =>
      cases h
      exact heq.symm
    · cases h
  · rintro rfl
    rw [decode_encode, if_pos rfl]

/-- A character below `0x80` is written with one byte. -/
theorem byte_eq {byte : UInt8} {c : Char} (hascii : byte.toNat < 0x80)
    (h : c = Char.ofNat byte.toNat) : byte = UInt8.ofNat c.toNat := by
  have hvalid : byte.toNat.isValidChar := .inl (by omega)
  have hcode : c.toNat = byte.toNat := by
    rw [h, Char.ofNat, dif_pos hvalid]
    rfl
  rw [hcode, UInt8.ofNat_toNat]

/-- A character below `0x80` of what bytes decode to is one of the bytes. -/
theorem mem_of_mem_decode {bytes : Bytes} {c : Char} (h : c ∈ (decode bytes).toList)
    (hascii : c.toNat < 0x80) : UInt8.ofNat c.toNat ∈ bytes := by
  rw [decode, String.toList_ofList] at h
  obtain ⟨byte, hbyte, hlow, hchar⟩ := mem_of_mem_decodeFrom sound_none h hascii
  rwa [← byte_eq hlow hchar]

/-- A byte below `0x80` of a text is one of its characters. -/
theorem mem_of_mem_encode {text : String} {c : Char} (h : UInt8.ofNat c.toNat ∈ encode text)
    (hascii : c.toNat < 0x80) : c ∈ text.toList := by
  have hcode : (UInt8.ofNat c.toNat).toNat = c.toNat := UInt8.toNat_ofNat_of_lt'
    (Nat.lt_trans hascii (by decide))
  obtain ⟨before, behind, hsplit⟩ := List.append_of_mem h
  have htext := decode_encode text
  rw [hsplit, decode, decodeFrom_append_ascii sound_none before (by omega), hcode,
    Char.ofNat_toNat] at htext
  rw [← htext, String.toList_ofList]
  exact List.mem_append_right _ (List.mem_cons_self ..)

/-- The bytes of a text are those of its parts. -/
theorem encode_append (a b : String) : encode (a ++ b) = encode a ++ encode b := by
  simp [encode]


/-- A sequence that is cut off by a line feed becomes one character, and the line feed stays. -/
example : (decode [0x23, 0xE2, 0x82, 0x0A, 0x31]).toList = ['#', '\uFFFD', '\n', '1'] := by
  decide +kernel

end Reckon.Utf8
