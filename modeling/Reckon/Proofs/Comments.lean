import Reckon.Proofs.Acceptance
import Reckon.Proofs.Decoding
import Reckon.Proofs.Ledger.Books
import Reckon.Proofs.Tiling

/-!
# Comments of a file

Lines of bytes are decoded one by one, whatever they hold: a line feed ends a sequence that is not
complete (`splitLines_decode`). So a comment is nothing to the text that is evaluated, and a text
with a value shows what each byte of the other lines is, since all characters of such a text are
those of tokens and blanks (`mem_alphabet_of_value`), and characters below `0x80` have one byte
each. `evaluateFile_comments` puts both together for the content of a file.
-/

namespace Reckon

/-! ## Lines -/

section
variable {α : Type} [DecidableEq α] {feed : α}

/-- The parts of a list up to and with each `feed`, and what is left behind the last. -/
def segments (feed : α) : List α → List (List α)
  | [] => []
  | a :: rest =>
    if a = feed then [a] :: segments feed rest
    else
      match segments feed rest with
      | [] => [[a]]
      | segment :: segments => (a :: segment) :: segments

/-- A line that ends is the first segment, and behind it come those of the rest. -/
theorem segments_append_feed {line : List α} (h : feed ∉ line) (rest : List α) :
    segments feed (line ++ feed :: rest) = (line ++ [feed]) :: segments feed rest := by
  induction line with
  | nil => rw [List.nil_append, segments, if_pos rfl, List.nil_append]
  | cons a line ih =>
    rw [List.mem_cons, not_or] at h
    rw [List.cons_append, segments, if_neg (Ne.symm h.1), ih h.2, List.cons_append]

/-- Where no line ends, what there is is one segment. -/
theorem segments_of_not_mem {line : List α} (h : feed ∉ line) (hne : line ≠ []) :
    segments feed line = [line] := by
  induction line with
  | nil => exact absurd rfl hne
  | cons a line ih =>
    rw [List.mem_cons, not_or] at h
    rw [segments, if_neg (Ne.symm h.1)]
    cases line with
    | nil => rfl
    | cons b line => rw [ih h.2 (List.cons_ne_nil _ _)]

/-- A list goes on behind its first `feed`, if it has any. -/
theorem feed_induction (feed : α) {motive : List α → Prop}
    (last : ∀ line, feed ∉ line → motive line)
    (line : ∀ line rest, feed ∉ line → motive rest → motive (line ++ feed :: rest)) :
    ∀ text, motive text := by
  intro text
  by_cases h : feed ∈ text
  · obtain ⟨before, rest, htext, hbefore⟩ := List.eq_append_cons_of_mem h
    rw [htext]
    exact line before rest hbefore (feed_induction feed last line rest)
  · exact last text h
termination_by text => text.length
decreasing_by
  rw [htext, List.length_append, List.length_cons]
  omega

/-- What ends in a `feed` is cut by itself. -/
theorem segments_append {before : List α} (h : before = [] ∨ before.getLast? = some feed)
    (behind : List α) :
    segments feed (before ++ behind) = segments feed before ++ segments feed behind := by
  induction before using feed_induction feed with
  | last line hline =>
    rcases h with rfl | h
    · rfl
    · exact absurd (List.mem_of_getLast? h) hline
  | line line rest hline ih =>
    have hrest : rest = [] ∨ rest.getLast? = some feed := by
      rcases h with h | h
      · simp at h
      · cases rest with
        | nil => exact .inl rfl
        | cons a rest => exact .inr (by simpa [List.getLast?_append] using h)
    rw [List.append_assoc, List.cons_append, segments_append_feed hline, ih hrest,
      segments_append_feed hline, List.cons_append]

end

/-- The lines of a text are its segments at line feeds. -/
theorem splitLines_eq (text : List Char) : splitLines text = segments '\n' text := by
  induction text with
  | nil => rfl
  | cons c text ih =>
    rw [splitLines, segments, ih]
    cases segments '\n' text <;> rfl

/-- The line feed as a byte. -/
def lineFeed : UInt8 := 0x0A

/-- The lines of a content, each with the line feed that ends it. -/
def byteLines (content : Bytes) : List Bytes :=
  segments lineFeed content

/-- Bytes without a line feed are read as characters without one. -/
theorem line_feed_not_mem_decode {line : Bytes} (h : lineFeed ∉ line) :
    '\n' ∉ Utf8.decodeFrom none line := by
  intro hmem
  obtain ⟨byte, hbyte, hascii, hchar⟩ :=
    Utf8.mem_of_mem_decodeFrom Utf8.sound_none hmem (by decide)
  obtain rfl : byte = lineFeed := Utf8.byte_eq hascii hchar
  exact h hbyte

/-- Whatever is open, a line feed ends it, so lines are read each by itself. -/
theorem decodeFrom_line_feed (line rest : Bytes) :
    Utf8.decodeFrom none (line ++ lineFeed :: rest) =
      Utf8.decodeFrom none line ++ '\n' :: Utf8.decodeFrom none rest :=
  Utf8.decodeFrom_append_ascii Utf8.sound_none line (by decide) rest

/-- Each line of bytes is decoded by itself. -/
theorem splitLines_decode (content : Bytes) :
    splitLines (Utf8.decodeFrom none content) =
      (byteLines content).map (Utf8.decodeFrom none) := by
  rw [splitLines_eq, byteLines]
  induction content using feed_induction lineFeed with
  | last line hline =>
    by_cases hempty : line = []
    · rw [hempty]
      rfl
    · have hnonempty : Utf8.decodeFrom none line ≠ [] := by
        intro hnil
        obtain ⟨-, hmap⟩ := Utf8.eq_of_ascii fun c (hc : c ∈ Utf8.decodeFrom none line) => by
          rw [hnil] at hc
          cases hc
        exact hempty (List.map_eq_nil_iff.1 (hmap.symm.trans hnil))
      rw [segments_of_not_mem hline hempty,
        segments_of_not_mem (line_feed_not_mem_decode hline) hnonempty, List.map_singleton]
  | line line rest hline ih =>
    have hend : Utf8.decodeFrom none (line ++ [lineFeed]) = Utf8.decodeFrom none line ++ ['\n'] :=
      decodeFrom_line_feed line []
    rw [decodeFrom_line_feed, segments_append_feed hline,
      segments_append_feed (line_feed_not_mem_decode hline), List.map_cons, ih, hend]

/-! ## Comments -/

/-- The text of a content without its comments. -/
theorem stripComments_decode (content : Bytes) :
    stripComments (Utf8.decode content) = String.ofList
      (((byteLines content).map (Utf8.decodeFrom none)).filter (!isComment ·)).flatten := by
  rw [stripComments, Utf8.decode, String.toList_ofList, splitLines_decode]

/-- Bytes of a comment are read as a comment. -/
theorem isComment_decode {blanks comment : Bytes}
    (hblanks : ∀ byte ∈ blanks, byte = 0x20 ∨ byte = 0x09) :
    isComment (Utf8.decodeFrom none (blanks ++ 0x23 :: comment)) := by
  have hascii : ∀ byte ∈ blanks, byte.toNat < 0x80 := by
    intro byte hbyte
    rcases hblanks byte hbyte with rfl | rfl <;> decide
  have hspace : ∀ c ∈ Utf8.decodeFrom none blanks, isWhiteSpace c := by
    rw [Utf8.decodeFrom_ascii hascii]
    intro c hc
    obtain ⟨byte, hbyte, rfl⟩ := List.mem_map.1 hc
    rcases hblanks byte hbyte with rfl | rfl <;> decide
  have hhash : (0x23 : UInt8).toNat < 0x80 := by decide
  rw [Utf8.decodeFrom_append_ascii Utf8.sound_none blanks hhash comment, isComment,
    List.dropWhile_append_of_pos hspace]
  rfl

/-- A comment makes no difference to the text that is evaluated. -/
theorem stripComments_comment {before blanks comment : Bytes}
    (hbefore : before = [] ∨ before.getLast? = some lineFeed)
    (hblanks : ∀ byte ∈ blanks, byte = 0x20 ∨ byte = 0x09) (hcomment : lineFeed ∉ comment)
    (behind : Bytes) :
    stripComments (Utf8.decode (before ++ blanks ++ 0x23 :: comment ++ lineFeed :: behind)) =
      stripComments (Utf8.decode (before ++ behind)) := by
  have hline : lineFeed ∉ blanks ++ 0x23 :: comment := by
    intro hmem
    rcases List.mem_append.1 hmem with hmem | hmem
    · rcases hblanks _ hmem with h | h <;> exact absurd h (by decide)
    · rcases List.mem_cons.1 hmem with h | hmem
      · exact absurd h (by decide)
      · exact hcomment hmem
  have hlines : byteLines (before ++ blanks ++ 0x23 :: comment ++ lineFeed :: behind) =
      byteLines before ++ (blanks ++ 0x23 :: comment ++ [lineFeed]) :: byteLines behind := by
    rw [List.append_assoc before, List.append_assoc before, byteLines, segments_append hbefore,
      segments_append_feed hline]
    rfl
  have hstripped : isComment (Utf8.decodeFrom none (blanks ++ 0x23 :: comment ++ [lineFeed])) := by
    rw [List.append_assoc, List.cons_append]
    exact isComment_decode hblanks
  have hrest : byteLines (before ++ behind) = byteLines before ++ byteLines behind :=
    segments_append hbefore behind
  rw [stripComments_decode, stripComments_decode, hlines, hrest, List.map_append, List.map_cons,
    List.filter_append, List.filter_cons_of_neg (by simpa using hstripped), List.map_append,
    List.filter_append]

/-! ## Texts with a value -/

/-- The characters that texts with a value are written with. -/
def alphabet : List Char :=
  "0123456789.eE+-*/() \t\r\n".toList

/-- Blanks are in the alphabet. -/
theorem mem_alphabet_of_isBlank {c : Char} (h : isBlank c) : c ∈ alphabet := by
  simp only [isBlank, Bool.or_eq_true, decide_eq_true_eq] at h
  rcases h with ((rfl | rfl) | rfl) | rfl <;> decide

/-- Digits are in the alphabet. -/
theorem mem_alphabet_of_isDigit {c : Char} (h : c.isDigit) : c ∈ alphabet := by
  have hdigits : ∀ n < 10, Char.ofNat (48 + n) ∈ alphabet := by decide
  have hrange : 48 ≤ c.toNat ∧ c.toNat ≤ 57 := Char.isDigit_iff_toNat.1 h
  have hmem := hdigits (c.toNat - 48) (by omega)
  rwa [Nat.add_sub_cancel' hrange.1, Char.ofNat_toNat] at hmem

/-- A token other than an invalid one is written with these characters. -/
theorem Lexeme.Stands.mem_alphabet {behind : List Char} {l : Lexeme} (h : Stands behind l)
    (hvalid : l.token ≠ .invalid) : ∀ c ∈ l.text, c ∈ alphabet := by
  show l.text ⊆ alphabet
  cases h with
  | @number n value hn _ =>
    intro c hc
    rcases hn.text_cases hc with hdigit | hmark
    · exact mem_alphabet_of_isDigit hdigit
    · have hmarks : ['.', 'e', 'E', '+', '-'] ⊆ alphabet := by decide
      exact hmarks hmark
  | infinite | other => exact absurd rfl hvalid
  | _ => decide

/-- The tokens of a text with a value are none that is invalid. -/
theorem token_ne_invalid_of_value {source : String} {maxDepth : Nat} {value : Float}
    (h : evaluateWith source maxDepth = .ok value) : ∀ t ∈ tokens source, t.token ≠ .invalid := by
  cases Session.finish_realises source maxDepth with
  | failed _ houtcome => cases houtcome.symm.trans h
  | rejected _ _ houtcome _ => cases houtcome.symm.trans h
  | accepted _ hresult _ _ _ =>
    obtain ⟨-, htokens, -⟩ := parseText_eq_ok_iff.1 hresult
    obtain ⟨position, hfinish⟩ := tokens_eq_body source
    intro t ht
    rw [hfinish, ← htokens] at ht
    rcases List.mem_append.1 ht with ht | ht
    · exact (Expr.token_of_mem ht).2
    · rw [List.mem_singleton.1 ht]
      exact nofun

/-- A text with a value has no characters but those of the alphabet. -/
theorem mem_alphabet_of_value {source : String} {maxDepth : Nat} {value : Float}
    (h : evaluateWith source maxDepth = .ok value) : ∀ c ∈ source.toList, c ∈ alphabet := by
  obtain ⟨tiles, last, htiled, htext, htokens⟩ := (Cursor.start source.toList).exists_tiled
  have hvalid := token_ne_invalid_of_value h
  rw [tokens, htokens] at hvalid
  have hcover : tiledText tiles last = source.toList := htext
  rw [← hcover]
  intro c hc
  rcases List.mem_append.1 hc with hc | hc
  · obtain ⟨tile, htile, hc⟩ := List.mem_flatMap.1 hc
    obtain ⟨before, after, hsplit⟩ := List.append_of_mem htile
    obtain ⟨hgap, hstands⟩ := htiled.stands hsplit
    have htoken := hvalid _ (List.mem_of_getElem? (getElem?_place hsplit))
    rcases List.mem_append.1 hc with hc | hc
    · exact mem_alphabet_of_isBlank (hgap c hc)
    · exact hstands.mem_alphabet htoken c hc
  · exact mem_alphabet_of_isBlank (htiled.last_isBlank c hc)

/-- Every byte of a line that is no comment is that of a character of the alphabet, if the text
has a value. -/
theorem mem_alphabet_of_line {content : Bytes} {maxDepth : Nat} {value : Float}
    (h : contentOutcome content maxDepth = .ok value) {line : Bytes}
    (hline : line ∈ byteLines content)
    (hcomment : ¬ isComment (Utf8.decodeFrom none line)) :
    ∀ byte ∈ line, byte ∈ alphabet.map fun c => UInt8.ofNat c.toNat := by
  have hchars : ∀ c ∈ Utf8.decodeFrom none line, c ∈ alphabet := by
    intro c hc
    refine mem_alphabet_of_value h c ?_
    rw [stripComments_decode, String.toList_ofList]
    refine List.mem_flatten.2 ⟨_, List.mem_filter.2 ⟨List.mem_map_of_mem hline, ?_⟩, hc⟩
    simpa using hcomment
  have hascii : alphabet.all fun c => c.toNat < 0x80 := by decide
  obtain ⟨hbytes, htext⟩ := Utf8.eq_of_ascii fun c hc =>
    of_decide_eq_true (List.all_eq_true.1 hascii c (hchars c hc))
  intro byte hbyte
  have hchar : Char.ofNat byte.toNat ∈ alphabet := by
    refine hchars _ ?_
    rw [htext]
    exact List.mem_map.2 ⟨byte, hbyte, rfl⟩
  exact List.mem_map.2 ⟨_, hchar, (Utf8.byte_eq (hbytes byte hbyte) rfl).symm⟩

/-! ## Files -/

/-- Evaluating a file comes to the outcome of its content. -/
theorem evaluateFile_answer (journal : Journal) {input : Path} (maxDepth : Nat) {w : World}
    {content : Bytes} (h : w.files.read input = .ok content) :
    ((evaluateFile journal input maxDepth : StateM World _) w).1 =
      .ok (contentOutcome content maxDepth) :=
  ((Carries.evaluateFile_ok (b := (Ledger.ofWorld w).books) journal maxDepth h).world
    (.evaluateFile journal input maxDepth) rfl).1

/-- A comment makes no difference to what a file evaluates to, whatever bytes it holds, and if a
file has a value, all other lines hold nothing but what expressions are written with. -/
theorem evaluateFile_comments (journal : Journal) (input : Path) (maxDepth : Nat) (w : World) :
    (∀ before blanks comment behind : Bytes,
      (before = [] ∨ before.getLast? = some lineFeed) →
      (∀ byte ∈ blanks, byte = 0x20 ∨ byte = 0x09) → lineFeed ∉ comment →
      w.files.read input = .ok (before ++ blanks ++ 0x23 :: comment ++ lineFeed :: behind) →
      ∀ (journal' : Journal) (input' : Path) (w' : World),
        w'.files.read input' = .ok (before ++ behind) →
        ∃ outcome, ((evaluateFile journal input maxDepth : StateM World _) w).1 = .ok outcome ∧
          ((evaluateFile journal' input' maxDepth : StateM World _) w').1 = .ok outcome) ∧
    ∀ (content : Bytes) (value : Float), w.files.read input = .ok content →
      ((evaluateFile journal input maxDepth : StateM World _) w).1 = .ok (.ok value) →
      ∀ line ∈ byteLines content, ¬ isComment (Utf8.decode line).toList →
        ∀ byte ∈ line, byte ∈ Utf8.encode "0123456789.eE+-*/() \t\r\n" := by
  constructor
  · intro before blanks comment behind hbefore hblanks hcomment hread journal' input' w' hread'
    refine ⟨_, evaluateFile_answer journal maxDepth hread, ?_⟩
    rw [evaluateFile_answer journal' maxDepth hread', contentOutcome, contentOutcome,
      stripComments_comment hbefore hblanks hcomment]
  · intro content value hread hvalue line hline hcomment
    rw [evaluateFile_answer journal maxDepth hread] at hvalue
    rw [Utf8.decode, String.toList_ofList] at hcomment
    exact mem_alphabet_of_line (Except.ok.inj hvalue) hline hcomment

theorem evaluateFile_comments_cut_off :
    let t : FileTree := ⟨[], [(["a"], .file [0x20, 0x23, 0xE2, 0x82, 0x0A, 0x31]),
      (["b"], .file [0x31])], [], by decide +kernel⟩
    (∃ outcome,
      ((evaluateFile none ⟨"a"⟩ 0 : StateM World _) (.ofFiles t)).1 = .ok outcome ∧
        ((evaluateFile none ⟨"b"⟩ 0 : StateM World _) (.ofFiles t)).1 = .ok outcome) ∧
      ∀ byte ∈ [(0x31 : UInt8)], byte ∈ Utf8.encode "0123456789.eE+-*/() \t\r\n" := by
  intro t
  obtain ⟨hcomment, hvalue⟩ := evaluateFile_comments none ⟨"a"⟩ 0 (.ofFiles t)
  have ha : t.read ⟨"a"⟩ = .ok [0x20, 0x23, 0xE2, 0x82, 0x0A, 0x31] := by cbv
  have hb : t.read ⟨"b"⟩ = .ok [0x31] := by cbv
  refine ⟨hcomment [] [0x20] [0xE2, 0x82] [0x31] (.inl rfl)
    (List.forall_mem_singleton.2 (.inl rfl)) (by decide) ha none ⟨"b"⟩ (.ofFiles t) hb, ?_⟩
  have hone : contentOutcome [0x20, 0x23, 0xE2, 0x82, 0x0A, 0x31] 0 = .ok 1.0 := by decide +kernel
  refine hvalue _ 1.0 ha ?_ [0x31] (by decide +kernel) (by decide +kernel)
  rw [evaluateFile_answer none 0 ha, hone]

end Reckon
