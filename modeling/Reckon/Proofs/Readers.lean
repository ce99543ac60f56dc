import Mathlib.Data.Stream.Init
import Reckon.Proofs.Lexing.Reading

/-!
# Readers under any calls

A reader can be asked for a token in two ways and for its text, and in any order. `endless` are the
tokens of a text with its end again and again behind them, which is what reading on and on yields
(`Cursor.endless_eq_cons`). A `Dialogue` is a reader with the exchanges so far. However it went, the
reader stands in the endless stream behind as many tokens as calls have advanced, and it has ended
exactly if `next?` has returned the end (`Dialogue.Follows`): each call preserves this
(`Dialogue.Follows.ask`), and so does a sequence of calls (`dialogue_follows`).
`calls_follow_stream` says from it what the next call returns.
-/

namespace Reckon

/-! ## The endless stream -/

namespace Cursor

/-- The tokens from a place on, the last of which, the end of the text, is repeated for ever. -/
def endless (c : Cursor) : Stream' Placed :=
  c.tokens ++ₛ Stream'.const (c.tokens.getLast c.tokens_ne_nil)

/-- Behind the end of the text the end is read again, at the same position. -/
theorem next_next_of_finish {c : Cursor} (h : c.next.1.token = .finish) :
    c.next.2.next = c.next := by
  obtain ⟨text, position⟩ := c
  rcases blank_or_exists_gap text with hblank | ⟨gap, first, rest, hgap, hfirst, rfl⟩
  · have hnext : next ⟨text, position⟩ = nextFrom [] (position + text.length) := by
      have hskip := nextFrom_blanks hblank [] position
      rwa [List.append_nil] at hskip
    rw [hnext]
    rfl
  · have hnext : (next ⟨gap ++ first :: rest, position⟩).1.token =
        (Lexeme.scan first rest).1.token := by
      rw [next, nextFrom_blanks hgap, nextFrom_scan hfirst]
    rw [hnext] at h
    exact absurd h (Lexeme.scan_stands rest hfirst).1.token_ne_finish

/-- The stream depends on the next token only. -/
theorem endless_congr {c d : Cursor} (h : c.next = d.next) : c.endless = d.endless := by
  simp only [endless, tokens_congr h]

/-- Reading takes the first token off the endless stream. -/
theorem endless_eq_cons (c : Cursor) : c.endless = Stream'.cons c.next.1 c.next.2.endless := by
  by_cases h : c.next.1.token = .finish
  · have htokens : c.tokens = [c.next.1] := by rw [tokens, dif_pos h]
    rw [endless_congr (next_next_of_finish h)]
    simp only [endless, htokens, List.getLast_singleton, Stream'.cons_append_stream,
      Stream'.nil_append_stream, ← Stream'.const_eq]
  · have htokens : c.tokens = c.next.1 :: c.next.2.tokens := by rw [tokens, dif_neg h]
    simp only [endless, htokens, List.getLast_cons c.next.2.tokens_ne_nil,
      Stream'.cons_append_stream]

end Cursor

/-- The tokens of a text, with its end repeated for ever at its position. -/
def endless (source : String) : Stream' Placed :=
  tokens source ++ₛ Stream'.const ⟨.finish, 1 + source.length⟩

/-- It is what there is to read from the start of the text on. -/
theorem Cursor.endless_start (source : String) :
    (start source.toList).endless = Reckon.endless source := by
  have hlast : (Reckon.tokens source).getLast (tokens_ne_nil _) =
      ⟨.finish, 1 + source.length⟩ := by
    simp only [tokens_eq_body_append, List.getLast_concat]
  rw [Reckon.endless, ← hlast]
  rfl

/-! ## Dialogues -/

namespace Lexer

/-- What a reader can be asked. -/
inductive Call where
  | nextToken
  | next
  | source

/-- A call with what it returned. -/
inductive Exchange where
  | nextToken (t : Placed)
  | next (t? : Option Placed)
  | source (text : String)
  deriving DecidableEq

/-- Makes a call. -/
def ask (l : Lexer) : Call → Exchange × Lexer
  | .nextToken => (.nextToken l.nextToken.1, l.nextToken.2)
  | .next => (.next l.next?.1, l.next?.2)
  | .source => (.source l.source, l)

/-- Whether it is `next?` that was called and the end of the text that it returned. -/
def Exchange.isEnd : Exchange → Bool
  | .next (some t) => t.token = .finish
  | _ => false

/-- Whether some `next?` has returned the end of the text. -/
def endSeen (past : List Exchange) : Bool :=
  past.any Exchange.isEnd

/-- How many calls have advanced, where the latest one comes first: every `nextToken`, and every
`next?` that was made before some `next?` had returned the end. -/
def advances : List Exchange → Nat
  | [] => 0
  | .nextToken _ :: past => advances past + 1
  | .next _ :: past => if endSeen past then advances past else advances past + 1
  | .source _ :: past => advances past

/-- A reader with the exchanges so far, the latest first. -/
structure Dialogue where
  reader : Lexer
  past : List Exchange

/-- The dialogue with one call more. -/
def Dialogue.ask (d : Dialogue) (call : Call) : Dialogue :=
  ⟨(d.reader.ask call).2, (d.reader.ask call).1 :: d.past⟩

/-- A reader of a text is asked one thing after the other. -/
def dialogue (source : String) (calls : List Call) : Dialogue :=
  calls.foldl Dialogue.ask ⟨ofSource source, []⟩

/-! ## Where a reader stands -/

/-- The reader stands in the endless stream of its text where the calls have led it, and it has
ended if `next?` has come to the end. -/
structure Dialogue.Follows (source : String) (d : Dialogue) : Prop where
  whole : d.reader.source = source
  stream : d.reader.cursor.endless = (endless source).drop (advances d.past)
  ended : d.reader.ended = endSeen d.past

section
variable {source : String} {d : Dialogue}

/-- Behind the end, an iterator has nothing more. -/
theorem next?_of_ended {l : Lexer} (h : l.ended = true) : l.next? = (none, l) :=
  if_pos h

/-- Up to the end, an iterator has the next token. -/
theorem next?_of_not_ended {l : Lexer} (h : l.ended = false) :
    l.next? = (some l.nextToken.1,
      { l.nextToken.2 with ended := decide (l.nextToken.1.token = .finish) }) := by
  rw [next?, h]
  rfl

/-- The next token is the one that the calls have led to. -/
theorem Dialogue.Follows.nextToken (h : d.Follows source) :
    d.reader.nextToken.1 = (endless source).get (advances d.past) := by
  have hstream := d.reader.cursor.endless_eq_cons.symm.trans h.stream
  have hhead := congrArg Stream'.head hstream
  rwa [Stream'.head_cons, Stream'.head_drop] at hhead

/-- A token that is read is taken off what is left. -/
theorem Dialogue.Follows.stream_nextToken (h : d.Follows source) :
    d.reader.nextToken.2.cursor.endless = (endless source).drop (advances d.past + 1) := by
  have hstream := d.reader.cursor.endless_eq_cons.symm.trans h.stream
  have htail := congrArg Stream'.tail hstream
  rwa [Stream'.tail_cons, Stream'.tail_drop'] at htail

/-- Each call leaves the reader where it belongs. -/
theorem Dialogue.Follows.ask (h : d.Follows source) (call : Call) :
    (d.ask call).Follows source := by
  cases call with
  | nextToken => exact ⟨h.whole, h.stream_nextToken, h.ended⟩
  | source => exact ⟨h.whole, h.stream, h.ended⟩
  | next =>
    -- A reader that has ended reads nothing, and the call does not count either.
    cases hended : d.reader.ended with
    | true =>
      have hseen : endSeen d.past = true := h.ended.symm.trans hended
      have hask : d.ask .next = ⟨d.reader, .next none :: d.past⟩ := by
        rw [Dialogue.ask, Lexer.ask, next?_of_ended hended]
      rw [hask]
      refine ⟨h.whole, ?_, h.ended⟩
      rw [advances, if_pos hseen]
      exact h.stream
    | false =>
      have hseen : endSeen d.past = false := h.ended.symm.trans hended
      have hask : d.ask .next = ⟨{ d.reader.nextToken.2 with
          ended := decide (d.reader.nextToken.1.token = .finish) },
          .next (some d.reader.nextToken.1) :: d.past⟩ := by
        rw [Dialogue.ask, Lexer.ask, next?_of_not_ended hended]
      rw [hask]
      refine ⟨h.whole, ?_, ?_⟩
      · rw [advances, if_neg (by rw [hseen]; exact Bool.false_ne_true)]
        exact h.stream_nextToken
      · show _ = (decide (d.reader.nextToken.1.token = .finish) || endSeen d.past)
        rw [hseen, Bool.or_false]

/-- So do calls one after the other. -/
theorem Dialogue.Follows.asks (h : d.Follows source) (calls : List Call) :
    (calls.foldl Dialogue.ask d).Follows source := by
  induction calls generalizing d with
  | nil => exact h
  | cons call calls ih => exact ih (h.ask call)

/-- A dialogue follows the stream. -/
theorem dialogue_follows (source : String) (calls : List Call) :
    (dialogue source calls).Follows source := by
  have hstart : Dialogue.Follows source ⟨ofSource source, []⟩ :=
    ⟨rfl, Cursor.endless_start source, rfl⟩
  exact hstart.asks calls

end

/-- However a reader of a text was asked before, `nextToken`, and `next?` unless a `next?` has
returned the end, return the token of the endless stream to which the calls have advanced. Once a
`next?` has returned the end, and not before, `next?` returns nothing and leaves the reader as it
is. The text is always returned as a whole, and that leaves the reader as it is, too. -/
theorem calls_follow_stream (source : String) (calls : List Call) :
    let d := dialogue source calls
    let token := (endless source).get (advances d.past)
    d.reader.nextToken.1 = token ∧
      (endSeen d.past = false → d.reader.next?.1 = some token) ∧
      (d.reader.next?.1 = none ↔ endSeen d.past = true) ∧
      (d.reader.next?.1 = none → d.reader.next?.2 = d.reader) ∧
      d.reader.ask .source = (.source source, d.reader) := by
  intro d token
  have hfollows : d.Follows source := dialogue_follows source calls
  have hsource : d.reader.ask .source = (.source source, d.reader) := by
    rw [Lexer.ask, hfollows.whole]
  cases hended : d.reader.ended with
  | true =>
    have hseen : endSeen d.past = true := hfollows.ended.symm.trans hended
    rw [next?_of_ended hended, hseen]
    exact ⟨hfollows.nextToken, nofun, iff_of_true rfl rfl, fun _ => rfl, hsource⟩
  | false =>
    have hseen : endSeen d.past = false := hfollows.ended.symm.trans hended
    rw [next?_of_not_ended hended, hseen]
    exact ⟨hfollows.nextToken, fun _ => congrArg some hfollows.nextToken, by simp, nofun, hsource⟩

/-- The end that `nextToken` returns does not end `next?`. -/
example : (dialogue "+" [.nextToken, .nextToken, .next, .source, .next, .nextToken]).past =
    [.nextToken ⟨.finish, 2⟩, .next none, .source "+", .next (some ⟨.finish, 2⟩),
      .nextToken ⟨.finish, 2⟩, .nextToken ⟨.plus, 1⟩] := by decide +kernel

end Lexer

end Reckon
