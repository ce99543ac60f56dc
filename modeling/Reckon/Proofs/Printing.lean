import Reckon.Proofs.Acceptance
import Reckon.Proofs.Lexing
import Reckon.Proofs.Nesting

/-!
# Printing with few parentheses

An `Ast` is an expression as a tree that knows neither parentheses nor positions. `Ast.text` prints
it, with parentheses only around operands that would be grouped otherwise, and `Ast.evalAt` is what
it comes to where the text starts at a given position. `Ast.placed` is the derivation that the text
is meant to have; the parentheses are just those that the grammar asks for
(`Ast.placed_derives`), and characters that meet where two tokens meet never make up another token
(`Ast.writes`). So evaluating the text is evaluating the tree, and an error is blamed on an operator
of the text that fails so (`evaluateWith_text`).
-/

namespace Reckon

/-- A numeric literal with the finite number that it denotes. -/
structure Literal where
  numeral : Numeral
  value : Float
  wellFormed : numeral.WellFormed
  double?_eq : numeral.decimal.double? = some value

/-- An expression as a tree. -/
inductive Ast where
  | literal (l : Literal)
  | unary (op : UnaryOp) (x : Ast)
  | binary (op : BinaryOp) (x y : Ast)

namespace Ast

def isLiteral : Ast → Bool
  | literal _ => true
  | _ => false

/-- A sum or a difference. -/
def isAdditive : Ast → Bool
  | binary .add _ _ | binary .sub _ _ => true
  | _ => false

/-- A product or a quotient. -/
def isMultiplicative : Ast → Bool
  | binary .mul _ _ | binary .div _ _ => true
  | _ => false

def isPower : Ast → Bool
  | binary .pow _ _ => true
  | _ => false

def isBinary : Ast → Bool
  | binary _ _ _ => true
  | _ => false

end Ast

/-! ## Parentheses -/

/-- Whether a sign needs parentheses around its operand. -/
def UnaryOp.encloses : UnaryOp → Ast → Bool
  | _, x => x.isBinary && !x.isPower

namespace BinaryOp

/-- Whether an operator needs parentheses around its left operand. -/
def enclosesLeft : BinaryOp → Ast → Bool
  | .add, _ | .sub, _ => false
  | .mul, x | .div, x => x.isAdditive
  | .pow, x => !x.isLiteral

/-- Whether an operator needs parentheses around its right operand. -/
def enclosesRight : BinaryOp → Ast → Bool
  | .add, y | .sub, y => y.isAdditive
  | .mul, y | .div, y => y.isAdditive || y.isMultiplicative
  | .pow, y => !(y.isLiteral || y.isPower)

end BinaryOp

/-- A text, in parentheses if these are needed. -/
def enclose (parens : Bool) (text : List Char) : List Char :=
  if parens then '(' :: (text ++ [')']) else text

namespace Ast

/-- The text of a tree, without blanks. -/
def text : Ast → List Char
  | literal l => l.numeral.text
  | unary op x => op.symbol.toList ++ enclose (op.encloses x) x.text
  | binary op x y =>
    enclose (op.enclosesLeft x) x.text ++
      (op.symbol.toList ++ enclose (op.enclosesRight y) y.text)

/-- How deeply parentheses, signs and exponents nest in the text. -/
def depth : Ast → Nat
  | literal _ => 0
  | unary op x => 1 + ((op.encloses x).toNat + x.depth)
  | binary .pow x y =>
    max ((BinaryOp.pow.enclosesLeft x).toNat + x.depth)
      (1 + ((BinaryOp.pow.enclosesRight y).toNat + y.depth))
  | binary op x y =>
    max ((op.enclosesLeft x).toNat + x.depth) ((op.enclosesRight y).toNat + y.depth)

/-- What a tree comes to: its left operand is evaluated first, then its right one, then its
operator is applied. A failure has the position of its operator in the text, which starts at
`position`. -/
def evalAt : Ast → Nat → Outcome
  | literal l, _ => .ok l.value
  | unary op x, position => do
    let value ← x.evalAt (position + op.symbol.toList.length + (op.encloses x).toNat)
    return op.apply value
  | binary op x y, position => do
    let middle := position + (enclose (op.enclosesLeft x) x.text).length
    let a ← x.evalAt (position + (op.enclosesLeft x).toNat)
    let b ← y.evalAt (middle + op.symbol.toList.length + (op.enclosesRight y).toNat)
    (op.apply a b).mapError (⟨·, middle⟩)

end Ast

/-! ## Derivations -/

/-- An expression in parentheses if these are needed; it is given for each position that it can
have. -/
def enclosed (parens : Bool) (length : Nat) (body : Nat → Expr) (position : Nat) : Expr :=
  if parens then .group position (body (position + 1)) (position + 1 + length) else body position

namespace Ast

/-- The derivation of the text, if it starts at the position. -/
def placed : Ast → Nat → Expr
  | literal l, position => .number l.value position
  | unary op x, position =>
    .unary op position
      (enclosed (op.encloses x) x.text.length x.placed (position + op.symbol.toList.length))
  | binary op x y, position =>
    let middle := position + (enclose (op.enclosesLeft x) x.text).length
    .binary op (enclosed (op.enclosesLeft x) x.text.length x.placed position) middle
      (enclosed (op.enclosesRight y) y.text.length y.placed (middle + op.symbol.toList.length))

/-- The level of the grammar that derives a tree as it stands. -/
def level : Ast → Level
  | literal _ => .primary
  | unary op _ => op.level
  | binary op _ _ => op.level

end Ast

section
variable {parens : Bool} {length : Nat} {body : Nat → Expr}

/-- Parentheses do not change a value. -/
@[simp] theorem eval_enclosed (position : Nat) :
    (enclosed parens length body position).eval = (body (position + parens.toNat)).eval := by
  cases parens <;> rfl

/-- Parentheses nest one level deeper. -/
@[simp] theorem depth_enclosed (position : Nat) :
    (enclosed parens length body position).depth =
      parens.toNat + (body (position + parens.toNat)).depth := by
  cases parens
  · exact (Nat.zero_add _).symm
  · rfl

/-- In parentheses an expression is derived at every level. -/
theorem derives_enclosed {own goal : Level} (hbody : ∀ position, Derives own (body position))
    (hparens : parens = !decide (own ≤ goal)) (position : Nat) :
    Derives goal (enclosed parens length body position) := by
  subst hparens
  by_cases hle : own ≤ goal
  · rw [decide_eq_true hle]
    exact (hbody position).mono hle
  · rw [decide_eq_false hle]
    refine Derives.mono (.group _ _ ((hbody _).mono ?_)) ?_
    · cases own <;> decide
    · cases goal <;> decide

end

/-- A sign needs parentheses around what is not a factor. -/
theorem UnaryOp.encloses_eq (op : UnaryOp) (x : Ast) :
    op.encloses x = !decide (x.level ≤ op.operandLevel) := by
  rcases x with _ | _ | ⟨inner, _, _⟩
  · rfl
  · rfl
  · cases inner <;> rfl

/-- An operator needs parentheses around what is not of the level of its left operand. -/
theorem BinaryOp.enclosesLeft_eq (op : BinaryOp) (x : Ast) :
    op.enclosesLeft x = !decide (x.level ≤ op.leftLevel) := by
  rcases x with _ | _ | ⟨inner, _, _⟩
  · cases op <;> rfl
  · cases op <;> rfl
  · cases op <;> cases inner <;> rfl

/-- An operator needs parentheses around what is not of the level of its right operand. -/
theorem BinaryOp.enclosesRight_eq (op : BinaryOp) (y : Ast) :
    op.enclosesRight y = !decide (y.level ≤ op.rightLevel) := by
  rcases y with _ | _ | ⟨inner, _, _⟩
  · cases op <;> rfl
  · cases op <;> rfl
  · cases op <;> cases inner <;> rfl

namespace Ast

/-- A tree is derived at its level, wherever it stands. -/
theorem placed_derives (t : Ast) (position : Nat) : Derives t.level (t.placed position) := by
  induction t generalizing position with
  | literal l => exact .number l.value position
  | unary op x ih => exact .signed op position (derives_enclosed ih (op.encloses_eq x) _)
  | binary op x y ihx ihy =>
    exact .binary _ (derives_enclosed ihx (op.enclosesLeft_eq x) _)
      (derives_enclosed ihy (op.enclosesRight_eq y) _)

/-- A tree nests as deep as its text. -/
theorem depth_placed (t : Ast) (position : Nat) : (t.placed position).depth = t.depth := by
  induction t generalizing position with
  | literal => rfl
  | unary op x ih => rw [placed, Expr.depth, depth_enclosed, ih, depth]
  | binary op x y ihx ihy =>
    cases op <;> simp only [placed, Expr.depth, depth_enclosed, ihx, ihy, depth]

/-- A tree has its value or the error of its operator, wherever it stands. -/
theorem eval_placed (t : Ast) (position : Nat) : (t.placed position).eval = t.evalAt position := by
  induction t generalizing position with
  | literal => rfl
  | unary op x ih =>
    rw [placed, Expr.eval, eval_enclosed, ih]
    rfl
  | binary op x y ihx ihy =>
    rw [placed, Expr.eval, eval_enclosed, eval_enclosed, ihx, ihy]
    rfl

end Ast

/-! ## Tokens -/

namespace Cursor

/-- A literal is a token if no more of a numeral follows. -/
theorem tokens_literal (l : Literal) {rest : List Char} (hrest : Numeral.Ends rest)
    (position : Nat) :
    Cursor.tokens ⟨l.numeral.text ++ rest, position⟩ =
      ⟨.number l.value, position⟩ ::
        Cursor.tokens ⟨rest, position + l.numeral.text.length⟩ := by
  have hlexeme : (Lexeme.ofNumeral l.numeral).token = .number l.value := by
    simp only [Lexeme.ofNumeral, l.double?_eq]
  rw [tokens_numeral l.wellFormed hrest, hlexeme]

end Cursor

/-- The text is written with the tokens of the expression, wherever it stands. -/
def Writes (text : List Char) (body : Nat → Expr) : Prop :=
  ∀ rest, Numeral.Ends rest → ∀ position,
    Cursor.tokens ⟨text ++ rest, position⟩ =
      (body position).tokens ++ Cursor.tokens ⟨rest, position + text.length⟩

section
variable {text left right : List Char} {body x y : Nat → Expr}

/-- What is in parentheses is written with them around. -/
theorem Writes.enclosed (h : Writes text body) (parens : Bool) :
    Writes (enclose parens text) (enclosed parens text.length body) := by
  intro rest hrest position
  cases parens with
  | false => exact h rest hrest position
  | true =>
    have hclosing : Numeral.Ends (')' :: rest) := by
      intro c hc
      cases hc
      decide
    have hbody := h (')' :: rest) hclosing (position + 1)
    show Cursor.tokens ⟨'(' :: (text ++ [')'] ++ rest), position⟩ = _
    rw [Cursor.tokens_opening, List.append_assoc, List.singleton_append, hbody,
      Cursor.tokens_closing]
    simp [Reckon.enclosed, Expr.tokens, enclose, Nat.add_assoc, Nat.add_comm 1]

/-- What has a sign is written behind it. -/
theorem Writes.unary (h : Writes text body) (op : UnaryOp) :
    Writes (op.symbol.toList ++ text) fun position =>
      .unary op position (body (position + op.symbol.toList.length)) := by
  intro rest hrest position
  rw [List.append_assoc, Cursor.tokens_unary, h rest hrest, List.length_append, Nat.add_assoc]
  rfl

/-- What is computed from two operands is written between them. -/
theorem Writes.binary (hx : Writes left x) (hy : Writes right y) (hright : right ≠ [])
    (hstar : right.head? ≠ some '*') (op : BinaryOp) :
    Writes (left ++ (op.symbol.toList ++ right)) fun position =>
      .binary op (x position) (position + left.length)
        (y (position + left.length + op.symbol.toList.length)) := by
  intro rest hrest position
  have hoperator : Numeral.Ends (op.symbol.toList ++ (right ++ rest)) := by
    cases op <;>
    · intro c hc
      cases hc
      decide
  have hbehind : (right ++ rest).head? ≠ some '*' := by
    rwa [List.head?_append_of_ne_nil _ hright]
  rw [List.append_assoc, List.append_assoc, hx _ hoperator, Cursor.tokens_binary op hbehind,
    hy rest hrest]
  simp [Expr.tokens, Nat.add_assoc]

end

/-! ## The characters that a text starts with -/

/-- A text that starts with a digit, a point, a parenthesis or a sign. -/
def Opens (text : List Char) : Prop :=
  ∃ c rest, text = c :: rest ∧ (c.isDigit ∨ c ∈ ['.', '(', '+', '-'])

/-- Such a text is not empty. -/
theorem Opens.ne_nil {text : List Char} (h : Opens text) : text ≠ [] := by
  obtain ⟨c, rest, rfl, -⟩ := h
  exact List.cons_ne_nil c rest

/-- Such a text does not start with a star. -/
theorem Opens.head?_ne_star {text : List Char} (h : Opens text) : text.head? ≠ some '*' := by
  obtain ⟨c, rest, rfl, hc⟩ := h
  rintro ⟨⟩
  revert hc
  decide

/-- What is behind does not change the start. -/
theorem Opens.append {text : List Char} (h : Opens text) (rest : List Char) :
    Opens (text ++ rest) := by
  obtain ⟨c, text, rfl, hc⟩ := h
  exact ⟨c, text ++ rest, rfl, hc⟩

/-- In parentheses, such a text still starts like that. -/
theorem Opens.enclose {text : List Char} (h : Opens text) (parens : Bool) :
    Opens (enclose parens text) := by
  cases parens with
  | false => exact h
  | true => exact ⟨'(', _, rfl, .inr (by decide)⟩

/-- A literal starts with a digit or a point. -/
theorem Literal.opens_text (l : Literal) : Opens l.numeral.text := by
  obtain ⟨⟨whole, point, fraction, exponent⟩, value, hwell, -⟩ := l
  cases whole with
  | cons c whole => exact ⟨c, _, rfl, .inl (hwell.whole c (List.mem_cons_self ..))⟩
  | nil =>
    have hfraction : fraction ≠ [] := hwell.hasDigit.resolve_left fun hne => hne rfl
    cases point with
    | true => exact ⟨'.', _, rfl, .inr (by decide)⟩
    | false => exact absurd (hwell.point rfl) hfraction

namespace Ast

/-- The text of a tree starts like that. -/
theorem opens_text (t : Ast) : Opens t.text := by
  induction t with
  | literal l => exact l.opens_text
  | unary op x ih =>
    cases op with
    | plus => exact ⟨'+', _, rfl, .inr (by decide)⟩
    | negate => exact ⟨'-', _, rfl, .inr (by decide)⟩
  | binary op x y ihx ihy => exact (ihx.enclose _).append _

/-- The text of a tree is written with the tokens of its derivation. -/
theorem writes (t : Ast) : Writes t.text t.placed := by
  induction t with
  | literal l => exact fun rest hrest position => Cursor.tokens_literal l hrest position
  | unary op x ih => exact (ih.enclosed _).unary op
  | binary op x y ihx ihy =>
    have hopens := y.opens_text.enclose (op.enclosesRight y)
    exact (ihx.enclosed _).binary (ihy.enclosed _) hopens.ne_nil hopens.head?_ne_star op

/-- The text of a tree is written with its tokens. -/
theorem body_text (t : Ast) : body (String.ofList t.text) = (t.placed 1).tokens := by
  have htokens := t.writes [] Numeral.ends_nil 1
  rw [List.append_nil, Cursor.tokens_nil] at htokens
  rw [body, tokens, String.toList_ofList, Cursor.start, htokens, List.dropLast_concat]

end Ast

/-! ## Failures -/

/-- An operator stands at the offset in the text, and it fails so on some operands. -/
def FailsAt (kind : ErrorKind) (text : List Char) (offset : Nat) : Prop :=
  ∃ (op : BinaryOp) (a b : Float) (before after : List Char), op.apply a b = .error kind ∧
    text = before ++ (op.symbol.toList ++ after) ∧ before.length = offset

section
variable {kind : ErrorKind} {text : List Char} {offset : Nat}

/-- What is behind does not move a failure. -/
theorem FailsAt.append (h : FailsAt kind text offset) (rest : List Char) :
    FailsAt kind (text ++ rest) offset := by
  obtain ⟨op, a, b, before, after, happly, rfl, rfl⟩ := h
  exact ⟨op, a, b, before, after ++ rest, happly, by simp only [List.append_assoc], rfl⟩

/-- What is in front moves a failure. -/
theorem FailsAt.behind (h : FailsAt kind text offset) (front : List Char) :
    FailsAt kind (front ++ text) (front.length + offset) := by
  obtain ⟨op, a, b, before, after, happly, rfl, rfl⟩ := h
  exact ⟨op, a, b, front ++ before, after, happly, by rw [List.append_assoc],
    List.length_append⟩

/-- A parenthesis in front moves a failure by one. -/
theorem FailsAt.enclose (h : FailsAt kind text offset) (parens : Bool) :
    FailsAt kind (enclose parens text) (parens.toNat + offset) := by
  cases parens with
  | false => exact (Nat.zero_add offset).symm ▸ h
  | true => exact (h.append [')']).behind ['(']

end

namespace Ast

/-- A failure has the position that an operator which fails so has in the text. -/
theorem evalAt_error {t : Ast} {position : Nat} {e : EvalError} (h : t.evalAt position = .error e) :
    ∃ offset, FailsAt e.kind t.text offset ∧ e.position = position + offset := by
  induction t generalizing position with
  | literal => cases h
  | unary op x ih =>
    cases hx : x.evalAt (position + op.symbol.toList.length + (op.encloses x).toNat) with
    | ok value =>
      rw [evalAt, hx] at h
      cases h
    | error e' =>
      rw [evalAt, hx] at h
      cases h
      obtain ⟨offset, hfails, hposition⟩ := ih hx
      exact ⟨_, (hfails.enclose _).behind _, by omega⟩
  | binary op x y ihx ihy =>
    rw [evalAt] at h
    cases hx : x.evalAt (position + (op.enclosesLeft x).toNat) with
    | error e' =>
      rw [hx] at h
      cases h
      obtain ⟨offset, hfails, hposition⟩ := ihx hx
      exact ⟨_, (hfails.enclose _).append _, by omega⟩
    | ok a =>
      rw [hx] at h
      cases hy : y.evalAt (position + (enclose (op.enclosesLeft x) x.text).length +
          op.symbol.toList.length + (op.enclosesRight y).toNat) with
      | error e' =>
        simp only [hy] at h
        cases h
        obtain ⟨offset, hfails, hposition⟩ := ihy hy
        exact ⟨_, ((hfails.enclose _).behind _).behind _, by omega⟩
      | ok b =>
        simp only [hy] at h
        change (op.apply a b).mapError _ = _ at h
        cases happly : op.apply a b with
        | ok value =>
          rw [happly] at h
          cases h
        | error kind =>
          rw [happly] at h
          cases h
          exact ⟨_, ⟨op, a, b, _, _, happly, rfl, rfl⟩, rfl⟩

end Ast

/-! ## Texts of trees -/

namespace Ast

/-- The text of a tree parses, to its derivation, exactly if it nests within the limit. -/
theorem parseText_text_iff (t : Ast) (maxDepth : Nat) :
    (parseText (String.ofList t.text) maxDepth).result = .ok (t.placed 1) ↔
      t.depth ≤ maxDepth := by
  rw [parseText_eq_ok_iff, t.body_text, t.depth_placed]
  have hderives : Derives .expression (t.placed 1) := (t.placed_derives 1).mono (by
    cases t.level <;> decide)
  exact ⟨fun h => h.2.2, fun h => ⟨hderives, rfl, h⟩⟩

/-- Within the limit, the text of a tree is evaluated as the tree is. -/
theorem evaluateWith_eq_evalAt (t : Ast) {maxDepth : Nat} (h : t.depth ≤ maxDepth) :
    evaluateWith (String.ofList t.text) maxDepth = t.evalAt 1 := by
  obtain ⟨hderives, htokens, hdepth⟩ := parseText_eq_ok_iff.1 ((t.parseText_text_iff maxDepth).2 h)
  rw [evaluateWith_eq_eval hderives htokens hdepth, t.eval_placed]

/-- Under whatever limit the text comes to what the tree comes to, or it meets the limit. -/
theorem evaluateWith_text_cases (t : Ast) (maxDepth : Nat) :
    evaluateWith (String.ofList t.text) maxDepth = t.evalAt 1 ∨
      ∃ position, evaluateWith (String.ofList t.text) maxDepth =
        .error ⟨.nestingTooDeep, position⟩ := by
  by_cases hdeep : ∃ position, evaluateWith (String.ofList t.text) maxDepth =
      .error ⟨.nestingTooDeep, position⟩
  · exact .inr hdeep
  · have hwide := t.evaluateWith_eq_evalAt (Nat.le_max_right maxDepth t.depth)
    have hmono := evaluateWith_mono (Nat.le_max_left maxDepth t.depth) (not_exists.1 hdeep)
    exact .inl (hmono.symm.trans hwide)

end Ast

/-- Evaluating the text of a tree is evaluating the tree: the text is grouped as the tree is, though
it has parentheses only where an operand would be grouped otherwise. An error is blamed on an
operator that fails so, at the position that it has in the text. -/
theorem evaluateWith_text (t : Ast) {maxDepth : Nat} (h : t.depth ≤ maxDepth) :
    evaluateWith (String.ofList t.text) maxDepth = t.evalAt 1 ∧
      ∀ e, t.evalAt 1 = .error e →
        ∃ offset, FailsAt e.kind t.text offset ∧ e.position = 1 + offset :=
  ⟨t.evaluateWith_eq_evalAt h, fun _ he => Ast.evalAt_error he⟩

/-- A division by zero, behind a sign and a group. -/
theorem evaluateWith_text_division :
    ∃ t : Ast, t.text = "-(1+2)/(1-1)".toList ∧ t.depth ≤ 2 ∧
      evaluateWith (String.ofList t.text) 2 = .error ⟨.divisionByZero, 7⟩ := by
  let one : Ast := .literal ⟨_, 1, .digit '1' rfl, by decide +kernel⟩
  let two : Ast := .literal ⟨_, 2, .digit '2' rfl, by decide +kernel⟩
  let t : Ast := .binary .div (.unary .negate (.binary .add one two)) (.binary .sub one one)
  have hdepth : t.depth ≤ 2 := by decide
  have hvalue : t.evalAt 1 = .error ⟨.divisionByZero, 7⟩ := by decide +kernel
  exact ⟨t, by decide +kernel, hdepth, (evaluateWith_text t hdepth).1.trans hvalue⟩

end Reckon
