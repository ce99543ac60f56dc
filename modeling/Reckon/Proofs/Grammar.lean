import Reckon.Arithmetic
import Reckon.Token

/-!
# The grammar and its trees

An `Expr` is an expression as a tree, with the position of every token, and `Expr.tokens` the
tokens it is written with. `Derives` is the grammar: it says of which trees each level of the
grammar consists, so that a tree which derives is a derivation of its own tokens. A `Sentence` is
what the tokens of a derived expression are, and a token sequence is `Viable` if it can be extended
to a sentence.

What a tree means is defined on it alone: `Expr.eval` is its value, operand before operator and left
before right, and `Expr.depth` counts how deeply its parentheses, signs and exponents nest.
`Expr.operations` are its operators in the order in which their last operand is complete, and each
of them is a part of the expression (`Derives.standsIn_operations`). The parsers of the library are
measured against these definitions.
-/

namespace Reckon

/-! ## Operators as tokens -/

/-- The token that writes an operator between two operands. -/
def BinaryOp.token : BinaryOp → Token
  | .add => .plus
  | .sub => .minus
  | .mul => .star
  | .div => .slash
  | .pow => .power

/-- The token that writes a sign. -/
def UnaryOp.token : UnaryOp → Token
  | .plus => .plus
  | .negate => .minus

/-- A token is a binary operator exactly if it is that operator's. -/
theorem Token.binaryOp?_eq_some_iff {t : Token} {op : BinaryOp} :
    t.binaryOp? = some op ↔ t = op.token := by
  cases t <;> cases op <;> simp [Token.binaryOp?, BinaryOp.token]

/-- A token is a sign exactly if it is that sign's. -/
theorem Token.unaryOp?_eq_some_iff {t : Token} {op : UnaryOp} :
    t.unaryOp? = some op ↔ t = op.token := by
  cases t <;> cases op <;> simp [Token.unaryOp?, UnaryOp.token]

/-- The token of an operator is that operator. -/
@[simp] theorem BinaryOp.binaryOp?_token (op : BinaryOp) : op.token.binaryOp? = some op :=
  Token.binaryOp?_eq_some_iff.2 rfl

/-! ## Trees -/

/-- An expression with the positions of its tokens. -/
inductive Expr where
  | number (value : Float) (position : Nat)
  | group (opening : Nat) (body : Expr) (closing : Nat)
  | unary (op : UnaryOp) (position : Nat) (operand : Expr)
  | binary (op : BinaryOp) (left : Expr) (position : Nat) (right : Expr)

namespace Expr

/-- The tokens that an expression is written with. -/
def tokens : Expr → List Placed
  | number value position => [⟨.number value, position⟩]
  | group opening body closing => ⟨.opening, opening⟩ :: (body.tokens ++ [⟨.closing, closing⟩])
  | unary op position operand => ⟨op.token, position⟩ :: operand.tokens
  | binary op left position right => left.tokens ++ ⟨op.token, position⟩ :: right.tokens

/-- How deeply parentheses, signs and exponents nest. -/
def depth : Expr → Nat
  | number _ _ => 0
  | group _ body _ => 1 + body.depth
  | unary _ _ operand => 1 + operand.depth
  | binary .pow left _ right => max left.depth (1 + right.depth)
  | binary _ left _ right => max left.depth right.depth

/-- The value of an expression, or the first numeric error at the position of its operator. -/
def eval : Expr → Outcome
  | number value _ => .ok value
  | group _ body _ => body.eval
  | unary op position operand => do
    let value ← operand.eval
    (Application.unary op value position).outcome
  | binary op left position right => do
    let a ← left.eval
    let b ← right.eval
    (Application.binary op a b position).outcome

/-- The operator at the root with the values of its own operands, if they have values. -/
def application? : Expr → Option Application
  | number _ _ => none
  | group _ _ _ => none
  | unary op position operand =>
    match operand.eval with
    | .ok value => some (.unary op value position)
    | .error _ => none
  | binary op left position right =>
    match left.eval, right.eval with
    | .ok a, .ok b => some (.binary op a b position)
    | _, _ => none

/-- The sub-expressions with an operator at the root, in the order in which their last operand is
complete. -/
def operations : Expr → List Expr
  | number _ _ => []
  | group _ body _ => body.operations
  | unary op position operand => operand.operations ++ [unary op position operand]
  | binary op left position right =>
    left.operations ++ right.operations ++ [binary op left position right]

end Expr

/-! ## The grammar -/

/-- The grammar, one constructor for each production:
```text
    expression := term | expression ("+" | "-") term
    term       := factor | term ("*" | "/") factor
    factor     := power | ("+" | "-") factor
    power      := primary | primary "**" power
    primary    := NUMBER | "(" expression ")"
```
A chain of sums or of products is a tree that leans to the left, and a chain of powers one that
leans to the right. -/
inductive Derives : Level → Expr → Prop
  | number (value : Float) (position : Nat) : Derives .primary (.number value position)
  | group (opening closing : Nat) {body : Expr} :
      Derives .expression body → Derives .primary (.group opening body closing)
  | base {x : Expr} : Derives .primary x → Derives .power x
  | raised (position : Nat) {base exponent : Expr} :
      Derives .primary base → Derives .power exponent →
      Derives .power (.binary .pow base position exponent)
  | unsigned {x : Expr} : Derives .power x → Derives .factor x
  | signed (op : UnaryOp) (position : Nat) {x : Expr} :
      Derives .factor x → Derives .factor (.unary op position x)
  | single {x : Expr} : Derives .factor x → Derives .term x
  | product {op : BinaryOp} (hop : op = .mul ∨ op = .div) (position : Nat) {left right : Expr} :
      Derives .term left → Derives .factor right → Derives .term (.binary op left position right)
  | lone {x : Expr} : Derives .term x → Derives .expression x
  | sum {op : BinaryOp} (hop : op = .add ∨ op = .sub) (position : Nat) {left right : Expr} :
      Derives .expression left → Derives .term right →
      Derives .expression (.binary op left position right)

/-- Each level includes the levels that bind more tightly. -/
theorem Derives.mono {a b : Level} {x : Expr} (h : Derives a x) (hab : a ≤ b) : Derives b x := by
  cases b with
  | primary =>
    cases a with
    | primary => exact h
    | power | factor | term | expression => exact absurd hab (by decide)
  | power =>
    cases a with
    | primary => exact .base h
    | power => exact h
    | factor | term | expression => exact absurd hab (by decide)
  | factor =>
    cases a with
    | primary => exact .unsigned (.base h)
    | power => exact .unsigned h
    | factor => exact h
    | term | expression => exact absurd hab (by decide)
  | term =>
    cases a with
    | primary => exact .single (.unsigned (.base h))
    | power => exact .single (.unsigned h)
    | factor => exact .single h
    | term => exact h
    | expression => exact absurd hab (by decide)
  | expression =>
    cases a with
    | primary => exact .lone (.single (.unsigned (.base h)))
    | power => exact .lone (.single (.unsigned h))
    | factor => exact .lone (.single h)
    | term => exact .lone h
    | expression => exact h

/-- The level of the left operand of an operator. -/
def BinaryOp.leftLevel : BinaryOp → Level
  | .add | .sub => .expression
  | .mul | .div => .term
  | .pow => .primary

/-- An operator between operands of its levels makes up an expression of its own level. -/
theorem Derives.binary {op : BinaryOp} {left right : Expr} (position : Nat)
    (hl : Derives op.leftLevel left) (hr : Derives op.rightLevel right) :
    Derives op.level (.binary op left position right) := by
  cases op with
  | add => exact .sum (.inl rfl) position hl hr
  | sub => exact .sum (.inr rfl) position hl hr
  | mul => exact .product (.inl rfl) position hl hr
  | div => exact .product (.inr rfl) position hl hr
  | pow => exact .raised position hl hr

/-! ## Sentences -/

/-- A token sequence that the grammar derives from the expression. -/
def Sentence (ts : List Placed) : Prop :=
  ∃ x, Derives .expression x ∧ x.tokens = ts

/-- A token sequence that can be extended to a sentence. -/
def Viable (ts : List Placed) : Prop :=
  ∃ rest, Sentence (ts ++ rest)

/-- A sentence can be completed: by nothing. -/
theorem Sentence.viable {ts : List Placed} (h : Sentence ts) : Viable ts :=
  ⟨[], by rwa [List.append_nil]⟩

/-- Whatever begins a viable sequence is viable. -/
theorem Viable.left {ts us : List Placed} (h : Viable (ts ++ us)) : Viable ts := by
  obtain ⟨rest, hrest⟩ := h
  exact ⟨us ++ rest, by rwa [← List.append_assoc]⟩

/-- No expression is written with the end of the text or an invalid character. -/
theorem Expr.token_of_mem {x : Expr} {t : Placed} (h : t ∈ x.tokens) :
    t.token ≠ .finish ∧ t.token ≠ .invalid := by
  induction x with
  | number value position =>
    rw [tokens, List.mem_singleton] at h
    subst h
    exact ⟨nofun, nofun⟩
  | group opening body closing ih =>
    simp only [tokens, List.mem_cons, List.mem_append, List.not_mem_nil, or_false] at h
    rcases h with rfl | h | rfl
    · exact ⟨nofun, nofun⟩
    · exact ih h
    · exact ⟨nofun, nofun⟩
  | unary op position operand ih =>
    rcases List.mem_cons.1 h with rfl | h
    · cases op <;> exact ⟨nofun, nofun⟩
    · exact ih h
  | binary op left position right ihl ihr =>
    rcases List.mem_append.1 h with h | h
    · exact ihl h
    · rcases List.mem_cons.1 h with rfl | h
      · cases op <;> exact ⟨nofun, nofun⟩
      · exact ihr h

/-! ## Sub-expressions -/

/-- The expression is a part of a token sequence. -/
def Expr.StandsIn (x : Expr) (ts : List Placed) : Prop :=
  Derives .expression x ∧ x.tokens <:+: ts

/-- What stands in a part of a text stands in the text. -/
theorem Expr.StandsIn.mono {x : Expr} {ts us : List Placed} (h : x.StandsIn ts) (hle : ts <:+: us) :
    x.StandsIn us :=
  ⟨h.1, h.2.trans hle⟩

/-- An operation stands in the text, and so do those of its operands. -/
theorem Expr.standsIn_binary {op : BinaryOp} {left right : Expr} {position : Nat}
    (h : Derives .expression (.binary op left position right))
    (hl : ∀ y ∈ left.operations, y.StandsIn left.tokens)
    (hr : ∀ y ∈ right.operations, y.StandsIn right.tokens) :
    ∀ y ∈ (Expr.binary op left position right).operations,
      y.StandsIn (Expr.binary op left position right).tokens := by
  intro y hy
  rcases List.mem_append.1 hy with hy | hy
  · rcases List.mem_append.1 hy with hy | hy
    · exact (hl y hy).mono List.infix_append_left
    · rw [tokens, List.append_cons]
      exact (hr y hy).mono List.infix_append_right
  · rw [List.mem_singleton.1 hy]
    exact ⟨h, List.infix_rfl⟩

/-- The operators of an expression are parts of it, each with its operands. -/
theorem Derives.standsIn_operations {l : Level} {x : Expr} (h : Derives l x) :
    ∀ y ∈ x.operations, y.StandsIn x.tokens := by
  induction h with
  | number => exact nofun
  | group opening closing _ ih =>
    intro y hy
    refine (ih y hy).mono ?_
    rw [Expr.tokens, ← List.singleton_append]
    exact List.infix_append' ..
  | signed op position hx ih =>
    intro y hy
    rcases List.mem_append.1 hy with hy | hy
    · exact (ih y hy).mono (List.infix_cons List.infix_rfl)
    · rw [List.mem_singleton.1 hy]
      exact ⟨.lone (.single (.signed op position hx)), List.infix_rfl⟩
  | raised position hl hr ihl ihr =>
    exact Expr.standsIn_binary (.lone (.single (.unsigned (.raised position hl hr)))) ihl ihr
  | product hop position hl hr ihl ihr =>
    exact Expr.standsIn_binary (.lone (.product hop position hl hr)) ihl ihr
  | sum hop position hl hr ihl ihr => exact Expr.standsIn_binary (.sum hop position hl hr) ihl ihr
  | base _ ih | unsigned _ ih | single _ ih | lone _ ih => exact ih

end Reckon
