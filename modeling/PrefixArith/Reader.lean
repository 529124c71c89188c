import PrefixArith.Expr
import PrefixArith.Token

/-!
# Reading expressions

Tokens are read from the left by recursive descent, and a reading is an outcome together with the
tokens left over: those behind the expression, or those at which the reader gave up. An expression
may lie inside `maxDepth` lists. Instead of the number of lists around it the reader carries the
*room* left, the number of levels that may still begin; with no room the reader refuses without
looking, so the recursion ends with the room.

> `rest_suffix_readExpr`: what is left over is the end of what was there.
> `length_rest_readExpr`: with room, a reading takes at least one token if there is any.

`parse` reads the first expression of a line, and refuses what follows it if told to be strict.
-/

namespace PrefixArith

/-! ## What can be wrong

Six causes, most of them with the token at which they show. `message` is the name of the cause,
followed by that token if there is one.
-/

/-- Why a row of tokens is no expression. -/
inductive ParseError where
  /-- The tokens end inside an expression, or before one. -/
  | unexpectedEnd
  /-- A closing paren stands where an expression has to begin. -/
  | unexpectedParen
  /-- A list is headed by something other than an operator. -/
  | unknownOperator (head : Token)
  /-- A list has an operator and no operands. -/
  | emptyList (head : Token)
  /-- An expression lies inside more lists than are allowed. -/
  | tooDeep
  /-- A complete expression is followed by more. -/
  | trailingTokens (first : Token)
deriving DecidableEq, Repr

namespace ParseError

/-- The name of the cause. -/
def kind : ParseError → String
  | .unexpectedEnd => "UnexpectedEnd"
  | .unexpectedParen => "UnexpectedParen"
  | .unknownOperator _ => "UnknownOperator"
  | .emptyList _ => "EmptyList"
  | .tooDeep => "TooDeep"
  | .trailingTokens _ => "TrailingTokens"

/-- The token at which the cause shows. -/
def token? : ParseError → Option Token
  | .unexpectedEnd | .tooDeep => none
  | .unexpectedParen => some .rparen
  | .unknownOperator t | .emptyList t | .trailingTokens t => some t

/-- What is reported. -/
def message (e : ParseError) : String :=
  match e.token? with
  | none => e.kind
  | some t => e.kind ++ ": " ++ quote t.text

end ParseError

/-! ## The reader -/

/-- An outcome, and the tokens not consumed. -/
structure Reading (α : Type) where
  outcome : Except ParseError α
  rest : List Token

/-- The number of lists that an expression may lie inside. -/
def maxDepth : Nat := 256

/-- The levels that may begin inside `depth` lists. The depth of a reading is given from outside, so
it may also be negative, which makes room for more. -/
def room (depth : Int) : Nat := (maxDepth + 1 - depth).toNat

/-- Reads operands with `one` up to the closing paren of their list, and takes the paren. Every
operand takes a token, so `fuel` need not exceed the number of tokens. -/
def readOperands (one : List Token → Reading Expr) :
    (fuel : Nat) → List Token → Reading (List Expr)
  | _, [] => ⟨.error .unexpectedEnd, []⟩
  | _, .rparen :: ts => ⟨.ok [], ts⟩
  | 0, ts => ⟨.error .unexpectedEnd, ts⟩
  | fuel + 1, ts =>
    match one ts with
    | ⟨.error err, rest⟩ => ⟨.error err, rest⟩
    | ⟨.ok e, rest⟩ =>
      match readOperands one fuel rest with
      | ⟨.error err, rest⟩ => ⟨.error err, rest⟩
      | ⟨.ok es, rest⟩ => ⟨.ok (e :: es), rest⟩

/-- Reads a list behind its opening paren, its operands with `one`. The operator is only looked at
until it is known to be one. -/
def readList (one : List Token → Reading Expr) : List Token → Reading Expr
  | [] => ⟨.error .unexpectedEnd, []⟩
  | head :: ts =>
    match Operator.ofKeyword? head.text with
    | none => ⟨.error (.unknownOperator head), head :: ts⟩
    | some op =>
      match readOperands one ts.length ts with
      | ⟨.error err, rest⟩ => ⟨.error err, rest⟩
      | ⟨.ok [], rest⟩ => ⟨.error (.emptyList head), rest⟩
      | ⟨.ok es, rest⟩ => ⟨.ok (.list op es), rest⟩

/-- Reads one expression. -/
def readExpr : (room : Nat) → List Token → Reading Expr
  | 0, ts => ⟨.error .tooDeep, ts⟩
  | _ + 1, [] => ⟨.error .unexpectedEnd, []⟩
  | _ + 1, .rparen :: ts => ⟨.error .unexpectedParen, ts⟩
  | _ + 1, .word w :: ts => ⟨.ok (.atom (Value.ofWord w)), ts⟩
  | room + 1, .lparen :: ts => readList (readExpr room) ts

/-- Reads one expression that lies inside `depth` lists. -/
def readExprAt (depth : Int) (ts : List Token) : Reading Expr := readExpr (room depth) ts

/-- The first expression of a row of tokens; if `strict`, it has to be the only one. -/
def parseTokens (strict : Bool) (ts : List Token) : Except ParseError Expr :=
  match readExprAt 0 ts with
  | ⟨.error err, _⟩ => .error err
  | ⟨.ok e, []⟩ => .ok e
  | ⟨.ok e, t :: _⟩ => if strict then .error (.trailingTokens t) else .ok e

/-- The first expression of a line; if `strict`, it has to be the only one. -/
def parse (strict : Bool) (line : String) : Except ParseError Expr :=
  parseTokens strict (tokenize line)

/-! ## What a reading leaves -/

theorem rest_suffix_readOperands {one : List Token → Reading Expr}
    (hone : ∀ ts, (one ts).rest <:+ ts) (fuel : Nat) (ts : List Token) :
    (readOperands one fuel ts).rest <:+ ts := by
  fun_induction readOperands one fuel ts with
  | case1 => exact List.suffix_refl _
  | case2 => exact List.suffix_cons ..
  | case3 => exact List.suffix_refl _
  | case4 fuel ts _ _ err rest h =>
    have first := hone ts
    rwa [h] at first
  | case5 fuel ts _ _ e rest h err rest' h' ih | case6 fuel ts _ _ e rest h es rest' h' ih =>
    have first := hone ts
    rw [h] at first
    rw [h'] at ih
    exact ih.trans first

theorem rest_suffix_readList {one : List Token → Reading Expr}
    (hone : ∀ ts, (one ts).rest <:+ ts) (ts : List Token) : (readList one ts).rest <:+ ts := by
  unfold readList
  split
  · exact List.suffix_refl _
  · next head ts =>
    have operands := rest_suffix_readOperands hone ts.length ts
    split
    · exact List.suffix_refl _
    · split <;> next h => exact (h ▸ operands).trans (List.suffix_cons ..)

/-- Tokens are taken from the front only. -/
theorem rest_suffix_readExpr (room : Nat) (ts : List Token) : (readExpr room ts).rest <:+ ts := by
  induction room generalizing ts with
  | zero => exact List.suffix_refl _
  | succ room ih =>
    unfold readExpr
    split
    · next h => cases h
    · exact List.suffix_refl _
    · exact List.suffix_cons ..
    · exact List.suffix_cons ..
    · next h =>
      cases h
      exact (rest_suffix_readList ih _).trans (List.suffix_cons ..)

/-- With room to look, a reading takes at least one token if there is any. -/
theorem length_rest_readExpr (room : Nat) (t : Token) (ts : List Token) :
    (readExpr (room + 1) (t :: ts)).rest.length ≤ ts.length := by
  cases t with
  | rparen => exact Nat.le_refl _
  | word w => exact Nat.le_refl _
  | lparen => exact (rest_suffix_readList (rest_suffix_readExpr room) ts).length_le

end PrefixArith
