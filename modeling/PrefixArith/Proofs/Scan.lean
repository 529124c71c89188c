import PrefixArith.Proofs.Grammar

/-!
# The scan and the reader

The scan keeps a counter, a flag and one token, where the reader keeps a stack of lists half read. Both
go over the tokens in the same order, so what has to be shown is that the counter and the flag are all
the reader's stack is good for:

> `scanList_operand`: inside a list, scanning one operand is reading it, and then scanning on with
> an operand behind.
> `scanList_operands`: scanning the rest of a list is reading its operands up to the closing paren,
> and then scanning on in the list around it.

The two go together, one level of room at a time: an operand at one depth is a list of operands at
the next. The equation for a whole line, `check_eq_parse`, covers every error as well as success.
-/

namespace PrefixArith

/-! ## Checking a line in one pass

Whether a row of tokens is an expression can be told without building a tree. The scan goes over the
tokens once and remembers three things: how many lists are open, whether the innermost of them has an
operand yet, and the token before. It ends in the first mistake, or with the tokens behind the
expression.
-/

/-- Scans on with `depth` lists open, in the innermost of which there is an operand if `operand`. -/
def scanList : (depth : Nat) → (operand : Bool) → (previous : Token) → List Token →
    Except ParseError (List Token)
  | _, _, _, [] => .error .unexpectedEnd
  | depth, operand, previous, .rparen :: ts =>
    if operand = false then .error (.emptyList previous)
    else if depth ≤ 1 then .ok ts
    else scanList (depth - 1) true .rparen ts
  | depth, _, _, .word w :: ts =>
    if maxDepth < depth then .error .tooDeep else scanList depth true (.word w) ts
  | depth, _, _, [.lparen] =>
    if maxDepth < depth then .error .tooDeep else .error .unexpectedEnd
  | depth, _, _, .lparen :: head :: ts =>
    if maxDepth < depth then .error .tooDeep
    else if (Operator.ofKeyword? head.text).isNone then .error (.unknownOperator head)
    else scanList (depth + 1) false head ts

/-- Scans an expression that lies inside no list. -/
def scan : List Token → Except ParseError (List Token)
  | [] => .error .unexpectedEnd
  | .rparen :: _ => .error .unexpectedParen
  | .word _ :: ts => .ok ts
  | [.lparen] => .error .unexpectedEnd
  | .lparen :: head :: ts =>
    if (Operator.ofKeyword? head.text).isNone then .error (.unknownOperator head)
    else scanList 1 false head ts

/-- Checks a line; if `strict`, nothing may follow the expression. -/
def check (strict : Bool) (line : String) : Except ParseError Unit :=
  match scan (tokenize line) with
  | .error err => .error err
  | .ok [] => .ok ()
  | .ok (t :: _) => if strict then .error (.trailingTokens t) else .ok ()

/-! ## Readings gone on with -/

/-- Goes on with the result of a reading and the tokens it leaves, unless it failed. -/
def Reading.andThen {α β : Type} (r : Reading α) (f : α → List Token → Except ParseError β) :
    Except ParseError β :=
  match r with
  | ⟨.error err, _⟩ => .error err
  | ⟨.ok a, rest⟩ => f a rest

namespace Reading

theorem andThen_congr {α β : Type} {r : Reading α} {f g : α → List Token → Except ParseError β}
    (h : ∀ a rest, r = ⟨.ok a, rest⟩ → f a rest = g a rest) : r.andThen f = r.andThen g := by
  cases r with
  | mk outcome rest =>
    cases outcome with
    | error err => rfl
    | ok a => exact h a rest rfl

end Reading

/-- Going on behind operands is going on behind the first and then behind the others. -/
theorem readOperands_andThen {β : Type} (one : List Token → Reading Expr) (fuel : Nat) {t : Token}
    (ts : List Token) (ht : t ≠ .rparen) (f : List Expr → List Token → Except ParseError β) :
    (readOperands one (fuel + 1) (t :: ts)).andThen f
      = (one (t :: ts)).andThen fun e rest =>
          (readOperands one fuel rest).andThen fun es rest => f (e :: es) rest := by
  rw [readOperands_succ one fuel ts ht]
  rcases one (t :: ts) with ⟨err | e, rest⟩
  · rfl
  · dsimp only [Reading.andThen]
    rcases readOperands one fuel rest with ⟨err | es, rest'⟩
    · rfl
    · rfl

/-- Going on behind a list that has an operator is going on behind its operands. -/
theorem readList_andThen {β : Type} (one : List Token → Reading Expr) {head : Token} {op : Operator}
    (ts : List Token) (hop : Operator.ofKeyword? head.text = some op)
    (f : List Token → Except ParseError β) :
    (readList one (head :: ts)).andThen (fun _ rest => f rest)
      = (readOperands one ts.length ts).andThen fun es rest =>
          if es = [] then .error (.emptyList head) else f rest := by
  rw [readList]
  simp only [hop]
  rcases readOperands one ts.length ts with ⟨err | es, rest⟩
  · rfl
  · cases es with
    | nil => rfl
    | cons e es => rfl

/-- How the scan goes on behind the closing paren of the innermost of `depth` lists. -/
def scanBehind (depth : Nat) (ts : List Token) : Except ParseError (List Token) :=
  if depth ≤ 1 then .ok ts else scanList (depth - 1) true .rparen ts

theorem scanBehind_one (ts : List Token) : scanBehind 1 ts = .ok ts := by
  rw [scanBehind, if_pos (Nat.le_refl _)]

theorem scanBehind_succ {depth : Nat} (h : 1 ≤ depth) (ts : List Token) :
    scanBehind (depth + 1) ts = scanList depth true .rparen ts := by
  rw [scanBehind, if_neg (by omega), Nat.add_sub_cancel]

/-- The token before matters only as long as a list has no operand. -/
theorem scanList_previous (depth : Nat) (previous previous' : Token) (ts : List Token) :
    scanList depth true previous ts = scanList depth true previous' ts := by
  cases ts with
  | nil => rfl
  | cons t ts =>
    cases t with
    | rparen => rw [scanList, scanList]; rfl
    | word w => rw [scanList, scanList]
    | lparen =>
      cases ts with
      | nil => rw [scanList, scanList]
      | cons head ts => rw [scanList, scanList]

/-- A reading that succeeds has taken a token. -/
theorem length_rest_of_ok {r : Nat} {t : Token} {ts rest : List Token} {e : Expr}
    (h : readExpr r (t :: ts) = ⟨.ok e, rest⟩) : rest.length ≤ ts.length := by
  cases r with
  | zero => cases h
  | succ r =>
    have hlen := length_rest_readExpr r t ts
    rwa [h] at hlen

/-- If scanning one operand at depth `d` is reading it with room `r`, scanning a list to its end is
reading all its operands. The list is empty if it had no operand and none is read. -/
theorem scanList_operands {r d : Nat}
    (hone : ∀ (operand : Bool) (previous t : Token) (ts : List Token), t ≠ .rparen →
      scanList d operand previous (t :: ts)
        = (readExpr r (t :: ts)).andThen fun _ rest => scanList d true .rparen rest) :
    ∀ (fuel : Nat) (ts : List Token) (operand : Bool) (previous : Token), ts.length ≤ fuel →
      scanList d operand previous ts
        = (readOperands (readExpr r) fuel ts).andThen fun es rest =>
            if operand = false ∧ es = [] then .error (.emptyList previous)
            else scanBehind d rest := by
  intro fuel
  induction fuel with
  | zero =>
    intro ts operand previous hlen
    rw [List.length_eq_zero_iff.mp (Nat.le_zero.mp hlen), scanList, readOperands]
    rfl
  | succ fuel ih =>
    intro ts operand previous hlen
    cases ts with
    | nil => rw [scanList, readOperands]; rfl
    | cons t ts =>
      by_cases ht : t = .rparen
      · subst ht
        rw [scanList, readOperands]
        cases operand with
        | true => rfl
        | false => rfl
      · rw [hone operand previous t ts ht, readOperands_andThen _ fuel ts ht]
        refine Reading.andThen_congr fun e rest hread => ?_
        have hrest := length_rest_of_ok hread
        rw [List.length_cons] at hlen
        rw [ih rest true .rparen (by omega)]
        -- Behind an operand the list is not empty, neither for the scan nor for the reader.
        refine Reading.andThen_congr fun es rest' _ => ?_
        rw [if_neg (by simp), if_neg (by simp)]

/-- If scanning one operand inside `d + 1` lists is reading it with room `r`, scanning the innermost
of these lists from behind its operator is reading the whole list with room for one level more. -/
theorem scanList_open {r d : Nat}
    (hone : ∀ (operand : Bool) (previous t : Token) (ts : List Token), t ≠ .rparen →
      scanList (d + 1) operand previous (t :: ts)
        = (readExpr r (t :: ts)).andThen fun _ rest => scanList (d + 1) true .rparen rest)
    {head : Token} {op : Operator} (hop : Operator.ofKeyword? head.text = some op)
    (ts : List Token) :
    scanList (d + 1) false head ts
      = (readExpr (r + 1) (.lparen :: head :: ts)).andThen fun _ rest =>
          scanBehind (d + 1) rest := by
  rw [readExpr, readList_andThen _ ts hop,
    scanList_operands hone ts.length ts false head (Nat.le_refl _)]
  refine Reading.andThen_congr fun es rest _ => ?_
  simp

/-- Inside a list, scanning an operand is reading it and scanning on with an operand behind. -/
theorem scanList_operand (r : Nat) :
    ∀ (d : Nat), r + d = maxDepth + 1 → 1 ≤ d →
      ∀ (operand : Bool) (previous t : Token) (ts : List Token), t ≠ .rparen →
        scanList d operand previous (t :: ts)
          = (readExpr r (t :: ts)).andThen fun _ rest => scanList d true .rparen rest := by
  induction r with
  | zero =>
    intro d hd _ operand previous t ts ht
    -- Without room the depth is past the bound, and neither looks at the token.
    have hdeep : maxDepth < d := by omega
    cases t with
    | rparen => exact absurd rfl ht
    | word w => rw [scanList, if_pos hdeep]; rfl
    | lparen =>
      cases ts with
      | nil => rw [scanList, if_pos hdeep]; rfl
      | cons head ts => rw [scanList, if_pos hdeep]; rfl
  | succ r ih =>
    intro d hd hd1 operand previous t ts ht
    have hfits : ¬ maxDepth < d := by omega
    cases t with
    | rparen => exact absurd rfl ht
    | word w =>
      rw [scanList, if_neg hfits, scanList_previous d (.word w) .rparen]
      rfl
    | lparen =>
      cases ts with
      | nil => rw [scanList, if_neg hfits]; rfl
      | cons head ts =>
        rw [scanList, if_neg hfits]
        cases hop : Operator.ofKeyword? head.text with
        | none =>
          rw [readExpr, readList, hop]
          rfl
        | some op =>
          rw [if_neg (by simp), scanList_open (ih (d + 1) (by omega) (by omega)) hop]
          exact Reading.andThen_congr fun _ rest _ => scanBehind_succ hd1 rest

/-- Scanning an expression is reading it. -/
theorem scan_eq_read (ts : List Token) :
    scan ts = (readExprAt 0 ts).andThen fun _ rest => .ok rest := by
  have hroom : room 0 = maxDepth + 1 := by decide
  rw [readExprAt, hroom]
  cases ts with
  | nil => rfl
  | cons t ts =>
    cases t with
    | rparen => rfl
    | word w => rfl
    | lparen =>
      cases ts with
      | nil => rfl
      | cons head ts =>
        rw [scan]
        cases hop : Operator.ofKeyword? head.text with
        | none =>
          rw [readExpr, readList, hop]
          rfl
        | some op =>
          rw [if_neg (by simp),
            scanList_open (scanList_operand maxDepth 1 rfl (Nat.le_refl _)) hop]
          exact Reading.andThen_congr fun _ rest _ => scanBehind_one rest

/-- **One pass tells all that reading a line tells**, apart from the tree: whether there is one, and
if not, which of the six causes it is and at which token it shows. -/
theorem check_eq_parse (strict : Bool) (line : String) :
    check strict line = (parse strict line).map fun _ => () := by
  rw [check, parse, parseTokens, scan_eq_read]
  rcases readExprAt 0 (tokenize line) with ⟨err | e, rest⟩
  · rfl
  · cases rest with
    | nil => rfl
    | cons t rest =>
      cases strict with
      | false => rfl
      | true => rfl

end PrefixArith
