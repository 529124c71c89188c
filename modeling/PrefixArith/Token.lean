import PrefixArith.Text.Words

/-!
# Tokens

A line is read as parens and the words between them. A paren is a token wherever it stands: padded
with blanks on both sides (`padParens`), it becomes a word of its own, and the words of the padded
text are the tokens.

> `ofText_text_of_mem`: every token of a line is what its own text reads as.
> `balance_append`: lists opened in front and closed behind make up for each other.
-/

namespace PrefixArith

/-- A paren, or a word that is none. -/
inductive Token where
  | lparen
  | rparen
  | word (text : String)
deriving DecidableEq, Repr

namespace Token

/-- The token that a word of a padded text is. -/
def ofText (w : String) : Token :=
  if w = "(" then .lparen else if w = ")" then .rparen else .word w

/-- The text of a token. -/
def text : Token → String
  | .lparen => "("
  | .rparen => ")"
  | .word w => w

@[simp] theorem text_ofText (w : String) : (ofText w).text = w := by
  unfold ofText
  split
  · simp_all [text]
  · split <;> simp_all [text]

end Token

/-- A character with room around it, if it is a paren. -/
def padParen (c : Char) : List Char := if c = '(' ∨ c = ')' then [' ', c, ' '] else [c]

/-- The text `s` with a blank on either side of every paren. -/
def padParens (s : String) : String := String.ofList (s.toList.flatMap padParen)

/-- The tokens of a line. -/
def tokenize (line : String) : List Token :=
  (WordStream.ofString (padParens line)).drain.1.map Token.ofText

theorem tokenize_eq (line : String) :
    tokenize line = (words (padParens line).toList).map (Token.ofText ∘ String.ofList) := by
  simp [tokenize, WordStream.drain_fst]

theorem ofText_text_of_mem {line : String} {t : Token} (h : t ∈ tokenize line) :
    Token.ofText t.text = t := by
  obtain ⟨w, -, rfl⟩ := List.mem_map.1 h
  rw [Token.text_ofText]

/-! ## Layouts

How tokens can be laid out in a text: any number of blanks around each, and at least one between two
words, which would run together without. All layouts of the same tokens read alike, and a text is a
layout of the tokens it reads as.
-/

/-- Whether the token is a paren. -/
def Token.isParen : Token → Bool
  | .lparen | .rparen => true
  | .word _ => false

/-- A character that can be part of a word inside a line. -/
def IsWordChar (c : Char) : Prop := isBlank c = false ∧ c ≠ '(' ∧ c ≠ ')'

instance (c : Char) : Decidable (IsWordChar c) := inferInstanceAs (Decidable (_ ∧ _ ∧ _))

/-- A token that can come of a line: a paren, or a word with at least one character and neither
blanks nor parens in it. -/
def Token.Legal : Token → Prop
  | .lparen | .rparen => True
  | .word w => w ≠ "" ∧ ∀ c ∈ w.toList, IsWordChar c

instance (t : Token) : Decidable t.Legal :=
  match t with
  | .lparen | .rparen => isTrue trivial
  | .word w =>
    -- The characters of the word are gone through, rather than all characters there are.
    have : Decidable (∀ c ∈ w.toList, IsWordChar c) := List.decidableBAll _ _
    inferInstanceAs (Decidable (_ ∧ _))

/-- The characters `cs` are a layout of `ts`, behind a word if `afterWord`. -/
inductive LaidOut : (afterWord : Bool) → (ts : List Token) → (cs : List Char) → Prop where
  /-- Blanks may follow the last token. -/
  | nil {afterWord : Bool} (gap : List Char) (hgap : ∀ c ∈ gap, isBlank c) :
      LaidOut afterWord [] gap
  /-- Blanks may precede a token, and have to between two words. -/
  | cons {afterWord : Bool} (gap : List Char) (t : Token) {ts : List Token} {cs : List Char}
      (hgap : ∀ c ∈ gap, isBlank c) (apart : afterWord → t.isParen = false → gap ≠ [])
      (rest : LaidOut (!t.isParen) ts cs) :
      LaidOut afterWord (t :: ts) (gap ++ t.text.toList ++ cs)

/-- The text `s` is a layout of `ts`. -/
def IsLayout (ts : List Token) (s : String) : Prop := LaidOut false ts s.toList

/-! ## Balance

How many more lists a row of tokens opens than it closes. A whole expression is balanced, and a row
that breaks off shows by its balance how many lists it leaves open.
-/

/-- How many more opening than closing parens there are among `ts`. -/
def balance (ts : List Token) : Int := ts.count .lparen - ts.count .rparen

@[simp] theorem balance_nil : balance [] = 0 := rfl

@[simp] theorem balance_lparen (ts : List Token) : balance (.lparen :: ts) = balance ts + 1 := by
  simp [balance]
  omega

@[simp] theorem balance_rparen (ts : List Token) : balance (.rparen :: ts) = balance ts - 1 := by
  simp [balance]
  omega

@[simp] theorem balance_word (w : String) (ts : List Token) :
    balance (.word w :: ts) = balance ts := by
  simp [balance]

@[simp] theorem balance_append (ts us : List Token) :
    balance (ts ++ us) = balance ts + balance us := by
  simp [balance]
  omega

/-- Balanced parts make a balanced row. -/
theorem balance_flatMap {α : Type} {f : α → List Token} {parts : List α}
    (h : ∀ p ∈ parts, balance (f p) = 0) : balance (parts.flatMap f) = 0 := by
  induction parts with
  | nil => rfl
  | cons p parts ih =>
    obtain ⟨hp, hparts⟩ := List.forall_mem_cons.mp h
    rw [List.flatMap_cons, balance_append, hp, ih hparts]
    rfl

end PrefixArith
