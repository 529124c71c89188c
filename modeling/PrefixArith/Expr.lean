import PrefixArith.Env
import PrefixArith.Text.Quoted

/-!
# Expressions

An expression is a number, a name, or a list of operands headed by an operator. A tree can also be
built by hand from parts that are no expressions: `foreignAtom` is an atom that holds something other
than a number or a name, `foreign` a node that is neither atom nor list. Each is known by a text.
Reading a line never yields one, and evaluation reports what it meets of them.

> `Expr.induction`: what holds of a list whenever it holds of its operands holds of every tree.
> `Expr.defineInduction`: the same, with a case of its own for a `define` that has a name to bind.
> `Expr.texts_eq_map`: the operands of a list are written each on its own.
> `Expr.render_eq_ok_iff`: a tree is shown, by its text, exactly if it has no fault.
-/

namespace PrefixArith

/-! ## Operators

The four words that can head a list. Three of them compute with words of 32 bits, and `define` binds
a name. An operator is its keyword and nothing else: `ofKeyword?_keyword` and
`keyword_of_ofKeyword?` say that the two determine each other.
-/

/-- An operation on numbers. -/
inductive Arith where
  | add
  | sub
  | mul
deriving DecidableEq, Repr

/-- The exact result, of any size. -/
def Arith.exactly : Arith → Int → Int → Int
  | .add, m, n => m + n
  | .sub, m, n => m - n
  | .mul, m, n => m * n

/-- The result as a word of 32 bits. -/
def Arith.apply (op : Arith) (m n : Int) : Int := wrap (op.exactly m n)

/-- Combines a row of numbers from the left. The first stands as it is and every step is wrapped, so
a single number is not wrapped at all; an empty row has no result. -/
def Arith.combine? (op : Arith) : List Int → Option Int
  | [] => none
  | n :: ns => some (ns.foldl op.apply n)

/-- What the head of a list does with the operands behind it. -/
inductive Operator where
  | arith (op : Arith)
  | define
deriving DecidableEq, Repr

namespace Operator

/-- The word an operator is written as. -/
def keyword : Operator → String
  | .arith .add => "+"
  | .arith .sub => "-"
  | .arith .mul => "*"
  | .define => "define"

/-- The operator that a word is, if it is one. -/
def ofKeyword? (w : String) : Option Operator :=
  if w = "+" then some (.arith .add)
  else if w = "-" then some (.arith .sub)
  else if w = "*" then some (.arith .mul)
  else if w = "define" then some .define
  else none

@[simp] theorem ofKeyword?_keyword (op : Operator) : ofKeyword? op.keyword = some op := by
  rcases op with ⟨⟨⟩⟩ | _ <;> decide

theorem keyword_of_ofKeyword? {w : String} {op : Operator} (h : ofKeyword? w = some op) :
    op.keyword = w := by
  grind [ofKeyword?, keyword]

end Operator

/-! ## Trees -/

/-- A tree to evaluate or to show. -/
inductive Expr where
  | atom (v : Value)
  | foreignAtom (text : String)
  | foreign (text : String)
  | list (op : Operator) (operands : List Expr)
deriving Repr

namespace Expr

/-- Whether the tree is a name. -/
def isReference : Expr → Bool
  | .atom (.ref _) => true
  | _ => false

mutual

/-- How many lists lie inside one another. -/
def height : Expr → Nat
  | .atom _ | .foreignAtom _ | .foreign _ => 0
  | .list _ es => heights es + 1

/-- The greatest height among `es`. -/
def heights : List Expr → Nat
  | [] => 0
  | e :: es => max e.height (heights es)

end

/-- Induction over a tree that assumes the statement of every operand of a list. -/
@[induction_eliminator]
theorem induction {motive : Expr → Prop}
    (atom : ∀ v, motive (.atom v))
    (foreignAtom : ∀ s, motive (.foreignAtom s))
    (foreign : ∀ s, motive (.foreign s))
    (list : ∀ op es, (∀ e ∈ es, motive e) → motive (.list op es))
    (e : Expr) : motive e :=
  match e with
  | .atom v => atom v
  | .foreignAtom s => foreignAtom s
  | .foreign s => foreign s
  | .list op es => list op es fun e _ => induction atom foreignAtom foreign list e

/-- The operands `es` behind `op` begin with a name to bind. -/
def DefinesName (op : Operator) (es : List Expr) : Prop :=
  ∃ name es', op = .define ∧ es = .atom (.ref name) :: es'

/-- Induction over a tree that tells a `define` of a name from the other lists. -/
theorem defineInduction {motive : Expr → Prop}
    (atom : ∀ v, motive (.atom v))
    (foreignAtom : ∀ s, motive (.foreignAtom s))
    (foreign : ∀ s, motive (.foreign s))
    (define : ∀ name es, (∀ e ∈ es, motive e) → motive (.list .define (.atom (.ref name) :: es)))
    (list : ∀ op es, ¬DefinesName op es → (∀ e ∈ es, motive e) → motive (.list op es))
    (e : Expr) : motive e := by
  induction e with
  | atom v => exact atom v
  | foreignAtom s => exact foreignAtom s
  | foreign s => exact foreign s
  | list op es ih =>
    by_cases h : DefinesName op es
    · obtain ⟨name, es', rfl, rfl⟩ := h
      exact define name es' fun e he => ih e (List.mem_cons_of_mem _ he)
    · exact list op es h ih

theorem height_le_heights {e : Expr} {es : List Expr} (h : e ∈ es) : e.height ≤ heights es := by
  induction es with
  | nil => cases h
  | cons x es ih =>
    rw [heights]
    rcases List.mem_cons.1 h with rfl | h
    · exact Nat.le_max_left ..
    · exact Nat.le_trans (ih h) (Nat.le_max_right ..)

end Expr

/-! ## Malformed trees

A tree built by hand can be malformed: it may have a part that is no expression, a `define` with
nothing to bind, or an operation with nothing to combine. Which of these matters depends on what is
done with the tree. Showing it passes over an atom of a foreign kind, which has a text, and over an
operation without operands; `Expr.fault?` is the fault that stops it. Evaluation meets faults as it
goes.
-/

/-- What is wrong with a malformed tree. -/
inductive Fault where
  /-- An atom holds neither a number nor a name. -/
  | foreignAtom (text : String)
  /-- A node is neither an atom nor a list. -/
  | foreign (text : String)
  /-- There are no numbers to combine. -/
  | noOperands
  /-- There is no name to bind. -/
  | noTarget
deriving DecidableEq, Repr

/-- What is reported of a fault; of missing operands nothing is. -/
def Fault.message? : Fault → Option String
  | .foreignAtom s => some ("Bad atom: " ++ quote s)
  | .foreign s => some ("Bad expression: " ++ quote s)
  | .noOperands | .noTarget => none

namespace Expr

mutual

/-- The first fault that showing the tree meets, outer before inner and left before right. -/
def fault? : Expr → Option Fault
  | .atom _ | .foreignAtom _ => none
  | .foreign s => some (.foreign s)
  | .list .define [] => some .noTarget
  | .list _ es => firstFault? es

/-- The first fault among `es`. -/
def firstFault? : List Expr → Option Fault
  | [] => none
  | e :: es => e.fault?.or (firstFault? es)

end

theorem firstFault?_eq_none_iff {es : List Expr} :
    firstFault? es = none ↔ ∀ e ∈ es, e.fault? = none := by
  induction es with
  | nil => simp [firstFault?]
  | cons e es ih => simp [firstFault?, ih]

end Expr

/-! ## Writing

An expression is written as it is read: a list in parens, its operator first, one space between the
parts. A name bound in the environment is shown by its value, which is not looked up again; the name
that `define` binds is shown as the name. Every tree has a `text`, and `Expr.render` gives it out unless
the tree is malformed.
-/

/-- The value by which `v` is shown: what it is bound to, if it is a bound name. -/
def Value.resolve (env : Env) : Value → Value
  | .num n => .num n
  | .ref name => (env.get? name).getD (.ref name)

/-- The text of a list with the given parts. -/
def parenthesized (parts : List String) : String := "(" ++ " ".intercalate parts ++ ")"

namespace Expr

mutual

/-- The text of the tree. -/
def text (env : Env) : Expr → String
  | .atom v => (v.resolve env).text
  | .foreignAtom s | .foreign s => s
  | .list .define (.atom (.ref name) :: es) =>
    parenthesized (Operator.define.keyword :: name :: texts env es)
  | .list op es => parenthesized (op.keyword :: texts env es)

/-- The texts of `es`, one for each. -/
def texts (env : Env) : List Expr → List String
  | [] => []
  | e :: es => e.text env :: texts env es

end

/-- The text of the tree, unless it is malformed. -/
def render (env : Env) (e : Expr) : Except Fault String :=
  match e.fault? with
  | some fault => .error fault
  | none => .ok (e.text env)

theorem texts_eq_map (env : Env) (es : List Expr) : texts env es = es.map (text env) := by
  induction es with
  | nil => rfl
  | cons e es ih => rw [texts, ih, List.map_cons]

theorem text_list {op : Operator} {es : List Expr} (h : ¬DefinesName op es) (env : Env) :
    (list op es).text env = parenthesized (op.keyword :: texts env es) := by
  rw [text]
  exact fun name es' hop hes => h ⟨name, es', hop, hes⟩

theorem render_eq_ok_iff {env : Env} {e : Expr} {s : String} :
    e.render env = .ok s ↔ e.fault? = none ∧ e.text env = s := by
  unfold render
  split <;> simp_all

end Expr

end PrefixArith
