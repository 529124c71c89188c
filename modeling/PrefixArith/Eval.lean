import PrefixArith.Reader

/-!
# Evaluation

A tree is evaluated over an environment, which `define` extends; what was bound before an evaluation
failed stays bound. So an evaluation has two results, gathered in an `Outcome`: a value or a failure,
and the environment left behind.

Operands are evaluated from the left, and every one of them has to be a number before any are
combined; combining numbers leaves the environment alone, so it is a function of its own
(`Arith.combine?`). `define` looks at its operands in the order count, target, value.
-/

namespace PrefixArith

/-! ## Failures

Evaluation fails in one of two ways. An *error* is a mistake in the expression: a name without a
value, a name where a number has to be or the other way round, a wrong number of operands. It has a
message that begins with its name, and a line with it is reported and left behind. A *fault* is a
malformed tree, which no line gives rise to. A line can also fail earlier, by being no expression.
-/

/-- A mistake that evaluation finds in a well-formed tree. -/
inductive EvalError where
  /-- A name without a value is evaluated. -/
  | undefined (name : String)
  /-- A number is needed and the value is a name. -/
  | notNumber (name : String)
  /-- What `define` is to bind is not a name. -/
  | notName (target : Expr)
  /-- A `define` has other than two operands. -/
  | arity (count : Nat)

namespace EvalError

/-- The name of the error. -/
def kind : EvalError → String
  | .undefined _ => "UndefinedReference"
  | .notNumber _ | .notName _ => "TypeMismatch"
  | .arity _ => "ArityMismatch"

/-- What is wrong, without the name of the error. -/
def detail : EvalError → String
  | .undefined name => quote name
  | .notNumber name => "Expected a number, got " ++ name
  | .notName target => "define needs a name, got " ++ target.text ∅
  | .arity count => "define takes 2 operands, got " ++ String.ofList (decimalDigits count)

/-- What is reported. -/
def message (e : EvalError) : String := e.kind ++ ": " ++ e.detail

end EvalError

/-- Why evaluation stopped. -/
inductive Failure where
  | error (e : EvalError)
  | fault (f : Fault)

/-- Why a line has no result. -/
inductive LineFailure where
  /-- The line is no expression. -/
  | parse (e : ParseError)
  /-- The expression has no value, or its tree cannot be shown. -/
  | eval (failure : Failure)

/-- What is reported of a failure; a fault is not reported. -/
def LineFailure.message : LineFailure → Except Fault String
  | .parse e => .ok e.message
  | .eval (.error e) => .ok e.message
  | .eval (.fault fault) => .error fault

/-! ## Outcomes and values -/

/-- A result or a failure, and the environment that evaluation leaves. -/
structure Outcome (α : Type) where
  result : Except Failure α
  env : Env

namespace Outcome

/-- Goes on with the result and the environment, unless there is no result. -/
def bind {α β : Type} (o : Outcome α) (f : α → Env → Outcome β) : Outcome β :=
  match o with
  | ⟨.ok a, env⟩ => f a env
  | ⟨.error failure, env⟩ => ⟨.error failure, env⟩

@[simp] theorem bind_ok {α β : Type} (a : α) (env : Env) (f : α → Env → Outcome β) :
    bind ⟨.ok a, env⟩ f = f a env := rfl

theorem bind_assoc {α β γ : Type} (o : Outcome α) (f : α → Env → Outcome β)
    (g : β → Env → Outcome γ) : (o.bind f).bind g = o.bind fun a env => (f a env).bind g := by
  obtain ⟨_ | _, _⟩ := o <;> rfl

end Outcome

/-- The number that a value is. -/
def Value.number : Value → Except Failure Int
  | .num n => .ok n
  | .ref name => .error (.error (.notNumber name))

/-- The value of a name. -/
def Env.value (env : Env) (name : String) : Except Failure Value :=
  match env.get? name with
  | some v => .ok v
  | none => .error (.error (.undefined name))

/-- The combination of the operands of a list. -/
def Arith.result (op : Arith) (ns : List Int) : Except Failure Value :=
  match op.combine? ns with
  | some n => .ok (.num n)
  | none => .error (.fault .noOperands)

/-- Why `define` cannot bind `target`, which is not a name: it says what the target is, if that can
be shown. -/
def Expr.unboundable (target : Expr) : Failure :=
  match target.fault? with
  | some fault => .fault fault
  | none => .error (.notName target)

namespace Expr

mutual

/-- Evaluates a tree. -/
def eval : Expr → Env → Outcome Value
  | .atom (.num n), env => ⟨.ok (.num n), env⟩
  | .atom (.ref name), env => ⟨env.value name, env⟩
  | .foreignAtom s, env => ⟨.error (.fault (.foreignAtom s)), env⟩
  | .foreign s, env => ⟨.error (.fault (.foreign s)), env⟩
  | .list (.arith op) es, env => (evalNumbers es env).bind fun ns env => ⟨op.result ns, env⟩
  | .list .define [.atom (.ref name), e], env =>
    (e.eval env).bind fun v env => ⟨.ok (.ref name), env.insert name v⟩
  | .list .define [target, _], env => ⟨.error target.unboundable, env⟩
  | .list .define es, env => ⟨.error (.error (.arity es.length)), env⟩

/-- Evaluates trees to numbers, one after another. -/
def evalNumbers : List Expr → Env → Outcome (List Int)
  | [], env => ⟨.ok [], env⟩
  | e :: es, env =>
    (e.eval env).bind fun v env =>
      Outcome.bind ⟨v.number, env⟩ fun n env =>
        (evalNumbers es env).bind fun ns env => ⟨.ok (n :: ns), env⟩

end

/-- Evaluates a tree that has to be a number. -/
def evalNumber (e : Expr) (env : Env) : Outcome Int :=
  (e.eval env).bind fun v env => ⟨v.number, env⟩

theorem evalNumbers_cons (e : Expr) (es : List Expr) (env : Env) :
    evalNumbers (e :: es) env =
      (e.evalNumber env).bind fun n env =>
        (evalNumbers es env).bind fun ns env => ⟨.ok (n :: ns), env⟩ := by
  rw [evalNumbers, evalNumber, Outcome.bind_assoc]

end Expr

/-! ## Names in a tree

A name in a tree is read or bound: the first operand of `define` is bound, and every other name is
read. Reading a name is all that ties a tree to the environment.
-/

namespace Expr

mutual

/-- The names that the tree reads. -/
def reads : Expr → List String
  | .atom (.ref name) => [name]
  | .atom (.num _) | .foreignAtom _ | .foreign _ => []
  | .list .define (.atom (.ref _) :: es) => readsAll es
  | .list _ es => readsAll es

/-- The names that `es` read. -/
def readsAll : List Expr → List String
  | [] => []
  | e :: es => e.reads ++ readsAll es

end

theorem readsAll_eq_flatMap (es : List Expr) : readsAll es = es.flatMap reads := by
  induction es with
  | nil => rfl
  | cons e es ih => rw [readsAll, ih, List.flatMap_cons]

theorem reads_list {op : Operator} {es : List Expr} (h : ¬DefinesName op es) :
    (list op es).reads = readsAll es := by
  rw [reads]
  exact fun name es' hop hes => h ⟨name, es', hop, hes⟩

mutual

/-- The names that the tree binds. -/
def binds : Expr → List String
  | .atom _ | .foreignAtom _ | .foreign _ => []
  | .list .define (.atom (.ref name) :: es) => name :: bindsAll es
  | .list _ es => bindsAll es

/-- The names that `es` bind. -/
def bindsAll : List Expr → List String
  | [] => []
  | e :: es => e.binds ++ bindsAll es

end

theorem bindsAll_eq_flatMap (es : List Expr) : bindsAll es = es.flatMap binds := by
  induction es with
  | nil => rfl
  | cons e es ih => rw [bindsAll, ih, List.flatMap_cons]

/-- The names at the head of a tree that are bound to one another, and the tree that the last of them
is bound to: `x`, `y` and `v` for `(define x (define y v))`. -/
def chain : Expr → List String × Expr
  | .list .define [.atom (.ref name), e] => (name :: e.chain.1, e.chain.2)
  | e => ([], e)

end Expr

/-- Binds the last of `names` to `v` and every other to the name behind it, the last one first. -/
def Env.insertChain (env : Env) (v : Value) : (names : List String) → Env
  | [] => env
  | [name] => env.insert name v
  | name :: next :: names => (env.insertChain v (next :: names)).insert name (.ref next)

end PrefixArith
