import Mathlib.Data.List.Forall2
import PrefixArith.Eval

/-!
# What evaluation does to the environment

Only `define` binds, and what it gives is a name, with which nothing can be computed. So as soon as
a name is bound there are two ways to go on: enclosing `define`s bind more names, or an operation
finds a name in the place of a number. It follows that arithmetic runs in the environment it began
with:

> `eval_num_env`: a tree that gives a number leaves the environment alone.
> `evalNumbers_eq_ok_iff`: operands that give numbers all give them in the environment that the
> first of them is evaluated in.
> `evalNumbers_eq_error`: so does the operand that stops a row of them.

What a run leaves behind can then be read off the tree. It is the chain of `define`s at the top of
the tree if there is a value (`eval_chain`), and at most one such chain further down, the operand
that was no number, if there is none (`eval_error`).
-/

namespace PrefixArith

/-! ## Runs in two steps -/

theorem Outcome.bind_eq_ok {α β : Type} {o : Outcome α} {f : α → Env → Outcome β} {b : β}
    {env' : Env} (h : o.bind f = ⟨.ok b, env'⟩) :
    ∃ a env, o = ⟨.ok a, env⟩ ∧ f a env = ⟨.ok b, env'⟩ := by
  rcases o with ⟨failure | a, env⟩
  · cases h
  · exact ⟨a, env, rfl, h⟩

theorem Outcome.bind_eq_error {α β : Type} {o : Outcome α} {f : α → Env → Outcome β}
    {failure : Failure} {env' : Env} (h : o.bind f = ⟨.error failure, env'⟩) :
    o = ⟨.error failure, env'⟩ ∨ ∃ a env, o = ⟨.ok a, env⟩ ∧ f a env = ⟨.error failure, env'⟩ := by
  rcases o with ⟨failure' | a, env⟩
  · cases h
    exact .inl rfl
  · exact .inr ⟨a, env, rfl, h⟩

namespace Expr

theorem evalNumber_eq_ok_iff {e : Expr} {env env' : Env} {n : Int} :
    e.evalNumber env = ⟨.ok n, env'⟩ ↔ e.eval env = ⟨.ok (.num n), env'⟩ := by
  constructor
  · intro h
    obtain ⟨v, env₁, hv, hn⟩ := Outcome.bind_eq_ok h
    cases v with
    | num m =>
      cases hn
      exact hv
    | ref name => cases hn
  · intro h
    rw [evalNumber, h]
    rfl

/-- A number is missing because evaluation failed, or because it gave a name. -/
theorem evalNumber_eq_error {e : Expr} {env env' : Env} {f : Failure}
    (h : e.evalNumber env = ⟨.error f, env'⟩) :
    e.eval env = ⟨.error f, env'⟩ ∨
      ∃ name, e.eval env = ⟨.ok (.ref name), env'⟩ ∧ f = .error (.notNumber name) := by
  rcases Outcome.bind_eq_error h with h | ⟨v, env₁, hv, hf⟩
  · exact .inl h
  · cases v with
    | num n => cases hf
    | ref name =>
      cases hf
      exact .inr ⟨name, hv, rfl⟩

/-- Whether the tree is a list headed by `define`. -/
def isDefine : Expr → Bool
  | .list .define _ => true
  | _ => false

/-- A `define` of a name and a tree; one of two operands, the first of which is not a name; or one of
another number of operands. The last two fail before they have evaluated anything. -/
theorem define_forms (es : List Expr) :
    (∃ name e, es = [.atom (.ref name), e]) ∨
      (∃ target e, es = [target, e] ∧
        ∀ env, (list .define es).eval env = ⟨.error target.unboundable, env⟩) ∨
      ∀ env, (list .define es).eval env = ⟨.error (.error (.arity es.length)), env⟩ := by
  rcases es with _ | ⟨target, _ | ⟨e, _ | ⟨e', es⟩⟩⟩
  · exact .inr (.inr fun env => rfl)
  · exact .inr (.inr fun env => by simp [eval])
  · cases target with
    | atom v =>
      cases v with
      | num n => exact .inr (.inl ⟨_, e, rfl, fun env => rfl⟩)
      | ref name => exact .inl ⟨name, e, rfl⟩
    | foreignAtom s => exact .inr (.inl ⟨_, e, rfl, fun env => rfl⟩)
    | foreign s => exact .inr (.inl ⟨_, e, rfl, fun env => rfl⟩)
    | list op es => exact .inr (.inl ⟨_, e, rfl, fun env => rfl⟩)
  · exact .inr (.inr fun env => by simp [eval])

/-- A `define` of a name and a tree; any other one fails before it has evaluated anything. -/
theorem define_cases (es : List Expr) :
    (∃ name e, es = [.atom (.ref name), e]) ∨
      ∀ env, ∃ f, (list .define es).eval env = ⟨.error f, env⟩ ∧
        ∀ s, f ≠ .error (.notNumber s) := by
  rcases define_forms es with hname | ⟨target, e, rfl, hfail⟩ | hfail
  · exact .inl hname
  · refine .inr fun env => ⟨target.unboundable, hfail env, ?_⟩
    intro s
    unfold unboundable
    split
    · simp
    · simp
  · exact .inr fun env => ⟨_, hfail env, by simp⟩

/-- A `define` that gives a value evaluates what it binds, binds it, and gives the name. -/
theorem eval_define_eq_ok {es : List Expr} {env env' : Env} {v : Value}
    (h : (list .define es).eval env = ⟨.ok v, env'⟩) :
    ∃ name e w env₁, es = [.atom (.ref name), e] ∧ e.eval env = ⟨.ok w, env₁⟩ ∧
      v = .ref name ∧ env' = env₁.insert name w := by
  rcases define_cases es with ⟨name, e, rfl⟩ | hfail
  · rw [eval] at h
    obtain ⟨w, env₁, hw, hv⟩ := Outcome.bind_eq_ok h
    cases hv
    exact ⟨name, e, w, env₁, rfl, hw, rfl, rfl⟩
  · obtain ⟨f, hf, _⟩ := hfail env
    rw [hf] at h
    cases h

/-! ## Numbers -/

/-- If each of a row of trees leaves the environment alone when it gives a number, so does the
row. -/
theorem evalNumbers_env {es : List Expr}
    (hone : ∀ e ∈ es, ∀ env env' n, e.eval env = ⟨.ok (.num n), env'⟩ → env' = env) :
    ∀ (env env' : Env) (ns : List Int), evalNumbers es env = ⟨.ok ns, env'⟩ → env' = env := by
  induction es with
  | nil => intro env env' ns h; cases h; rfl
  | cons e es ih =>
    intro env env' ns h
    rw [evalNumbers_cons] at h
    obtain ⟨n, env₁, hn, htail⟩ := Outcome.bind_eq_ok h
    obtain ⟨ns', env₂, hns, hpair⟩ := Outcome.bind_eq_ok htail
    cases hpair
    have hfirst := hone e List.mem_cons_self env env₁ n (evalNumber_eq_ok_iff.mp hn)
    have hrest := ih (fun x hx => hone x (List.mem_cons_of_mem _ hx)) env₁ env' ns' hns
    rw [hrest, hfirst]

theorem eval_num_env (e : Expr) :
    ∀ (env env' : Env) (n : Int), e.eval env = ⟨.ok (.num n), env'⟩ → env' = env := by
  induction e with
  | atom v =>
    intro env env' n h
    cases v with
    | num m => cases h; rfl
    | ref name =>
      rw [eval] at h
      injection h with _ henv
      exact henv.symm
  | foreignAtom s => intro env env' n h; cases h
  | foreign s => intro env env' n h; cases h
  | list op es ih =>
    intro env env' n h
    cases op with
    | arith op =>
      rw [eval] at h
      obtain ⟨ns, env₁, hns, hresult⟩ := Outcome.bind_eq_ok h
      have hsame := evalNumbers_env ih env env₁ ns hns
      injection hresult with _ henv
      rw [← henv, hsame]
    | define =>
      -- The value of a `define` is a name.
      obtain ⟨name, e, w, env₁, _, _, hv, _⟩ := eval_define_eq_ok h
      cases hv

theorem evalNumbers_eq_ok_iff {es : List Expr} {env env' : Env} {ns : List Int} :
    evalNumbers es env = ⟨.ok ns, env'⟩ ↔
      env' = env ∧ List.Forall₂ (fun e n => e.eval env = ⟨.ok (.num n), env⟩) es ns := by
  induction es generalizing ns with
  | nil =>
    constructor
    · intro h
      cases h
      exact ⟨rfl, .nil⟩
    · rintro ⟨rfl, h⟩
      cases h
      rfl
  | cons e es ih =>
    rw [evalNumbers_cons]
    constructor
    · intro h
      obtain ⟨n, env₁, hn, htail⟩ := Outcome.bind_eq_ok h
      rw [evalNumber_eq_ok_iff] at hn
      obtain rfl := eval_num_env e env env₁ n hn
      obtain ⟨ns', env₂, hns, hpair⟩ := Outcome.bind_eq_ok htail
      cases hpair
      obtain ⟨rfl, hall⟩ := ih.mp hns
      exact ⟨rfl, .cons hn hall⟩
    · rintro ⟨rfl, h⟩
      cases h with
      | cons hn hall =>
        rw [evalNumber_eq_ok_iff.mpr hn, Outcome.bind_ok, ih.mpr ⟨rfl, hall⟩]
        rfl

theorem exists_num_of_evalNumbers {es : List Expr} {env env' : Env} {ns : List Int}
    (h : evalNumbers es env = ⟨.ok ns, env'⟩) :
    ∀ e ∈ es, ∃ n, e.eval env = ⟨.ok (.num n), env⟩ := by
  obtain ⟨_, hall⟩ := evalNumbers_eq_ok_iff.mp h
  clear h
  induction hall with
  | nil => intro e he; cases he
  | cons hfirst _ ih =>
    intro e he
    rcases List.mem_cons.mp he with rfl | he
    · exact ⟨_, hfirst⟩
    · exact ih e he

/-- Every number of a row is what one of the operands gives. -/
theorem exists_mem_of_evalNumbers {es : List Expr} {env env' : Env} {ns : List Int}
    (h : evalNumbers es env = ⟨.ok ns, env'⟩) :
    ∀ n ∈ ns, ∃ e ∈ es, e.eval env = ⟨.ok (.num n), env⟩ := by
  obtain ⟨_, hall⟩ := evalNumbers_eq_ok_iff.mp h
  clear h
  induction hall with
  | nil => intro n hn; cases hn
  | cons hfirst _ ih =>
    intro n hn
    rcases List.mem_cons.mp hn with rfl | hn
    · exact ⟨_, List.mem_cons_self, hfirst⟩
    · obtain ⟨e, he, heval⟩ := ih n hn
      exact ⟨e, List.mem_cons_of_mem _ he, heval⟩

/-- Trees that each give a number where the row begins give a row of as many numbers. -/
theorem exists_evalNumbers {es : List Expr} {env : Env}
    (h : ∀ e ∈ es, ∃ n, e.eval env = ⟨.ok (.num n), env⟩) :
    ∃ ns, evalNumbers es env = ⟨.ok ns, env⟩ ∧ ns.length = es.length := by
  have hall : ∃ ns, List.Forall₂ (fun e n => e.eval env = ⟨.ok (.num n), env⟩) es ns := by
    induction es with
    | nil => exact ⟨[], .nil⟩
    | cons e es ih =>
      obtain ⟨⟨n, hn⟩, hrest⟩ := List.forall_mem_cons.mp h
      obtain ⟨ns, hns⟩ := ih hrest
      exact ⟨n :: ns, .cons hn hns⟩
  obtain ⟨ns, hns⟩ := hall
  exact ⟨ns, evalNumbers_eq_ok_iff.mpr ⟨rfl, hns⟩, hns.length_eq.symm⟩

/-- A row of trees that does not give numbers is stopped by one of them, and what it leaves is what
that one leaves. -/
theorem evalNumbers_eq_error {es : List Expr} {env env' : Env} {f : Failure}
    (h : evalNumbers es env = ⟨.error f, env'⟩) :
    ∃ e ∈ es, e.evalNumber env = ⟨.error f, env'⟩ := by
  induction es with
  | nil => cases h
  | cons e es ih =>
    rw [evalNumbers_cons] at h
    rcases Outcome.bind_eq_error h with hfirst | ⟨n, env₁, hn, htail⟩
    · exact ⟨e, List.mem_cons_self, hfirst⟩
    · obtain rfl := eval_num_env e env env₁ n (evalNumber_eq_ok_iff.mp hn)
      rcases Outcome.bind_eq_error htail with hrest | ⟨ns, env₂, _, hpair⟩
      · obtain ⟨x, hx, hfail⟩ := ih hrest
        exact ⟨x, List.mem_cons_of_mem _ hx, hfail⟩
      · cases hpair

/-! ## Values -/

/-- An operation that gives a value evaluates its operands to numbers and combines these, all in the
environment that it is evaluated in. -/
theorem eval_arith_eq_ok {op : Arith} {es : List Expr} {env env' : Env} {v : Value}
    (h : (list (.arith op) es).eval env = ⟨.ok v, env'⟩) :
    ∃ ns n, evalNumbers es env = ⟨.ok ns, env⟩ ∧ op.combine? ns = some n ∧ v = .num n ∧
      env' = env := by
  rw [eval] at h
  obtain ⟨ns, env₁, hns, hresult⟩ := Outcome.bind_eq_ok h
  obtain ⟨rfl, _⟩ := evalNumbers_eq_ok_iff.mp hns
  unfold Arith.result at hresult
  split at hresult
  · next n hn =>
    cases hresult
    exact ⟨ns, n, hns, hn, rfl, rfl⟩
  · cases hresult

/-- Without a `define` at the top, a tree that gives a value leaves the environment alone. -/
theorem eval_ok_env {e : Expr} {env env' : Env} {v : Value} (h : e.eval env = ⟨.ok v, env'⟩)
    (hdefine : e.isDefine = false) : env' = env := by
  cases e with
  | atom a =>
    cases a with
    | num n => cases h; rfl
    | ref name =>
      rw [eval] at h
      injection h with _ henv
      exact henv.symm
  | foreignAtom s => cases h
  | foreign s => cases h
  | list op es =>
    cases op with
    | arith op =>
      obtain ⟨_, _, _, _, _, henv⟩ := eval_arith_eq_ok h
      exact henv
    | define => cases hdefine

end Expr

/-- The first of the names is bound last, to the name behind it if there is one. -/
theorem Env.insertChain_cons (env : Env) (v : Value) (name : String) (names : List String) :
    env.insertChain v (name :: names)
      = (env.insertChain v names).insert name ((names.head?.map Value.ref).getD v) := by
  cases names with
  | nil => rfl
  | cons next names => rfl

namespace Expr

theorem chain_of_isDefine_eq_false {e : Expr} (h : e.isDefine = false) : e.chain = ([], e) := by
  cases e with
  | atom v => rfl
  | foreignAtom s => rfl
  | foreign s => rfl
  | list op es =>
    cases op with
    | arith op => rw [chain]; simp
    | define => cases h

/-- **A tree that gives a value binds its chain.** The tree at the end of the chain has a value in
the environment that evaluation began with, and the value of the whole is the first name. -/
theorem eval_chain (e : Expr) :
    ∀ (env env' : Env) (v : Value), e.eval env = ⟨.ok v, env'⟩ →
      ∃ w, e.chain.2.eval env = ⟨.ok w, env⟩ ∧ e.chain.2.isDefine = false ∧
        v = (e.chain.1.head?.map Value.ref).getD w ∧ env' = env.insertChain w e.chain.1 := by
  -- Where no `define` is at the top, the chain is empty and nothing gets bound.
  have hplain : ∀ (e : Expr), e.isDefine = false → ∀ (env env' : Env) (v : Value),
      e.eval env = ⟨.ok v, env'⟩ →
        ∃ w, e.chain.2.eval env = ⟨.ok w, env⟩ ∧ e.chain.2.isDefine = false ∧
          v = (e.chain.1.head?.map Value.ref).getD w ∧ env' = env.insertChain w e.chain.1 := by
    intro e hdefine env env' v h
    obtain rfl := eval_ok_env h hdefine
    rw [chain_of_isDefine_eq_false hdefine]
    exact ⟨v, h, hdefine, rfl, rfl⟩
  induction e with
  | atom v => exact hplain _ rfl
  | foreignAtom s => exact hplain _ rfl
  | foreign s => exact hplain _ rfl
  | list op es ih =>
    cases op with
    | arith op => exact hplain _ rfl
    | define =>
      intro env env' v h
      obtain ⟨name, e, w₁, env₁, rfl, hw₁, rfl, rfl⟩ := eval_define_eq_ok h
      obtain ⟨w, hw, hend, rfl, rfl⟩ := ih e (by simp) env env₁ w₁ hw₁
      refine ⟨w, hw, hend, rfl, ?_⟩
      rw [chain, Env.insertChain_cons]

/-! ## Failures -/

/-- The tree `x` is an operand of an operation on numbers somewhere in a tree. -/
inductive ArithOperand (x : Expr) : Expr → Prop where
  | here {op : Arith} {es : List Expr} (hx : x ∈ es) : ArithOperand x (.list (.arith op) es)
  | inside {op : Operator} {e : Expr} {es : List Expr} (he : e ∈ es) (hx : ArithOperand x e) :
      ArithOperand x (.list op es)

/-- **A failed run binds nothing before the failure**, unless an operand that was to be a number
gave a name, and then it leaves the environment that this operand leaves. -/
theorem eval_error (e : Expr) :
    ∀ (env env' : Env) (f : Failure), e.eval env = ⟨.error f, env'⟩ →
      (env' = env ∧ ∀ s, f ≠ .error (.notNumber s)) ∨
        ∃ (s : String) (x : Expr), f = .error (.notNumber s) ∧ x.ArithOperand e ∧
          x.eval env = ⟨.ok (.ref s), env'⟩ := by
  induction e with
  | atom v =>
    intro env env' f h
    left
    cases v with
    | num n => cases h
    | ref name =>
      rw [eval, Env.value] at h
      split at h
      · cases h
      · cases h
        exact ⟨rfl, by simp⟩
  | foreignAtom s =>
    intro env env' f h
    cases h
    exact .inl ⟨rfl, by simp⟩
  | foreign s =>
    intro env env' f h
    cases h
    exact .inl ⟨rfl, by simp⟩
  | list op es ih =>
    intro env env' f h
    cases op with
    | arith op =>
      rw [eval] at h
      rcases Outcome.bind_eq_error h with hstop | ⟨ns, env₁, hns, hresult⟩
      · -- The operand that stops the row was evaluated in `env`, so it leaves all there is to see.
        obtain ⟨x, hx, hfail⟩ := evalNumbers_eq_error hstop
        rcases evalNumber_eq_error hfail with hfail | ⟨s, hs, rfl⟩
        · rcases ih x hx env env' f hfail with hsame | ⟨s, y, hf, hy, hs⟩
          · exact .inl hsame
          · exact .inr ⟨s, y, hf, .inside hx hy, hs⟩
        · exact .inr ⟨s, x, rfl, .here hx, hs⟩
      · -- The operands are numbers, so there were none of them.
        obtain ⟨rfl, _⟩ := evalNumbers_eq_ok_iff.mp hns
        unfold Arith.result at hresult
        split at hresult
        · cases hresult
        · cases hresult
          exact .inl ⟨rfl, by simp⟩
    | define =>
      rcases define_cases es with ⟨name, e, rfl⟩ | hfail
      · rw [eval] at h
        rcases Outcome.bind_eq_error h with hstop | ⟨w, env₁, _, hbound⟩
        · rcases ih e (by simp) env env' f hstop with hsame | ⟨s, y, hf, hy, hs⟩
          · exact .inl hsame
          · exact .inr ⟨s, y, hf, .inside (by simp) hy, hs⟩
        · cases hbound
      · -- The operands are wrong, and none of them is evaluated.
        obtain ⟨f', hf', hother⟩ := hfail env
        rw [hf'] at h
        cases h
        exact .inl ⟨rfl, hother⟩

/-! ## The statement as a whole -/

/-- From `env` the tree is a chain of `define`s, as long as it can be, with `name` in front; the
tree at its end has a value, and `env'` is `env` with the bindings of the chain and no other. -/
def ChainBinds (e : Expr) (env env' : Env) (name : String) : Prop :=
  ∃ names v w, e.chain = (name :: names, v) ∧ v.isDefine = false ∧
    v.eval env = ⟨.ok w, env⟩ ∧ env' = env.insertChain w (name :: names)

/-- A `define` that gives a value is a chain whose first name is the value. -/
theorem chainBinds_of_eval {e : Expr} {env env' : Env} {v : Value}
    (h : e.eval env = ⟨.ok v, env'⟩) (hdefine : e.isDefine = true) :
    ∃ name, v = .ref name ∧ e.ChainBinds env env' name := by
  obtain ⟨w, hw, hend, hv, henv⟩ := eval_chain e env env' v h
  have hnames : ∃ name names, e.chain.1 = name :: names := by
    cases e with
    | list op es =>
      cases op with
      | arith op => cases hdefine
      | define =>
        obtain ⟨name, e, _, _, rfl, _⟩ := eval_define_eq_ok h
        exact ⟨name, e.chain.1, by rw [chain]⟩
    | atom _ | foreignAtom _ | foreign _ => cases hdefine
  obtain ⟨name, names, hnames⟩ := hnames
  refine ⟨name, ?_, names, e.chain.2, w, ?_, hend, hw, ?_⟩
  · rw [hv, hnames]
    rfl
  · rw [← hnames]
  · rw [henv, hnames]

/-- **What evaluation leaves in the environment.** With a value: nothing new, or the bindings of the
chain that the tree is. With a failure: nothing new, unless a name stands where a number has to be;
then nothing new, or the bindings of one chain, which is the operand in question. -/
theorem eval_effects (e : Expr) (env env' : Env) :
    (∀ v, e.eval env = ⟨.ok v, env'⟩ → e.isDefine = false → env' = env) ∧
    (∀ v, e.eval env = ⟨.ok v, env'⟩ → e.isDefine = true →
      ∃ name, v = .ref name ∧ e.ChainBinds env env' name) ∧
    (∀ f, e.eval env = ⟨.error f, env'⟩ → (∀ s, f ≠ .error (.notNumber s)) → env' = env) ∧
    (∀ s, e.eval env = ⟨.error (.error (.notNumber s)), env'⟩ →
      env' = env ∨ ∃ x : Expr, x.ArithOperand e ∧ x.ChainBinds env env' s) := by
  refine ⟨fun v => eval_ok_env, fun v => chainBinds_of_eval, ?_, ?_⟩
  · intro f h hother
    rcases eval_error e env env' f h with ⟨hsame, _⟩ | ⟨s, _, hf, _⟩
    · exact hsame
    · exact absurd hf (hother s)
  · intro s h
    rcases eval_error e env env' _ h with ⟨hsame, _⟩ | ⟨s', x, hf, hx, hs⟩
    · exact .inl hsame
    · cases hf
      cases hdefine : x.isDefine with
      | false => exact .inl (eval_ok_env hs hdefine)
      | true =>
        obtain ⟨name, hname, hchain⟩ := chainBinds_of_eval hs hdefine
        cases hname
        exact .inr ⟨x, hx, hchain⟩

/-- A sum of numbers, a chain of two names, a name without a value, and the chain in the place of a
number: each of the four cases comes up. -/
theorem eval_effects_cases :
    let two : Expr := .atom (.num 2)
    let e : Expr := .list .define [.atom (.ref "x"), .list .define [.atom (.ref "y"), two]]
    let bound : Env := (∅ : Env).insertChain (.num 2) ["x", "y"]
    ((list (.arith .add) [two, two]).eval ∅ = ⟨.ok (.num 4), ∅⟩ ∧ (∅ : Env) = ∅) ∧
    (e.eval ∅ = ⟨.ok (.ref "x"), bound⟩ ∧
      ∃ name, Value.ref "x" = .ref name ∧ e.ChainBinds ∅ bound name) ∧
    ((list (.arith .add) [two, .atom (.ref "x")]).eval ∅ = ⟨.error (.error (.undefined "x")), ∅⟩ ∧
      (∅ : Env) = ∅) ∧
    ((list (.arith .add) [two, e]).eval ∅ = ⟨.error (.error (.notNumber "x")), bound⟩ ∧
      (bound = ∅ ∨
        ∃ x : Expr, x.ArithOperand (.list (.arith .add) [two, e]) ∧ x.ChainBinds ∅ bound "x")) := by
  intro two e bound
  refine ⟨⟨rfl, ?_⟩, ⟨rfl, ?_⟩, ⟨rfl, ?_⟩, ⟨rfl, ?_⟩⟩
  · exact (eval_effects (.list (.arith .add) [two, two]) ∅ ∅).1 (.num 4) rfl rfl
  · exact (eval_effects e ∅ bound).2.1 (.ref "x") rfl rfl
  · exact (eval_effects (.list (.arith .add) [two, .atom (.ref "x")]) ∅ ∅).2.2.1 _ rfl (by simp)
  · exact (eval_effects (.list (.arith .add) [two, e]) ∅ bound).2.2.2 "x" rfl

end Expr

end PrefixArith
