import PrefixArith.Proofs.Effects

/-!
# Kinds and values

Whether evaluation gives a value, and whether that is a number or a name, can be told from the tree
and the environment that evaluation starts with. `HasKind` is the rule: operands of arithmetic have
to be numbers, a bound name has the kind of its value, and `define` gives a name if it is applied to
a name and anything with a value.

Evaluation goes on in whatever environment the parts of the tree have left. It agrees with the rule all
the same, as a part that leaves another environment has given a name, and then nothing is evaluated any
more:

> `HasKind.exists_eval`: a tree with a kind has a value of that kind.
> `hasKind_of_eval`: the kind of a value is the kind of the tree.
-/

namespace PrefixArith

/-- Number or name. -/
inductive Kind where
  | number
  | name
deriving DecidableEq, Repr

/-- The kind of a value. -/
def Value.kind : Value → Kind
  | .num _ => .number
  | .ref _ => .name

/-- Over `env` the tree `e` has a value, of the kind `k`. -/
inductive HasKind (env : Env) : (e : Expr) → (k : Kind) → Prop where
  | num (n : Int) : HasKind env (.atom (.num n)) .number
  | ref {name : String} {v : Value} (hv : env.get? name = some v) :
      HasKind env (.atom (.ref name)) v.kind
  | arith (op : Arith) {es : List Expr} (hne : es ≠ []) (hes : ∀ e ∈ es, HasKind env e .number) :
      HasKind env (.list (.arith op) es) .number
  | define (name : String) {e : Expr} {k : Kind} (he : HasKind env e k) :
      HasKind env (.list .define [.atom (.ref name), e]) .name

/-- Any row of numbers but the empty one has a combination. -/
theorem Arith.exists_result (op : Arith) {ns : List Int} (h : ns ≠ []) :
    ∃ n, op.result ns = .ok (.num n) := by
  obtain ⟨n, ns, rfl⟩ := List.exists_cons_of_ne_nil h
  exact ⟨ns.foldl op.apply n, rfl⟩

theorem HasKind.exists_eval {env : Env} {e : Expr} {k : Kind} (h : HasKind env e k) :
    ∃ v env', e.eval env = ⟨.ok v, env'⟩ ∧ v.kind = k := by
  induction h with
  | num n => exact ⟨.num n, env, by rw [Expr.eval], rfl⟩
  | @ref name v hv => exact ⟨v, env, by rw [Expr.eval, Env.value, hv], rfl⟩
  | @arith op es hne _ ih =>
    -- An operand that gives a number leaves the environment to the next one as it was.
    have hnumbers : ∀ e ∈ es, ∃ n, e.eval env = ⟨.ok (.num n), env⟩ := by
      intro e he
      obtain ⟨v, env', hv, hkind⟩ := ih e he
      cases v with
      | num n =>
        have henv := e.eval_num_env env env' n hv
        exact ⟨n, by rw [hv, henv]⟩
      | ref name => cases hkind
    obtain ⟨ns, hns, hlength⟩ := Expr.exists_evalNumbers hnumbers
    have hnsne : ns ≠ [] := by
      rintro rfl
      exact hne (List.length_eq_zero_iff.mp hlength.symm)
    obtain ⟨n, hn⟩ := op.exists_result hnsne
    exact ⟨.num n, env, by rw [Expr.eval, hns, Outcome.bind_ok, hn], rfl⟩
  | @define name e k _ ih =>
    obtain ⟨v, env', hv, _⟩ := ih
    exact ⟨.ref name, env'.insert name v, by rw [Expr.eval, hv, Outcome.bind_ok], rfl⟩

theorem hasKind_of_eval (e : Expr) :
    ∀ (env env' : Env) (v : Value), e.eval env = ⟨.ok v, env'⟩ → HasKind env e v.kind := by
  induction e with
  | atom a =>
    intro env env' v h
    cases a with
    | num n =>
      cases h
      exact .num n
    | ref name =>
      rw [Expr.eval, Env.value] at h
      split at h
      · next w hw =>
        cases h
        exact .ref hw
      · cases h
  | foreignAtom s => intro env env' v h; cases h
  | foreign s => intro env env' v h; cases h
  | list op es ih =>
    intro env env' v h
    cases op with
    | arith op =>
      obtain ⟨ns, n, hns, hn, rfl, _⟩ := Expr.eval_arith_eq_ok h
      refine .arith op ?_ ?_
      · -- Without operands there would be no combination.
        rintro rfl
        cases hns
        cases hn
      · intro e he
        obtain ⟨m, hm⟩ := Expr.exists_num_of_evalNumbers hns e he
        exact ih e he env env (.num m) hm
    | define =>
      obtain ⟨name, e, w, env₁, rfl, hw, rfl, _⟩ := Expr.eval_define_eq_ok h
      exact .define name (ih e (by simp) env env₁ w hw)

/-- **The kind of a tree tells how its evaluation ends.** The tree has a value exactly if it has a
kind, and the value is of that kind; and it gives a number, where one is needed, exactly if that is
its kind. -/
theorem hasKind_iff_eval (e : Expr) (env : Env) :
    (∀ k, HasKind env e k ↔ ∃ v env', e.eval env = ⟨.ok v, env'⟩ ∧ v.kind = k) ∧
    ((∃ v env', e.eval env = ⟨.ok v, env'⟩) ↔ ∃ k, HasKind env e k) ∧
    ((∃ n env', e.evalNumber env = ⟨.ok n, env'⟩) ↔ HasKind env e .number) := by
  refine ⟨?_, ?_, ?_⟩
  · intro k
    constructor
    · exact HasKind.exists_eval
    · rintro ⟨v, env', hv, rfl⟩
      exact hasKind_of_eval e env env' v hv
  · constructor
    · rintro ⟨v, env', hv⟩
      exact ⟨v.kind, hasKind_of_eval e env env' v hv⟩
    · rintro ⟨k, hk⟩
      obtain ⟨v, env', hv, _⟩ := hk.exists_eval
      exact ⟨v, env', hv⟩
  · constructor
    · rintro ⟨n, env', hn⟩
      exact hasKind_of_eval e env env' (.num n) (Expr.evalNumber_eq_ok_iff.mp hn)
    · intro h
      obtain ⟨v, env', hv, hkind⟩ := h.exists_eval
      cases v with
      | num n => exact ⟨n, env', Expr.evalNumber_eq_ok_iff.mpr hv⟩
      | ref name => cases hkind

end PrefixArith
