import Mathlib.Data.List.Perm.Basic
import PrefixArith.Proofs.Exact

/-!
# Operands in another order

Operands are evaluated one after another, the first number is not wrapped and every later step is,
and an operand could bind a name that the next one reads. None of this shows in the value of a sum or
a product: operands that give numbers leave the environment alone (`evalNumbers_eq_ok_iff`), so they
give the same numbers in any order, and the steps, wrapped as they are, can be exchanged:

> `Arith.Commutative.combine?_perm`: the combination of numbers does not depend on their order.
> `Expr.Permuted.eval_eq_ok`: a tree with a value keeps it, and what it binds, when operands of sums
> and products are reordered anywhere in it.

What does depend on the order is which failure a tree without a value ends in.
-/

namespace PrefixArith

/-! ## Reordered operands

The operands of a sum or a product may come in any order. `Permuted` relates trees that differ in
nothing else, at any depth.
-/

/-- The order of operands makes no difference to the operation. -/
def Arith.Commutative (op : Arith) : Prop := ∀ m n, op.exactly m n = op.exactly n m

namespace Expr

/-- The second tree is the first with the operands of sums and products reordered. -/
inductive Permuted : Expr → Expr → Prop where
  | refl (e : Expr) : Permuted e e
  | trans {e f g : Expr} (hef : Permuted e f) (hfg : Permuted f g) : Permuted e g
  /-- The operands of one list are reordered. -/
  | operands {op : Arith} (hop : op.Commutative) {es fs : List Expr} (h : es.Perm fs) :
      Permuted (.list (.arith op) es) (.list (.arith op) fs)
  /-- One operand is replaced by a reordered one. -/
  | inside {op : Operator} (front back : List Expr) {e f : Expr} (h : Permuted e f) :
      Permuted (.list op (front ++ e :: back)) (.list op (front ++ f :: back))

end Expr

theorem Arith.commutative_iff {op : Arith} : op.Commutative ↔ op = .add ∨ op = .mul := by
  cases op with
  | add => simpa [Commutative, exactly] using Int.add_comm
  | mul => simpa [Commutative, exactly] using Int.mul_comm
  | sub =>
    refine ⟨fun h => absurd (h 1 0) (by decide), fun h => ?_⟩
    rcases h with h | h <;> cases h

/-! ## Sums and products -/

namespace Arith

/-- Wrapping the first argument of a step beforehand makes no difference. -/
theorem apply_wrap_left (op : Arith) (m n : Int) : op.apply (wrap m) n = op.apply m n := by
  rw [← op.apply_wrap_wrap, wrap_wrap, op.apply_wrap_wrap]

namespace Commutative

variable {op : Arith}

theorem apply_comm (h : op.Commutative) (m n : Int) : op.apply m n = op.apply n m :=
  congrArg wrap (h m n)

theorem exactly_right_comm (h : op.Commutative) (k m n : Int) :
    op.exactly (op.exactly k m) n = op.exactly (op.exactly k n) m := by
  rcases commutative_iff.mp h with rfl | rfl
  · exact Int.add_right_comm k m n
  · exact Int.mul_right_comm k m n

/-- Two steps can be made in either order. -/
theorem apply_right_comm (h : op.Commutative) (k m n : Int) :
    op.apply (op.apply k m) n = op.apply (op.apply k n) m :=
  calc op.apply (op.apply k m) n
    _ = op.apply (op.exactly k m) n := op.apply_wrap_left _ n
    _ = op.apply (op.exactly k n) m := congrArg wrap (h.exactly_right_comm k m n)
    _ = op.apply (op.apply k n) m := (op.apply_wrap_left _ m).symm

theorem combine?_perm (h : op.Commutative) {ns ms : List Int} (hperm : ns.Perm ms) :
    op.combine? ns = op.combine? ms := by
  induction hperm with
  | nil => rfl
  | cons n hperm _ =>
    exact congrArg some (hperm.foldl_eq' (fun m _ m' _ k => h.apply_right_comm k m m') n)
  | swap m n ns =>
    show some (ns.foldl op.apply (op.apply n m)) = some (ns.foldl op.apply (op.apply m n))
    rw [h.apply_comm]
  | trans _ _ ih ih' => rw [ih, ih']

end Commutative

end Arith

namespace Expr

namespace Permuted

theorem symm {e f : Expr} (h : Permuted e f) : Permuted f e := by
  induction h with
  | refl e => exact .refl e
  | trans _ _ ih ih' => exact .trans ih' ih
  | operands hop h => exact .operands hop h.symm
  | inside front back _ ih => exact .inside front back ih

/-- All operands of a list can be replaced by reordered ones at once. -/
theorem list {op : Operator} {es fs : List Expr} (h : List.Forall₂ Permuted es fs) :
    Permuted (.list op es) (.list op fs) := by
  have hbehind : ∀ front, Permuted (.list op (front ++ es)) (.list op (front ++ fs)) := by
    induction h with
    | nil => intro front; exact .refl _
    | @cons e f es fs hef _ ih =>
      intro front
      have hrest := ih (front ++ [f])
      rw [List.append_assoc, List.append_assoc] at hrest
      exact .trans (.inside front es hef) hrest
  exact hbehind []

/-- There is nothing to reorder in an atom. -/
theorem eq_atom {e f : Expr} (h : Permuted e f) : ∀ a, e = .atom a → f = .atom a := by
  induction h with
  | refl e => intro a ha; exact ha
  | trans _ _ ih ih' => intro a ha; exact ih' a (ih a ha)
  | operands => intro a ha; cases ha
  | inside => intro a ha; cases ha

end Permuted

/-- A list has a value if its operands all give numbers in the environment it is evaluated in, and
these have a combination. -/
theorem eval_arith_eq_ok_iff {op : Arith} {es : List Expr} {env env' : Env} {v : Value} :
    (list (.arith op) es).eval env = ⟨.ok v, env'⟩ ↔
      ∃ ns n, List.Forall₂ (fun e n => e.eval env = ⟨.ok (.num n), env⟩) es ns ∧
        op.combine? ns = some n ∧ v = .num n ∧ env' = env := by
  constructor
  · intro h
    obtain ⟨ns, n, hns, hn, hv, henv⟩ := eval_arith_eq_ok h
    exact ⟨ns, n, (evalNumbers_eq_ok_iff.mp hns).2, hn, hv, henv⟩
  · rintro ⟨ns, n, hns, hn, rfl, rfl⟩
    rw [eval, evalNumbers_eq_ok_iff.mpr ⟨rfl, hns⟩, Outcome.bind_ok, Arith.result, hn]

theorem eval_eq_ok_of_perm {op : Arith} (hop : op.Commutative) {es fs : List Expr}
    (hperm : es.Perm fs) {env env' : Env} {v : Value}
    (h : (list (.arith op) es).eval env = ⟨.ok v, env'⟩) :
    (list (.arith op) fs).eval env = ⟨.ok v, env'⟩ := by
  obtain ⟨ns, n, hns, hn, hv⟩ := eval_arith_eq_ok_iff.mp h
  -- Each operand takes its number along.
  obtain ⟨ms, hms, hsame⟩ := List.perm_comp_forall₂ hperm.symm hns
  rw [← hop.combine?_perm hsame] at hn
  exact eval_arith_eq_ok_iff.mpr ⟨ms, n, hms, hn, hv⟩

theorem forall₂_replace {R : Expr → Int → Prop} {e f : Expr} (h : ∀ n, R e n → R f n)
    (front back : List Expr) :
    ∀ ns, List.Forall₂ R (front ++ e :: back) ns → List.Forall₂ R (front ++ f :: back) ns := by
  induction front with
  | nil =>
    intro ns hall
    cases hall with
    | cons hfirst hrest => exact .cons (h _ hfirst) hrest
  | cons x front ih =>
    intro ns hall
    cases hall with
    | cons hfirst hrest => exact .cons hfirst (ih _ hrest)

theorem Permuted.eval_eq_ok {e f : Expr} (h : Permuted e f) :
    ∀ (env env' : Env) (v : Value), e.eval env = ⟨.ok v, env'⟩ → f.eval env = ⟨.ok v, env'⟩ := by
  induction h with
  | refl e => intro env env' v h; exact h
  | trans _ _ ih ih' => intro env env' v h; exact ih' env env' v (ih env env' v h)
  | operands hop hperm => intro env env' v h; exact eval_eq_ok_of_perm hop hperm h
  | @inside op front back e f hef ih =>
    intro env env' v h
    cases op with
    | arith op =>
      obtain ⟨ns, n, hns, hnumber⟩ := eval_arith_eq_ok_iff.mp h
      have hfs := forall₂_replace (fun n => ih env env (.num n)) front back ns hns
      exact eval_arith_eq_ok_iff.mpr ⟨ns, n, hfs, hnumber⟩
    | define =>
      obtain ⟨name, x, w, env₁, hes, hw, rfl, rfl⟩ := eval_define_eq_ok h
      rcases front with _ | ⟨y, _ | ⟨z, front⟩⟩
      · -- The operand is the name to bind.
        cases hes
        rw [hef.eq_atom _ rfl]
        exact h
      · cases hes
        rw [List.singleton_append, eval, ih env env₁ w hw]
        rfl
      · simp at hes

/-! ## The statement as a whole -/

/-- **The order of the operands of sums and products makes no difference to a value.** If one of two
trees that differ in such orders alone has a value, so has the other, the value is the same, and so is
the environment that evaluation leaves. -/
theorem eval_permuted_iff {e f : Expr} (h : e.Permuted f) (env env' : Env) (v : Value) :
    e.eval env = ⟨.ok v, env'⟩ ↔ f.eval env = ⟨.ok v, env'⟩ := by
  constructor
  · exact h.eval_eq_ok env env' v
  · exact h.symm.eval_eq_ok env env' v

/-- The trees of `(define x (+ 5000000000 (* y 65536) (- 1 2)))` and of the same with the operands of
the sum and of the product in other orders, where `y` is bound to `2 ^ 33 + 1`. -/
theorem eval_permuted_iff_overflow :
    let big : Expr := .atom (.num 5000000000)
    let difference : Expr := .list (.arith .sub) [.atom (.num 1), .atom (.num 2)]
    let y : Expr := .atom (.ref "y")
    let m : Expr := .atom (.num 65536)
    let e : Expr := .list .define [.atom (.ref "x"),
      .list (.arith .add) [big, .list (.arith .mul) [y, m], difference]]
    let f : Expr := .list .define [.atom (.ref "x"),
      .list (.arith .add) [difference, big, .list (.arith .mul) [m, y]]]
    let env : Env := (∅ : Env).insert "y" (.num 8589934593)
    e.Permuted f ∧ e.eval env = ⟨.ok (.ref "x"), env.insert "x" (.num 705098239)⟩ ∧
      f.eval env = ⟨.ok (.ref "x"), env.insert "x" (.num 705098239)⟩ := by
  intro big difference y m e f env
  have hproduct : Permuted (.list (.arith .mul) [y, m]) (.list (.arith .mul) [m, y]) :=
    .operands (Arith.commutative_iff.mpr (.inr rfl)) (.swap m y [])
  have hinside : Permuted (.list (.arith .add) [big, .list (.arith .mul) [y, m], difference])
      (.list (.arith .add) [big, .list (.arith .mul) [m, y], difference]) :=
    .list (.cons (.refl big) (.cons hproduct (.cons (.refl difference) .nil)))
  have hperm : ([big, .list (.arith .mul) [m, y]] ++ [difference]).Perm
      ([difference] ++ [big, .list (.arith .mul) [m, y]]) := List.perm_append_comm
  have hsum : Permuted (.list (.arith .add) [big, .list (.arith .mul) [y, m], difference])
      (.list (.arith .add) [difference, big, .list (.arith .mul) [m, y]]) :=
    .trans hinside (.operands (Arith.commutative_iff.mpr (.inl rfl)) hperm)
  have h : e.Permuted f := .list (.cons (.refl _) (.cons hsum .nil))
  have heval : e.eval env = ⟨.ok (.ref "x"), env.insert "x" (.num 705098239)⟩ := rfl
  exact ⟨h, heval, (eval_permuted_iff h env _ _).mp heval⟩

end Expr

end PrefixArith
