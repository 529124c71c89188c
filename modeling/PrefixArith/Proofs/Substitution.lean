import PrefixArith.Proofs.Effects
import PrefixArith.Proofs.RoundTrip

/-!
# What a shown tree means

Over an environment a tree is shown with values in the place of the names that are bound, and what is
shown reads as the substituted tree, `Expr.subst`. Substitution and evaluation look names up in the
same environment, so the substituted tree means on its own what the tree means there:

> `Expr.WellFormed.subst_of_eval`: where a tree gives a number, nothing but numbers and operations is
> left of it, and over every environment these give the same number.
> `Expr.chain_subst`: a chain of `define`s keeps its names and is substituted at its end.

What a chain binds depends on its names and on the value at its end alone
(`Env.get?_insertChain_of_mem`), even if a name comes up twice or is read at the end, so the two trees
also bind alike (`render_preserves_meaning`).
-/

namespace PrefixArith

/-! ## Bindings of a chain -/

namespace Env

/-- A name of the chain is bound to the same value whatever was bound before. -/
theorem get?_insertChain_of_mem {names : List String} {x : String} (hx : x ∈ names)
    (env env' : Env) (v : Value) :
    ∃ w, (env.insertChain v names).get? x = some w ∧
      (env'.insertChain v names).get? x = some w := by
  induction names with
  | nil => cases hx
  | cons name names ih =>
    rw [insertChain_cons, insertChain_cons, get?_insert, get?_insert]
    by_cases hname : x = name
    · rw [if_pos hname, if_pos hname]
      exact ⟨_, rfl, rfl⟩
    · rw [if_neg hname, if_neg hname]
      rcases List.mem_cons.mp hx with heq | hx
      · exact absurd heq hname
      · exact ih hx

theorem get?_insertChain_of_not_mem {names : List String} {x : String} (hx : x ∉ names)
    (env : Env) (v : Value) : (env.insertChain v names).get? x = env.get? x := by
  induction names with
  | nil => rfl
  | cons name names ih =>
    rw [List.mem_cons, not_or] at hx
    rw [insertChain_cons, get?_insert_of_ne hx.1, ih hx.2]

end Env

namespace Expr

/-! ## Trees without names -/

/-- Numbers in range, and operations on them. -/
inductive Ground : Expr → Prop where
  | num {n : Int} (hn : InRange n) : Ground (.atom (.num n))
  | list (op : Arith) {es : List Expr} (hne : es ≠ []) (hes : ∀ e ∈ es, Ground e) :
      Ground (.list (.arith op) es)

namespace Ground

theorem wellFormed {e : Expr} (h : e.Ground) : e.WellFormed := by
  induction h with
  | num hn => exact .atom hn
  | list op hne _ ih => exact .list hne ih

theorem isDefine_eq_false {e : Expr} (h : e.Ground) : e.isDefine = false := by
  cases h with
  | num hn => rfl
  | list op hne hes => rfl

theorem reads_eq_nil {e : Expr} (h : e.Ground) : e.reads = [] := by
  induction h with
  | num hn => rfl
  | list op _ _ ih =>
    rw [reads, readsAll_eq_flatMap, List.flatMap_eq_nil_iff]
    · exact ih
    · intro name es' hop
      cases hop

theorem binds_eq_nil {e : Expr} (h : e.Ground) : e.binds = [] := by
  induction h with
  | num hn => rfl
  | list op _ _ ih =>
    rw [binds, bindsAll_eq_flatMap, List.flatMap_eq_nil_iff]
    · exact ih
    · intro name es' hop
      cases hop

end Ground

/-! ## Substitution of values -/

/-- Trees that give the numbers of other trees give the same row of numbers. -/
theorem evalNumbers_map {f : Expr → Expr} {env env' : Env} :
    ∀ {es : List Expr} {ns : List Int},
      (∀ e ∈ es, ∀ n, e.eval env = ⟨.ok (.num n), env⟩ → (f e).eval env' = ⟨.ok (.num n), env'⟩) →
      List.Forall₂ (fun e n => e.eval env = ⟨.ok (.num n), env⟩) es ns →
      evalNumbers (es.map f) env' = ⟨.ok ns, env'⟩ := by
  intro es ns hone h
  rw [evalNumbers_eq_ok_iff]
  refine ⟨rfl, ?_⟩
  induction h with
  | nil => exact .nil
  | @cons e n es ns hn _ ih =>
    refine .cons (hone e List.mem_cons_self n hn) (ih ?_)
    intro x hx
    exact hone x (List.mem_cons_of_mem _ hx)

/-- **A tree that gives a number is substituted into a tree without names that gives it**, wherever
that is evaluated. -/
theorem WellFormed.subst_of_eval {e : Expr} (h : e.WellFormed) {env : Env}
    (henv : ∀ name n, env.get? name = some (.num n) → InRange n) :
    ∀ n after, e.eval env = ⟨.ok (.num n), after⟩ →
      (e.subst env).Ground ∧ ∀ env', (e.subst env).eval env' = ⟨.ok (.num n), env'⟩ := by
  induction h with
  | @atom v hv =>
    intro n after heval
    have hresolve : v.resolve env = .num n ∧ InRange n := by
      cases v with
      | num m =>
        cases heval
        exact ⟨rfl, hv⟩
      | ref name =>
        rw [eval, Env.value] at heval
        split at heval
        · next w hw =>
          cases heval
          rw [Value.resolve, hw]
          exact ⟨rfl, henv name n hw⟩
        · cases heval
    rw [Expr.subst, hresolve.1]
    exact ⟨.num hresolve.2, fun env' => rfl⟩
  | @list op es hne _ ih =>
    intro n after heval
    cases op with
    | define =>
      obtain ⟨_, _, _, _, _, _, hv, _⟩ := eval_define_eq_ok heval
      cases hv
    | arith op =>
      obtain ⟨ns, m, hns, hm, hv, _⟩ := eval_arith_eq_ok heval
      cases hv
      have hsubst : (Expr.list (.arith op) es).subst env
          = .list (.arith op) (es.map (Expr.subst env)) := by
        rw [subst_list, substAll_eq_map]
        intro hdefines
        obtain ⟨_, _, hop, _⟩ := hdefines
        cases hop
      rw [hsubst]
      constructor
      · refine .list op (by simpa using hne) ?_
        intro f hf
        obtain ⟨e, he, rfl⟩ := List.mem_map.mp hf
        obtain ⟨k, hk⟩ := exists_num_of_evalNumbers hns e he
        exact (ih e he k env hk).1
      · intro env'
        obtain ⟨_, hall⟩ := evalNumbers_eq_ok_iff.mp hns
        have hnumbers := evalNumbers_map (fun e he k hk => (ih e he k env hk).2 env') hall
        rw [eval, hnumbers, Outcome.bind_ok, Arith.result, hm]

/-! ## Chains -/

/-- A chain is evaluated to its first name, if the tree at its end has a value, and binds its names. -/
theorem eval_of_chain {e : Expr} {env : Env} {w : Value}
    (h : e.chain.2.eval env = ⟨.ok w, env⟩) :
    e.eval env = ⟨.ok ((e.chain.1.head?.map Value.ref).getD w), env.insertChain w e.chain.1⟩ := by
  fun_induction chain e with
  | case1 name e ih =>
    rw [eval, ih h, Outcome.bind_ok, Env.insertChain_cons]
    rfl
  | case2 e hplain => exact h

/-- Substitution leaves alone the names that a chain binds. -/
theorem chain_subst {e : Expr} {env : Env} (h : (e.chain.2.subst env).isDefine = false) :
    (e.subst env).chain = (e.chain.1, e.chain.2.subst env) := by
  fun_induction chain e with
  | case1 name e ih =>
    rw [subst, substAll, substAll, chain, ih h]
  | case2 e hplain => exact chain_of_isDefine_eq_false h

theorem WellFormed.chain_end {e : Expr} (h : e.WellFormed) : e.chain.2.WellFormed := by
  fun_induction chain e with
  | case1 name e ih =>
    cases h with
    | list hne hes => exact ih (hes e (by simp))
  | case2 e hplain => exact h

theorem WellFormed.subst_of_chain_end {e : Expr} {env : Env} (h : e.WellFormed)
    (hend : (e.chain.2.subst env).WellFormed) : (e.subst env).WellFormed := by
  fun_induction chain e with
  | case1 name e ih =>
    cases h with
    | list hne hes =>
      have htail := ih (hes e (by simp)) hend
      rw [Expr.subst, substAll, substAll]
      refine .list (by simp) ?_
      simpa using ⟨hes (.atom (.ref name)) (by simp), htail⟩
  | case2 e hplain => exact hend

/-- What is shown reads as the substituted tree, if that is well-formed. -/
theorem WellFormed.parse_text_of_subst {e : Expr} {env : Env} (h : e.WellFormed)
    (hheight : e.height ≤ maxDepth) (hsubst : (e.subst env).WellFormed) :
    ∃ s, e.render env = .ok s ∧ parse true s = .ok (e.subst env) := by
  refine ⟨e.text env, render_eq_ok_iff.mpr ⟨h.fault?_eq_none, rfl⟩, ?_⟩
  rw [text_eq_text_subst]
  exact hsubst.parse_text (Nat.le_trans (e.height_subst_le env) hheight)

/-! ## The statement as a whole -/

/-- **What is shown means what it was shown for.** Over numbers in range, a tree that was read and has
a number for a value is shown as a tree without names that has this value over every environment. A
chain of `define`s with a number at its end is shown as one that gives the same name and, without
bindings to begin with, leaves no bindings but its own, each as the chain itself makes it. -/
theorem render_preserves_meaning {strict : Bool} {line : String} {e : Expr} {env : Env}
    (hparse : parse strict line = .ok e)
    (henv : ∀ name n, env.get? name = some (.num n) → InRange n) :
    (∀ n after, e.eval env = ⟨.ok (.num n), after⟩ →
      ∃ s e', e.render env = .ok s ∧ parse true s = .ok e' ∧ e'.reads = [] ∧ e'.binds = [] ∧
        ∀ env', e'.eval env' = ⟨.ok (.num n), env'⟩) ∧
    (∀ name names v n after, e.chain = (name :: names, v) →
      v.eval env = ⟨.ok (.num n), after⟩ →
      ∃ s e' whole own, e.render env = .ok s ∧ parse true s = .ok e' ∧
        e.eval env = ⟨.ok (.ref name), whole⟩ ∧ e'.eval ∅ = ⟨.ok (.ref name), own⟩ ∧
        (∀ x ∈ name :: names, ∃ w, own.get? x = some w ∧ whole.get? x = some w) ∧
        ∀ x, x ∉ name :: names → own.get? x = none) := by
  obtain ⟨he, hheight⟩ := wellFormed_of_parse hparse
  constructor
  · intro n after heval
    obtain ⟨hground, hvalue⟩ := he.subst_of_eval henv n after heval
    obtain ⟨s, hs, hread⟩ := he.parse_text_of_subst hheight hground.wellFormed
    exact ⟨s, e.subst env, hs, hread, hground.reads_eq_nil, hground.binds_eq_nil, hvalue⟩
  · intro name names v n after hchain heval
    -- The number at the end is there whether names are looked up before or while it is evaluated.
    obtain rfl := v.eval_num_env env after n heval
    obtain rfl : v = e.chain.2 := by rw [hchain]
    obtain ⟨hground, hvalue⟩ := he.chain_end.subst_of_eval henv n after heval
    obtain ⟨s, hs, hread⟩ :=
      he.parse_text_of_subst hheight (he.subst_of_chain_end hground.wellFormed)
    have hchain' := chain_subst hground.isDefine_eq_false
    have hown : (e.subst after).chain.2.eval ∅ = ⟨.ok (.num n), ∅⟩ := by
      rw [hchain']
      exact hvalue ∅
    have hnames : e.chain.1 = name :: names := by rw [hchain]
    have hwhole := eval_of_chain heval
    have hsubst := eval_of_chain hown
    rw [hchain'] at hsubst
    rw [hnames] at hwhole hsubst
    refine ⟨s, e.subst after, _, _, hs, hread, hwhole, hsubst, ?_, ?_⟩
    · intro x hx
      exact Env.get?_insertChain_of_mem hx ∅ after (.num n)
    · intro x hx
      exact Env.get?_insertChain_of_not_mem hx ∅ (.num n)

/-- The trees of `(* x y -5)` and of `(define x (define x (* x y -5)))`, with `x` and `y` bound to
numbers whose product overflows: the chain binds `x` twice and reads it at its end. -/
theorem render_preserves_meaning_rebound :
    let product : Expr :=
      .list (.arith .mul) [.atom (.ref "x"), .atom (.ref "y"), .atom (.num (-5))]
    let e : Expr := .list .define [.atom (.ref "x"), .list .define [.atom (.ref "x"), product]]
    let env := ((∅ : Env).insert "x" (.num 7)).insert "y" (.num 2147483647)
    parse true "(* x y -5)" = .ok product ∧
      parse true "(define x (define x (* x y -5)))" = .ok e ∧
      (∀ name n, env.get? name = some (.num n) → InRange n) ∧
      product.eval env = ⟨.ok (.num (-2147483613)), env⟩ ∧ e.chain = (["x", "x"], product) ∧
      (∃ e', parse true "(* 7 2147483647 -5)" = .ok e' ∧ e'.reads = [] ∧ e'.binds = [] ∧
        ∀ env', e'.eval env' = ⟨.ok (.num (-2147483613)), env'⟩) ∧
      ∃ e' whole own, parse true "(define x (define x (* 7 2147483647 -5)))" = .ok e' ∧
        e.eval env = ⟨.ok (.ref "x"), whole⟩ ∧ e'.eval ∅ = ⟨.ok (.ref "x"), own⟩ ∧
        (∀ x ∈ ["x", "x"], ∃ w, own.get? x = some w ∧ whole.get? x = some w) ∧
        ∀ x, x ∉ ["x", "x"] → own.get? x = none := by
  intro product e env
  have hx : (Expr.atom (.ref "x")).WellFormed := .atom (by show IsName "x"; decide)
  have hy : (Expr.atom (.ref "y")).WellFormed := .atom (by show IsName "y"; decide)
  have hfive : (Expr.atom (.num (-5))).WellFormed := .atom (by show InRange (-5); decide)
  have hproduct : product.WellFormed := .list (by simp) (by simpa using ⟨hx, hy, hfive⟩)
  have hinner : (Expr.list .define [.atom (.ref "x"), product]).WellFormed :=
    .list (by simp) (by simpa using ⟨hx, hproduct⟩)
  have he : e.WellFormed := .list (by simp) (by simpa using ⟨hx, hinner⟩)
  have hparse : parse true "(* x y -5)" = .ok product := hproduct.parse_text (by decide)
  have hparse' : parse true "(define x (define x (* x y -5)))" = .ok e := he.parse_text (by decide)
  have henv : ∀ name n, env.get? name = some (.num n) → InRange n := by
    intro name n h
    rw [Env.get?_insert, Env.get?_insert] at h
    split at h
    · cases h
      decide
    · split at h
      · cases h
        decide
      · cases h
  have heval : product.eval env = ⟨.ok (.num (-2147483613)), env⟩ := rfl
  have hchain : e.chain = (["x", "x"], product) := rfl
  obtain ⟨s, e', hs, hread, hrest⟩ :=
    (render_preserves_meaning hparse henv).1 (-2147483613) env heval
  obtain ⟨t, f', whole, own, ht, hread', hrest'⟩ :=
    (render_preserves_meaning hparse' henv).2 "x" ["x"] product (-2147483613) env hchain heval
  cases hs
  cases ht
  exact ⟨hparse, hparse', henv, heval, hchain, ⟨e', hread, hrest⟩, f', whole, own, hread', hrest'⟩

end Expr

end PrefixArith
