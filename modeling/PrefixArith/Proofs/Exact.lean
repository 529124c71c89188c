import PrefixArith.Proofs.Effects

/-!
# Wrapping at every step and wrapping once

Evaluation wraps the result of every step of arithmetic, and the exact value, `Expr.exactValue?`, is
never wrapped. Both are combined from the left in the same way, and wrapping respects the operations, so
they stay congruent through any number of lists:

> `Expr.Arithmetic.exists_comesTo`: a tree of arithmetic has an exact value, and evaluation gives a
> number that wraps to the same word.

They are not simply one the wrapping of the other, as a number that nothing is combined with is left
alone, however large it is. `Expr.stripped` tells where that happens, and between numbers in range it
makes no difference.
-/

namespace PrefixArith

/-! ## Exact values

The value of arithmetic in unbounded integers, with no wrapping anywhere. Only trees of numbers,
names of numbers and operations with at least one operand have one; apart from what the names stand
for, these are the trees of `Expr.Arithmetic`.
-/

/-- Combines a row of numbers from the left, exactly. -/
def Arith.combineExactly? (op : Arith) : List Int → Option Int
  | [] => none
  | n :: ns => some (ns.foldl op.exactly n)

/-- The number that a name is bound to. -/
def Env.number? (env : Env) (name : String) : Option Int :=
  match env.get? name with
  | some (.num n) => some n
  | _ => none

namespace Expr

mutual

/-- The value of a tree of arithmetic in unbounded integers. -/
def exactValue? (env : Env) : Expr → Option Int
  | .atom (.num n) => some n
  | .atom (.ref name) => env.number? name
  | .list (.arith op) es => (exactValues? env es).bind op.combineExactly?
  | .list .define _ | .foreignAtom _ | .foreign _ => none

/-- The exact values of `es`, if they all have one. -/
def exactValues? (env : Env) : List Expr → Option (List Int)
  | [] => some []
  | e :: es =>
    match e.exactValue? env, exactValues? env es with
    | some n, some ns => some (n :: ns)
    | _, _ => none

end

/-- A tree of numbers, names and operations on at least one operand. -/
inductive Arithmetic : Expr → Prop where
  | num (n : Int) : Arithmetic (.atom (.num n))
  | ref (name : String) : Arithmetic (.atom (.ref name))
  | list (op : Arith) {es : List Expr} (hne : es ≠ []) (hes : ∀ e ∈ es, Arithmetic e) :
      Arithmetic (.list (.arith op) es)

mutual

/-- The numbers that stand in the tree. -/
def numbers : Expr → List Int
  | .atom (.num n) => [n]
  | .atom (.ref _) | .foreignAtom _ | .foreign _ => []
  | .list _ es => numbersAll es

/-- The numbers that stand in `es`. -/
def numbersAll : List Expr → List Int
  | [] => []
  | e :: es => e.numbers ++ numbersAll es

end

theorem numbersAll_eq_flatMap (es : List Expr) : numbersAll es = es.flatMap numbers := by
  induction es with
  | nil => rfl
  | cons e es ih => rw [numbersAll, ih, List.flatMap_cons]

/-- What is left of a tree without the lists of a single operand around it. -/
def stripped : Expr → Expr
  | .list _ [e] => e.stripped
  | e => e

end Expr

/-- One step of arithmetic gives the same word however its arguments were wrapped. -/
theorem Arith.apply_wrap_wrap (op : Arith) (m n : Int) :
    op.apply (wrap m) (wrap n) = op.apply m n := by
  cases op with
  | add => exact wrap_add_wrap m n
  | sub => exact wrap_sub_wrap m n
  | mul => exact wrap_mul_wrap m n

/-- Wrapping after every step leaves the exact combination modulo `2 ^ 32`. -/
theorem Arith.wrap_foldl_apply (op : Arith) (n : Int) (ns : List Int) :
    wrap (ns.foldl op.apply n) = wrap (ns.foldl op.exactly n) := by
  have agree {m m' : Int} (h : wrap m = wrap m') :
      wrap (ns.foldl op.apply m) = wrap (ns.foldl op.exactly m') := by
    induction ns generalizing m m' with
    | nil => exact h
    | cons k ns ih =>
      refine ih ?_
      show wrap (op.apply m k) = op.apply m' k
      rw [← op.apply_wrap_wrap m k, h, op.apply_wrap_wrap]
      exact wrap_wrap _
  exact agree rfl

/-! ## Rows of numbers -/

namespace Arith

/-- Steps on wrapped numbers give the exact combination, wrapped. -/
theorem foldl_apply_wrap (op : Arith) :
    ∀ (ns : List Int) (n : Int),
      (ns.map wrap).foldl op.apply (wrap n) = wrap (ns.foldl op.exactly n) := by
  intro ns
  induction ns with
  | nil => intro n; rfl
  | cons k ns ih =>
    intro n
    rw [List.map_cons, List.foldl_cons, List.foldl_cons, op.apply_wrap_wrap]
    exact ih (op.exactly n k)

theorem combine?_map_wrap (op : Arith) (ns : List Int) :
    op.combine? (ns.map wrap) = (op.combineExactly? ns).map wrap := by
  cases ns with
  | nil => rfl
  | cons n ns =>
    show some ((ns.map wrap).foldl op.apply (wrap n)) = some (wrap (ns.foldl op.exactly n))
    rw [op.foldl_apply_wrap]

/-- Rows that wrap alike have combinations that wrap alike, one step by step and the other exact. -/
theorem wrap_combine? (op : Arith) {vs xs : List Int} (h : vs.map wrap = xs.map wrap) :
    (op.combine? vs).map wrap = (op.combineExactly? xs).map wrap := by
  have hsteps : (op.combine? vs).map wrap = (op.combineExactly? vs).map wrap := by
    cases vs with
    | nil => rfl
    | cons v vs => exact congrArg some (op.wrap_foldl_apply v vs)
  rw [hsteps, ← op.combine?_map_wrap, h, op.combine?_map_wrap]

theorem inRange_foldl_apply (op : Arith) :
    ∀ (ns : List Int) (n : Int), InRange n → InRange (ns.foldl op.apply n) := by
  intro ns
  induction ns with
  | nil => intro n h; exact h
  | cons k ns ih => intro n _; exact ih (op.apply n k) (wrap_inRange _)

theorem inRange_of_combine? (op : Arith) {ns : List Int} {n : Int} (hns : ∀ k ∈ ns, InRange k)
    (h : op.combine? ns = some n) : InRange n := by
  cases ns with
  | nil => cases h
  | cons k ns =>
    cases h
    exact op.inRange_foldl_apply ns k (hns k List.mem_cons_self)

/-- Two numbers make a step, and a step wraps. -/
theorem inRange_of_combine?_cons_cons (op : Arith) {k m n : Int} {ns : List Int}
    (h : op.combine? (k :: m :: ns) = some n) : InRange n := by
  cases h
  exact op.inRange_foldl_apply ns (op.apply k m) (wrap_inRange _)

end Arith

namespace Expr

/-! ## Trees of arithmetic -/

/-- Over `env` the tree has the exact value `x` and is evaluated to `v`, which is congruent. -/
structure ComesTo (env : Env) (e : Expr) (x v : Int) : Prop where
  exact : e.exactValue? env = some x
  eval : e.eval env = ⟨.ok (.num v), env⟩
  wrap_eq : wrap v = wrap x

/-- Operands that come to numbers make rows of exact and of computed numbers that wrap alike. -/
theorem exists_rows {env : Env} {es : List Expr} (h : ∀ e ∈ es, ∃ x v, ComesTo env e x v) :
    ∃ xs vs, exactValues? env es = some xs ∧ evalNumbers es env = ⟨.ok vs, env⟩ ∧
      vs.map wrap = xs.map wrap ∧ xs.length = es.length := by
  induction es with
  | nil => exact ⟨[], [], rfl, rfl, rfl, rfl⟩
  | cons e es ih =>
    obtain ⟨hfirst, hrest⟩ := List.forall_mem_cons.mp h
    obtain ⟨x, v, hfirst⟩ := hfirst
    obtain ⟨xs, vs, hxs, hvs, hwrap, hlength⟩ := ih hrest
    refine ⟨x :: xs, v :: vs, ?_, ?_, ?_, ?_⟩
    · rw [exactValues?, hfirst.exact, hxs]
    · rw [evalNumbers_cons, evalNumber_eq_ok_iff.mpr hfirst.eval, Outcome.bind_ok, hvs,
        Outcome.bind_ok]
    · rw [List.map_cons, List.map_cons, hfirst.wrap_eq, hwrap]
    · rw [List.length_cons, List.length_cons, hlength]

theorem Arithmetic.exists_comesTo {env : Env} {e : Expr} (h : e.Arithmetic) :
    (∀ name ∈ e.reads, ∃ n, env.get? name = some (.num n)) → ∃ x v, ComesTo env e x v := by
  induction h with
  | num n => intro _; exact ⟨n, n, rfl, rfl, rfl⟩
  | ref name =>
    intro hnames
    obtain ⟨n, hn⟩ := hnames name (by simp [reads])
    refine ⟨n, n, ?_, ?_, rfl⟩
    · rw [exactValue?, Env.number?, hn]
    · rw [Expr.eval, Env.value, hn]
  | @list op es hne _ ih =>
    intro hnames
    -- An operand reads no names but those of the list.
    have hoperands : ∀ e ∈ es, ∃ x v, ComesTo env e x v := by
      intro e he
      refine ih e he fun name hname => hnames name ?_
      rw [reads, readsAll_eq_flatMap]
      · exact List.mem_flatMap.mpr ⟨e, he, hname⟩
      · rintro _ _ ⟨⟩
    obtain ⟨xs, vs, hxs, hvs, hwrap, hlength⟩ := exists_rows hoperands
    have hxsne : xs ≠ [] := by
      rintro rfl
      exact hne (List.length_eq_zero_iff.mp hlength.symm)
    obtain ⟨x, xs, rfl⟩ := List.exists_cons_of_ne_nil hxsne
    cases vs with
    | nil => cases hwrap
    | cons v vs =>
      have hcombined := op.wrap_combine? hwrap
      refine ⟨xs.foldl op.exactly x, vs.foldl op.apply v, ?_, ?_, ?_⟩
      · rw [exactValue?, hxs]
        rfl
      · rw [Expr.eval, hvs]
        rfl
      · exact Option.some.inj hcombined

/-! ## Lists of a single operand -/

/-- An operation on a single operand comes to what the operand comes to. -/
theorem ComesTo.of_single {env : Env} {op : Arith} {e : Expr} {x v : Int}
    (h : ComesTo env (.list (.arith op) [e]) x v) : ComesTo env e x v := by
  refine ⟨?_, ?_, h.wrap_eq⟩
  · have hexact := h.exact
    rw [exactValue?, exactValues?, exactValues?] at hexact
    cases hx : e.exactValue? env with
    | none => rw [hx] at hexact; cases hexact
    | some y => rw [hx] at hexact; cases hexact; rfl
  · obtain ⟨ns, n, hns, hn, hv, _⟩ := eval_arith_eq_ok h.eval
    obtain ⟨_, hall⟩ := evalNumbers_eq_ok_iff.mp hns
    cases hall with
    | cons hm hnil =>
      cases hnil
      cases hn
      cases hv
      exact hm

/-- A step wraps, so an operation on more than one operand comes to a word. -/
theorem ComesTo.eq_wrap {env : Env} {op : Arith} {e f : Expr} {es : List Expr} {x v : Int}
    (h : ComesTo env (.list (.arith op) (e :: f :: es)) x v) : v = wrap x := by
  obtain ⟨ns, n, hns, hn, hv, _⟩ := eval_arith_eq_ok h.eval
  obtain ⟨_, hall⟩ := evalNumbers_eq_ok_iff.mp hns
  cases hall with
  | cons _ htail =>
    cases htail with
    | cons _ _ =>
      cases hv
      rw [← h.wrap_eq]
      exact (wrap_eq_self_iff.mpr (op.inRange_of_combine?_cons_cons hn)).symm

/-- Below the lists of a single operand there is a list that combines, or an atom left as it is. -/
theorem Arithmetic.stripped_cases {env : Env} {e : Expr} (h : e.Arithmetic) :
    ∀ x v, ComesTo env e x v →
      (∃ op es, e.stripped = .list op es ∧ 2 ≤ es.length ∧ v = wrap x) ∨
        ∃ a, e.stripped = .atom a ∧ v = x := by
  induction h with
  | num n =>
    intro x v hcomes
    cases hcomes.exact
    cases hcomes.eval
    exact .inr ⟨.num n, rfl, rfl⟩
  | ref name =>
    intro x v hcomes
    have hexact := hcomes.exact
    have heval := hcomes.eval
    rw [exactValue?, Env.number?] at hexact
    rw [Expr.eval, Env.value] at heval
    split at hexact
    · next n hn =>
      rw [hn] at heval
      cases hexact
      cases heval
      exact .inr ⟨.ref name, rfl, rfl⟩
    · cases hexact
  | @list op es hne _ ih =>
    intro x v hcomes
    rcases es with _ | ⟨e, _ | ⟨f, es⟩⟩
    · exact absurd rfl hne
    · rw [stripped]
      exact ih e List.mem_cons_self x v hcomes.of_single
    · -- Nothing more is stripped off a list of two operands.
      refine .inl ⟨.arith op, e :: f :: es, ?_, by simp, hcomes.eq_wrap⟩
      rw [stripped]
      rintro _ _ ⟨⟩

/-! ## Numbers in range -/

/-- Evaluation that begins with numbers in range gives one. -/
theorem inRange_of_eval {env : Env} (henv : ∀ name n, env.get? name = some (.num n) → InRange n)
    (e : Expr) :
    (∀ n ∈ e.numbers, InRange n) → ∀ env' n, e.eval env = ⟨.ok (.num n), env'⟩ → InRange n := by
  induction e with
  | atom a =>
    intro hnumbers env' n h
    cases a with
    | num m =>
      cases h
      exact hnumbers n (by simp [numbers])
    | ref name =>
      rw [Expr.eval, Env.value] at h
      split at h
      · next v hv =>
        cases h
        exact henv name n hv
      · cases h
  | foreignAtom s => intro _ env' n h; cases h
  | foreign s => intro _ env' n h; cases h
  | list op es ih =>
    intro hnumbers env' n h
    cases op with
    | define =>
      obtain ⟨_, _, _, _, _, _, hv, _⟩ := eval_define_eq_ok h
      cases hv
    | arith op =>
      obtain ⟨ns, m, hns, hm, hv, _⟩ := eval_arith_eq_ok h
      cases hv
      refine op.inRange_of_combine? (fun k hk => ?_) hm
      obtain ⟨e, he, hk⟩ := exists_mem_of_evalNumbers hns k hk
      refine ih e he (fun j hj => hnumbers j ?_) env k hk
      rw [numbers, numbersAll_eq_flatMap]
      exact List.mem_flatMap.mpr ⟨e, he, hj⟩

/-! ## The statement as a whole -/

/-- **Wrapping at every step comes to wrapping once.** A tree of arithmetic over names of numbers has
an exact value, and evaluation gives a number congruent to it modulo `2 ^ 32`. If two or more
operands are combined below the lists of a single operand, that is the exact value wrapped, and
otherwise the exact value itself; between numbers in range it is always the exact value wrapped. -/
theorem eval_wraps_once {e : Expr} {env : Env} (he : e.Arithmetic)
    (hnames : ∀ name ∈ e.reads, ∃ n, env.get? name = some (.num n)) :
    ∃ x v, e.exactValue? env = some x ∧ e.eval env = ⟨.ok (.num v), env⟩ ∧
      v % wordCount = x % wordCount ∧
      ((∃ op es, e.stripped = .list op es ∧ 2 ≤ es.length ∧ v = wrap x) ∨
        ∃ a, e.stripped = .atom a ∧ v = x) ∧
      ((∀ n ∈ e.numbers, InRange n) → (∀ name n, env.get? name = some (.num n) → InRange n) →
        v = wrap x) := by
  obtain ⟨x, v, hcomes⟩ := he.exists_comesTo hnames
  refine ⟨x, v, hcomes.exact, hcomes.eval, wrap_eq_wrap_iff.mp hcomes.wrap_eq,
    he.stripped_cases x v hcomes, ?_⟩
  intro hnumbers henv
  have hrange := e.inRange_of_eval henv hnumbers env v hcomes.eval
  rw [← hcomes.wrap_eq]
  exact (wrap_eq_self_iff.mpr hrange).symm

/-- The tree of `(+ (- (* 65536 x) 1))` with `x` bound to `65536`, one less than `2 ^ 32`: the product
overflows, the outer list does nothing, and the list inside it wraps. -/
theorem eval_wraps_once_overflow :
    let product : Expr := .list (.arith .mul) [.atom (.num 65536), .atom (.ref "x")]
    let e : Expr := .list (.arith .add) [.list (.arith .sub) [product, .atom (.num 1)]]
    let env := (∅ : Env).insert "x" (.num 65536)
    e.Arithmetic ∧ (∀ name ∈ e.reads, ∃ n, env.get? name = some (.num n)) ∧
      (∀ n ∈ e.numbers, InRange n) ∧
      (∀ name n, env.get? name = some (.num n) → InRange n) ∧
      e.exactValue? env = some 4294967295 ∧ e.eval env = ⟨.ok (.num (-1)), env⟩ ∧
      (-1 : Int) % wordCount = 4294967295 % wordCount ∧ -1 = wrap 4294967295 := by
  intro product e env
  have hproduct : product.Arithmetic :=
    .list .mul (by simp) (by simpa using ⟨Arithmetic.num _, Arithmetic.ref _⟩)
  have hdifference : (Expr.list (.arith .sub) [product, .atom (.num 1)]).Arithmetic :=
    .list .sub (by simp) (by simpa using ⟨hproduct, Arithmetic.num _⟩)
  have he : e.Arithmetic := .list .add (by simp) (by simpa using hdifference)
  have hnames : ∀ name ∈ e.reads, ∃ n, env.get? name = some (.num n) := by
    intro name hname
    obtain rfl : name = "x" := by simpa [e, product, reads, readsAll] using hname
    exact ⟨65536, rfl⟩
  have hnumbers : ∀ n ∈ e.numbers, InRange n := by decide
  have henv : ∀ name n, env.get? name = some (.num n) → InRange n := by
    intro name n h
    rw [Env.get?_insert] at h
    split at h
    · cases h
      decide
    · cases h
  obtain ⟨x, v, hx, hv, hcongruent, _, hwrap⟩ := eval_wraps_once he hnames
  cases hx
  cases hv
  exact ⟨he, hnames, hnumbers, henv, rfl, rfl, hcongruent, hwrap hnumbers henv⟩

end Expr

end PrefixArith
