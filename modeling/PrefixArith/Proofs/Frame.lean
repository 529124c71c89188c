import PrefixArith.Proofs.Effects

/-!
# What evaluation depends on and what it touches

A tree is tied to its environment by names: what it reads decides how its evaluation goes, and what
it binds is all that can have changed afterwards, however far the evaluation got. Both are said of
two runs at once. Runs are alike if they have the same result and make the same assignments, in the
same order.

> `Expr.alike_eval`: over environments that agree on the names a tree reads its runs are alike, and
> every assignment is to a name that the tree binds.
> `Expr.eval_render_congr`: such environments cannot be told apart by evaluating or showing the tree.
> `Expr.eval_commute`: trees that do not touch what the other one reads or binds can be evaluated in
> either order.
-/

namespace PrefixArith

/-! ## Rows of assignments -/

namespace Env

variable {env env' : Env}

/-- Each of `names` is bound to the same value in both environments, or in neither. -/
def AgreeOn (names : List String) (env env' : Env) : Prop :=
  ∀ name ∈ names, env.get? name = env'.get? name

theorem AgreeOn.insertAll {names : List String} (h : AgreeOn names env env')
    (bs : List (String × Value)) : AgreeOn names (env.insertAll bs) (env'.insertAll bs) := by
  induction bs generalizing env env' with
  | nil => exact h
  | cons b bs ih =>
    refine ih ?_
    intro name hname
    rw [get?_insert, get?_insert, h name hname]

theorem insertAll_append (env : Env) (bs cs : List (String × Value)) :
    env.insertAll (bs ++ cs) = (env.insertAll bs).insertAll cs :=
  List.foldl_append ..

theorem get?_insertAll_of_ne {name : String} {bs : List (String × Value)}
    (h : ∀ b ∈ bs, b.1 ≠ name) (env : Env) : (env.insertAll bs).get? name = env.get? name := by
  induction bs generalizing env with
  | nil => rfl
  | cons b bs ih =>
    obtain ⟨hb, hbs⟩ := List.forall_mem_cons.mp h
    show ((env.insert b.1 b.2).insertAll bs).get? name = env.get? name
    rw [ih hbs, get?_insert_of_ne hb.symm]

/-- An assignment can be made before or after a row of assignments to other names. -/
theorem insertAll_insert {name : String} {bs : List (String × Value)} (h : ∀ b ∈ bs, b.1 ≠ name)
    (env : Env) (v : Value) : (env.insert name v).insertAll bs = (env.insertAll bs).insert name v := by
  induction bs generalizing env with
  | nil => rfl
  | cons b bs ih =>
    obtain ⟨hb, hbs⟩ := List.forall_mem_cons.mp h
    show ((env.insert name v).insert b.1 b.2).insertAll bs
      = ((env.insert b.1 b.2).insertAll bs).insert name v
    rw [insert_comm hb.symm, ih hbs]

theorem insertAll_comm {bs cs : List (String × Value)} (h : ∀ b ∈ bs, ∀ c ∈ cs, c.1 ≠ b.1)
    (env : Env) : (env.insertAll bs).insertAll cs = (env.insertAll cs).insertAll bs := by
  induction bs generalizing env with
  | nil => rfl
  | cons b bs ih =>
    obtain ⟨hb, hbs⟩ := List.forall_mem_cons.mp h
    show ((env.insert b.1 b.2).insertAll bs).insertAll cs
      = ((env.insertAll cs).insert b.1 b.2).insertAll bs
    rw [ih hbs, insertAll_insert hb]

end Env

/-! ## Runs side by side -/

/-- The run `o` from `env` and the run `o'` from `env'` have the same result and make the same
assignments, all of them to some of `names`. -/
structure Outcome.Alike {α : Type} (names : List String) (env env' : Env) (o o' : Outcome α) :
    Prop where
  result_eq : o.result = o'.result
  assigned : ∃ bs, (∀ b ∈ bs, b.1 ∈ names) ∧ o.env = env.insertAll bs ∧ o'.env = env'.insertAll bs

namespace Outcome.Alike

variable {α β : Type} {names : List String} {env env' : Env} {o o' : Outcome α}

/-- A run that assigns nothing. -/
theorem of_result (r : Except Failure α) : Alike names env env' ⟨r, env⟩ ⟨r, env'⟩ :=
  ⟨rfl, [], by simp, rfl, rfl⟩

theorem mono {names' : List String} (h : Alike names env env' o o') (hsub : names ⊆ names') :
    Alike names' env env' o o' := by
  obtain ⟨hresult, bs, hbs, henv, henv'⟩ := h
  exact ⟨hresult, bs, fun b hb => hsub (hbs b hb), henv, henv'⟩

/-- What the environments agreed on before they agree on afterwards. -/
theorem agreeOn {reads : List String} (h : Alike names env env' o o')
    (hagree : env.AgreeOn reads env') : o.env.AgreeOn reads o'.env := by
  obtain ⟨_, bs, _, henv, henv'⟩ := h
  rw [henv, henv']
  exact hagree.insertAll bs

/-- Alike runs that go on alike are alike as a whole. -/
theorem bind (h : Alike names env env' o o') {f : α → Env → Outcome β}
    (hf : ∀ a, Alike names o.env o'.env (f a o.env) (f a o'.env)) :
    Alike names env env' (o.bind f) (o'.bind f) := by
  obtain ⟨hresult, bs, hbs, henv, henv'⟩ := h
  obtain ⟨result, final⟩ := o
  obtain ⟨result', final'⟩ := o'
  dsimp only at hresult henv henv' hf
  subst hresult
  cases result with
  | error failure => exact ⟨rfl, bs, hbs, henv, henv'⟩
  | ok a =>
    obtain ⟨hnext, cs, hcs, hcenv, hcenv'⟩ := hf a
    refine ⟨hnext, bs ++ cs, ?_, ?_, ?_⟩
    · intro b hb
      rcases List.mem_append.mp hb with hb | hb
      · exact hbs b hb
      · exact hcs b hb
    · rw [Env.insertAll_append, ← henv]
      exact hcenv
    · rw [Env.insertAll_append, ← henv']
      exact hcenv'

end Outcome.Alike

namespace Expr

/-- Rows of operands that are each evaluated alike are evaluated alike. -/
theorem alike_evalNumbers {es : List Expr}
    (hone : ∀ e ∈ es, ∀ env env' : Env, env.AgreeOn e.reads env' →
      Outcome.Alike e.binds env env' (e.eval env) (e.eval env')) :
    ∀ env env' : Env, env.AgreeOn (readsAll es) env' →
      Outcome.Alike (bindsAll es) env env' (evalNumbers es env) (evalNumbers es env') := by
  induction es with
  | nil =>
    intro env env' _
    exact .of_result _
  | cons e es ih =>
    intro env env' hagree
    obtain ⟨hfirst, hrest⟩ := List.forall_mem_cons.mp hone
    obtain ⟨hreads, hreadsAll⟩ := List.forall_mem_append.mp hagree
    have he := (hfirst env env' hreads).mono (List.subset_append_left e.binds (bindsAll es))
    rw [evalNumbers, evalNumbers, bindsAll]
    refine he.bind fun v => ?_
    refine Outcome.Alike.bind (.of_result v.number) fun n => ?_
    -- The row goes on in environments that still agree on what it reads.
    have hes := (ih hrest _ _ (he.agreeOn hreadsAll)).mono
      (List.subset_append_right e.binds (bindsAll es))
    exact hes.bind fun ns => .of_result _

/-- **A run depends on the names that the tree reads**, and what it changes are names that the tree
binds. This holds of runs that fail as well: they fail alike, and alike far. -/
theorem alike_eval (e : Expr) :
    ∀ env env' : Env, env.AgreeOn e.reads env' →
      Outcome.Alike e.binds env env' (e.eval env) (e.eval env') := by
  induction e with
  | atom v =>
    intro env env' hagree
    cases v with
    | num n => exact .of_result _
    | ref name =>
      rw [eval, eval, Env.value, Env.value, hagree name (by simp [reads])]
      exact .of_result _
  | foreignAtom s =>
    intro env env' _
    exact .of_result _
  | foreign s =>
    intro env env' _
    exact .of_result _
  | list op es ih =>
    intro env env' hagree
    cases op with
    | arith op =>
      have hreads : (list (.arith op) es).reads = readsAll es := by simp [reads]
      have hbinds : (list (.arith op) es).binds = bindsAll es := by simp [binds]
      rw [hreads] at hagree
      rw [hbinds, eval, eval]
      exact (alike_evalNumbers ih env env' hagree).bind fun ns => .of_result _
    | define =>
      rcases define_forms es with ⟨name, e, rfl⟩ | ⟨target, e, rfl, hfail⟩ | hfail
      · have he := ih e (by simp) env env' (by simpa [reads, readsAll] using hagree)
        rw [eval, eval]
        refine (he.mono (by simp [binds, bindsAll])).bind fun v => ?_
        exact ⟨rfl, [(name, v)], by simp [binds], rfl, rfl⟩
      · rw [hfail, hfail]
        exact .of_result _
      · rw [hfail, hfail]
        exact .of_result _

/-! ## Showing a tree -/

theorem texts_congr {env env' : Env} {es : List Expr}
    (hone : ∀ e ∈ es, env.AgreeOn e.reads env' → e.text env = e.text env')
    (hagree : env.AgreeOn (readsAll es) env') : texts env es = texts env' es := by
  rw [texts_eq_map, texts_eq_map]
  refine List.map_congr_left fun e he => hone e he fun name hname => hagree name ?_
  rw [readsAll_eq_flatMap]
  exact List.mem_flatMap.mpr ⟨e, he, hname⟩

/-- The names that a tree shows by their values are those that it reads. -/
theorem text_congr {env env' : Env} (e : Expr) (hagree : env.AgreeOn e.reads env') :
    e.text env = e.text env' := by
  induction e using defineInduction with
  | atom v =>
    cases v with
    | num n => rfl
    | ref name =>
      have hname := hagree name (by simp [reads])
      rw [text, text, Value.resolve, Value.resolve, hname]
  | foreignAtom s => rfl
  | foreign s => rfl
  | define name es ih =>
    rw [reads] at hagree
    rw [text, text, texts_congr ih hagree]
  | list op es h ih =>
    rw [reads_list h] at hagree
    rw [text_list h, text_list h, texts_congr ih hagree]

/-- **Evaluating and showing a tree depend on the names it reads, and on nothing else.** Environments
that agree on these names show it by the same text, or have the same fault stop it; evaluation comes to
the same value or the same failure in both, and makes the same assignments in the same order, all of
them to names that the tree binds. -/
theorem eval_render_congr {e : Expr} {env env' : Env} (hagree : env.AgreeOn e.reads env') :
    e.render env = e.render env' ∧ (e.eval env).result = (e.eval env').result ∧
      ∃ bs, (∀ b ∈ bs, b.1 ∈ e.binds) ∧
        (e.eval env).env = env.insertAll bs ∧ (e.eval env').env = env'.insertAll bs := by
  obtain ⟨hresult, hassigned⟩ := e.alike_eval env env' hagree
  refine ⟨?_, hresult, hassigned⟩
  rw [render, render, e.text_congr hagree]

/-- A `define` of `y` whose value fails after it has bound `x` to the value of `a`. The tree reads `a`
alone, so it is shown and fails the same way where `x` and `y` are bound beforehand. -/
theorem eval_render_congr_failure :
    let e : Expr := .list .define
      [.atom (.ref "y"), .list (.arith .add)
        [.list .define [.atom (.ref "x"), .atom (.ref "a")], .atom (.num 1)]]
    let env : Env := (∅ : Env).insert "a" (.num 7)
    let env' : Env := (env.insert "x" (.num 3)).insert "y" (.ref "z")
    env.AgreeOn e.reads env' ∧ e.render env = .ok "(define y (+ (define x 7) 1))" ∧
      e.render env = e.render env' ∧
      (e.eval env').result = .error (.error (.notNumber "x")) ∧
      (e.eval env).result = (e.eval env').result ∧
      ∃ bs, (∀ b ∈ bs, b.1 ∈ e.binds) ∧
        (e.eval env).env = env.insertAll bs ∧ (e.eval env').env = env'.insertAll bs := by
  intro e env env'
  have hagree : env.AgreeOn e.reads env' := by
    intro name hname
    obtain rfl : name = "a" := by simpa [e, reads, readsAll] using hname
    rfl
  obtain ⟨hrender, hresult, hassigned⟩ := eval_render_congr hagree
  exact ⟨hagree, rfl, hrender, rfl, hresult, hassigned⟩

/-! ## Runs one after the other -/

/-- Neither tree binds a name that the other one reads or binds. -/
structure Independent (e f : Expr) : Prop where
  left_reads : ∀ name ∈ f.binds, name ∉ e.reads
  right_reads : ∀ name ∈ e.binds, name ∉ f.reads
  binds : ∀ name ∈ e.binds, name ∉ f.binds

theorem Independent.symm {e f : Expr} (h : Independent e f) : Independent f e :=
  ⟨h.right_reads, h.left_reads, fun name hf he => h.binds name he hf⟩

/-- What one tree leaves behind makes no difference to a tree that does not read it. -/
theorem Independent.alike_eval {e f : Expr} (h : Independent e f) (env : Env) :
    Outcome.Alike f.binds env (e.eval env).env (f.eval env) (f.eval (e.eval env).env) := by
  refine f.alike_eval _ _ ?_
  obtain ⟨_, bs, hbs, henv, _⟩ := e.alike_eval env env fun _ _ => rfl
  intro name hname
  rw [henv, Env.get?_insertAll_of_ne]
  rintro b hb rfl
  exact h.right_reads _ (hbs b hb) hname

/-- **Independent evaluations commute**, whether or not they fail. Each tree comes to the same result
first or second, and the environment afterwards is the same. -/
theorem eval_commute {e f : Expr} (h : Independent e f) (env : Env) :
    (f.eval (e.eval env).env).result = (f.eval env).result ∧
      (e.eval (f.eval env).env).result = (e.eval env).result ∧
      (f.eval (e.eval env).env).env = (e.eval (f.eval env).env).env := by
  have hf := h.alike_eval env
  have he := h.symm.alike_eval env
  refine ⟨hf.result_eq.symm, he.result_eq.symm, ?_⟩
  obtain ⟨_, bs, hbs, hsecond, hafter⟩ := hf
  obtain ⟨_, cs, hcs, hfirst, hbefore⟩ := he
  rw [hafter, hbefore, hfirst, hsecond]
  refine Env.insertAll_comm ?_ env
  intro c hc b hb heq
  exact h.binds _ (hcs c hc) (heq ▸ hbs b hb)

/-- A sum that finds a name where it needs a number, after it has bound `x`, and a `define` that takes
its value from `a`: what is left of the sum and the value of `y` do not get in each other's way. -/
theorem eval_commute_failure :
    let e : Expr := .list (.arith .add)
      [.atom (.num 1), .list .define [.atom (.ref "x"), .atom (.ref "a")]]
    let f : Expr := .list .define
      [.atom (.ref "y"), .list (.arith .mul) [.atom (.ref "a"), .atom (.num 2)]]
    let env : Env := (∅ : Env).insert "a" (.num 7)
    Independent e f ∧
      (f.eval (e.eval env).env).result = .ok (.ref "y") ∧
      (e.eval (f.eval env).env).result = .error (.error (.notNumber "x")) ∧
      (e.eval (f.eval env).env).env = ((env.insert "x" (.num 7)).insert "y" (.num 14)) := by
  intro e f env
  have hind : Independent e f := ⟨by decide, by decide, by decide⟩
  obtain ⟨hf, he, henv⟩ := eval_commute hind env
  exact ⟨hind, hf, he, henv.symm⟩

end Expr

end PrefixArith
