import PrefixArith.Proofs.Exact
import PrefixArith.Proofs.RoundTrip
import PrefixArith.Transcript

/-!
# Environments that a session can reach

A session on lines begins without bindings and evaluates nothing but what was read. Its environments
are better than environments in general, `Env.Sound`: their numbers are words of 32 bits, their names
are names, and a name that is bound to a name is bound to one that has a value. Names may well be
bound in a circle.

Evaluation is made of steps that are bound together by `Outcome.bind`, so the invariant is carried by
what holds of an outcome, `Outcome.Keeps`, and that goes through a bind (`Outcome.Keeps.bind`). A
failed outcome has an environment like any other, so nothing more is to be shown of failures.

> `Expr.WellFormed.keeps_eval`: evaluation of a tree that was read keeps the invariant.
> `Request.sound_respond`: so does every request on a line.
> `session_sound`: so does a session, however long.
-/

namespace PrefixArith

namespace Env

/-- The name has a value. -/
def Binds (env : Env) (name : String) : Prop := ∃ v, env.get? name = some v

/-- What holds of every environment that a session on lines can reach. -/
structure Sound (env : Env) : Prop where
  /-- Numbers are in range, and what names are bound to is a name or a number. -/
  values : env.WellFormed
  /-- What is bound is a name. -/
  names : ∀ name, env.Binds name → IsName name
  /-- A name that is the value of another one has a value itself. -/
  closed : ∀ name target, env.get? name = some (.ref target) → env.Binds target

end Env

/-- A number in range, or a name that has a value. -/
def Value.SoundIn (env : Env) : Value → Prop
  | .num n => InRange n
  | .ref name => env.Binds name

theorem Value.SoundIn.wellFormed {env : Env} (henv : env.Sound) {v : Value} (h : v.SoundIn env) :
    v.WellFormed := by
  cases v with
  | num n => exact h
  | ref name => exact henv.names name h

namespace Env

theorem sound_empty : (∅ : Env).Sound where
  values := by rintro name v ⟨⟩
  names := by rintro name ⟨v, ⟨⟩⟩
  closed := by rintro name target ⟨⟩

theorem binds_insert_self (env : Env) (name : String) (v : Value) :
    (env.insert name v).Binds name :=
  ⟨v, env.get?_insert_self name v⟩

/-- No binding gets lost where another one is made. -/
theorem Binds.insert {env : Env} {x : String} (h : env.Binds x) (name : String) (v : Value) :
    (env.insert name v).Binds x := by
  by_cases hx : x = name
  · subst hx
    exact env.binds_insert_self x v
  · obtain ⟨w, hw⟩ := h
    exact ⟨w, by rw [get?_insert_of_ne hx, hw]⟩

theorem Sound.insert {env : Env} (h : env.Sound) {name : String} (hname : IsName name) {v : Value}
    (hv : v.SoundIn env) : (env.insert name v).Sound where
  values := by
    intro x w hx
    rw [get?_insert] at hx
    split at hx
    · cases hx
      exact hv.wellFormed h
    · exact h.values x w hx
  names := by
    rintro x ⟨w, hx⟩
    rw [get?_insert] at hx
    split at hx
    · next heq => exact heq ▸ hname
    · exact h.names x ⟨w, hx⟩
  closed := by
    intro x target hx
    rw [get?_insert] at hx
    split at hx
    · -- The new value had a value before, which it keeps even if it is the name now bound.
      cases hx
      exact Binds.insert hv name _
    · exact (h.closed x target hx).insert name v

end Env

/-! ## Outcomes -/

/-- Beginning with `before`, the outcome is a sound environment without a name less, and `P` holds of
the result and the environment, if there is a result. -/
structure Outcome.Keeps {α : Type} (before : Env) (P : α → Env → Prop) (o : Outcome α) : Prop where
  sound : o.env.Sound
  grows : ∀ name, before.Binds name → o.env.Binds name
  post : ∀ a, o.result = .ok a → P a o.env

namespace Outcome.Keeps

variable {α β : Type} {env : Env} {P : α → Env → Prop} {Q : β → Env → Prop}

/-- A step that leaves the environment alone. -/
theorem of_result (henv : env.Sound) {r : Except Failure α} (h : ∀ a, r = .ok a → P a env) :
    Keeps env P ⟨r, env⟩ :=
  ⟨henv, fun _ h => h, h⟩

theorem of_error (henv : env.Sound) (f : Failure) : Keeps env P ⟨.error f, env⟩ :=
  of_result henv fun _ h => by cases h

theorem bind {o : Outcome α} {f : α → Env → Outcome β} (h : Keeps env P o)
    (hf : ∀ a env', env'.Sound → P a env' → Keeps env' Q (f a env')) : Keeps env Q (o.bind f) := by
  rcases o with ⟨failure | a, env'⟩
  · exact ⟨h.sound, h.grows, fun b hb => by cases hb⟩
  · have hnext := hf a env' h.sound (h.post a rfl)
    exact ⟨hnext.sound, fun name hname => hnext.grows name (h.grows name hname), hnext.post⟩

end Outcome.Keeps

/-! ## Evaluation -/

theorem Value.keeps_number {env : Env} (henv : env.Sound) {v : Value} (h : v.SoundIn env) :
    Outcome.Keeps env (fun n _ => InRange n) ⟨v.number, env⟩ := by
  refine .of_result henv ?_
  intro n hn
  cases v with
  | num m => cases hn; exact h
  | ref name => cases hn

namespace Expr

/-- Operands that keep the invariant make a row that does, with all its numbers in range. -/
theorem keeps_evalNumbers {es : List Expr}
    (hone : ∀ e ∈ es, ∀ env, env.Sound → (e.eval env).Keeps env fun v env' => v.SoundIn env') :
    ∀ env, env.Sound → (evalNumbers es env).Keeps env fun ns _ => ∀ n ∈ ns, InRange n := by
  induction es with
  | nil => intro env henv; exact .of_result henv fun ns h => by cases h; simp
  | cons e es ih =>
    intro env henv
    obtain ⟨hfirst, hrest⟩ := List.forall_mem_cons.mp hone
    -- One step for each bind: the operand, the number that it is, the other operands.
    refine (hfirst env henv).bind fun v env₁ henv₁ hv => ?_
    refine (v.keeps_number henv₁ hv).bind fun n env₂ henv₂ hn => ?_
    refine (ih hrest env₂ henv₂).bind fun ns env₃ henv₃ hns => ?_
    refine .of_result henv₃ ?_
    rintro _ ⟨⟩
    exact List.forall_mem_cons.mpr ⟨hn, hns⟩

theorem WellFormed.keeps_eval {e : Expr} (h : e.WellFormed) :
    ∀ env, env.Sound → (e.eval env).Keeps env fun v env' => v.SoundIn env' := by
  induction h with
  | @atom v hv =>
    intro env henv
    cases v with
    | num n => exact .of_result henv fun w hw => by cases hw; exact hv
    | ref name =>
      refine .of_result henv ?_
      intro w hw
      rw [Env.value] at hw
      split at hw
      · next hname =>
        cases hw
        -- This is what an environment has to be closed for.
        cases w with
        | num n => exact henv.values name (.num n) hname
        | ref target => exact henv.closed name target hname
      · cases hw
  | @list op es hne hes ih =>
    intro env henv
    cases op with
    | arith op =>
      rw [eval]
      refine (keeps_evalNumbers ih env henv).bind fun ns env₁ henv₁ hns => ?_
      refine .of_result henv₁ ?_
      intro v hv
      rw [Arith.result] at hv
      split at hv
      · next n hn =>
        cases hv
        exact op.inRange_of_combine? hns hn
      · cases hv
    | define =>
      rcases define_cases es with ⟨name, e, rfl⟩ | hfail
      · have hname : IsName name := by
          cases hes (.atom (.ref name)) List.mem_cons_self with
          | atom hv => exact hv
        rw [eval]
        refine (ih e (by simp) env henv).bind fun v env₁ henv₁ hv => ?_
        refine ⟨henv₁.insert hname hv, fun x hx => hx.insert name v, ?_⟩
        rintro _ ⟨⟩
        exact env₁.binds_insert_self name v
      · -- A `define` of anything else fails before it evaluates an operand.
        obtain ⟨f, hf, _⟩ := hfail env
        rw [hf]
        exact .of_error henv f

/-- What a tree that was read gives without bindings is a value that words stand for. -/
theorem WellFormed.wellFormed_of_eval {e : Expr} (h : e.WellFormed) {v : Value} {env : Env}
    (heval : e.eval ∅ = ⟨.ok v, env⟩) : v.WellFormed := by
  have hkeeps := h.keeps_eval ∅ Env.sound_empty
  rw [heval] at hkeeps
  exact (hkeeps.post v rfl).wellFormed hkeeps.sound

theorem WellFormed.keeps_evalNumber {e : Expr} (h : e.WellFormed) {env : Env} (henv : env.Sound) :
    (e.evalNumber env).Keeps env fun n _ => InRange n :=
  (h.keeps_eval env henv).bind fun v _ henv₁ hv => v.keeps_number henv₁ hv

end Expr

/-! ## Requests -/

/-- What is answered holds good in the environment that goes with it. -/
def Answer.SoundIn (env : Env) : Answer → Prop
  | .value v => v.SoundIn env
  | .number n => InRange n
  | .text _ | .flag _ => True

/-- Beginning with `before`, the response is a sound environment without a name less, and an answer
that holds good in it, if there is an answer. -/
structure Response.Sound (before : Env) (r : Response) : Prop where
  env_sound : r.env.Sound
  grows : ∀ name, before.Binds name → r.env.Binds name
  answer : ∀ a, r.result = .ok a → a.SoundIn r.env

theorem Outcome.Keeps.toResponse {α : Type} {env : Env} {P : α → Env → Prop} {o : Outcome α}
    (h : o.Keeps env P) {answer : α → Answer} (hanswer : ∀ a env, P a env → (answer a).SoundIn env) :
    (o.toResponse answer).Sound env := by
  rcases o with ⟨failure | a, env'⟩
  · exact ⟨h.sound, h.grows, fun b hb => by cases hb⟩
  · refine ⟨h.sound, h.grows, ?_⟩
    rintro _ ⟨⟩
    exact hanswer a env' (h.post a rfl)

theorem Query.sound_ask (q : Query) {e : Expr} (h : e.WellFormed) {env : Env} (henv : env.Sound) :
    (q.ask e env).Sound env := by
  cases q with
  | eval => exact (h.keeps_eval env henv).toResponse fun _ _ hv => hv
  | evalNumber => exact (h.keeps_evalNumber henv).toResponse fun _ _ hn => hn
  | render =>
    have hkeeps : Outcome.Keeps env (fun _ _ => True) ⟨(e.render env).mapError .fault, env⟩ :=
      .of_result henv fun _ _ => trivial
    exact hkeeps.toResponse fun _ _ _ => trivial
  | isReference => exact ⟨henv, fun _ h => h, by rintro _ ⟨⟩; trivial⟩

/-- A request on a line, which may be no expression and may fail in any way. -/
theorem Request.sound_respond (q : Query) (line : String) {env : Env} (henv : env.Sound) :
    (Request.respond ⟨q, .line line⟩ env).Sound env := by
  rw [respond, Subject.tree?]
  cases hparse : parse true line with
  | ok e => exact q.sound_ask (wellFormed_of_parse hparse).1 henv
  | error err => exact ⟨henv, fun _ h => h, fun a ha => by cases ha⟩

/-! ## Sessions -/

/-- Each of the responses is sound behind the one before it, and the first one behind `env`. -/
def SoundFrom (env : Env) : List Response → Prop
  | [] => True
  | r :: rs => r.Sound env ∧ SoundFrom r.env rs

/-- The requests of a session on lines. -/
def lineRequests (steps : List (Query × String)) : List Request :=
  steps.map fun step => ⟨step.1, .line step.2⟩

/-- **The environments of a session on lines are sound.** Beginning without bindings, or with any
sound environment, every request leaves a sound environment, in which no name is missing that was
bound before and in which its answer holds good: a value is a number in range or a name that is
bound. -/
theorem session_sound :
    (∅ : Env).Sound ∧
      ∀ (env : Env) (steps : List (Query × String)), env.Sound →
        SoundFrom env (session env (lineRequests steps)) := by
  refine ⟨Env.sound_empty, ?_⟩
  intro env steps
  induction steps generalizing env with
  | nil => intro _; trivial
  | cons step steps ih =>
    intro henv
    have hfirst := Request.sound_respond step.1 step.2 henv
    exact ⟨hfirst, ih _ hfirst.env_sound⟩

/-- A session that begins with a name bound to itself. Its second line binds `w` before it fails, as a
name is no number, and its last line is no expression. -/
theorem session_sound_circle :
    let env := (∅ : Env).insert "x" (.ref "x")
    let steps : List (Query × String) :=
      [(.eval, "(define y (define z 4294967297))"), (.evalNumber, "(+ z (define w x))"),
        (.render, "(+ w")]
    env.Sound ∧ SoundFrom env (session env (lineRequests steps)) ∧
      (envAfter env (lineRequests steps)).entries =
        [("w", .ref "x"), ("x", .ref "x"), ("y", .ref "z"), ("z", .num 1)] := by
  intro env steps
  have hx : IsName "x" := by decide
  have hone : Value.SoundIn ∅ (.num 1) := by show InRange 1; decide
  -- A name comes to be bound to itself as in `(define x (define x 1))`.
  have henv : env.Sound := by
    have hself : Value.SoundIn ((∅ : Env).insert "x" (.num 1)) (.ref "x") :=
      Env.binds_insert_self ∅ "x" (.num 1)
    have htwice := (Env.sound_empty.insert hx hone).insert hx hself
    rwa [Env.insert_insert_self] at htwice
  exact ⟨henv, session_sound.2 env steps henv, by decide +kernel⟩

end PrefixArith
