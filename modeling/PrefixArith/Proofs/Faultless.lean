import PrefixArith.Proofs.Kind
import PrefixArith.Proofs.Residue
import PrefixArith.Proofs.RoundTrip
import PrefixArith.Transcript

/-!
# Lines are free of faults

A fault ends a report, and there is nothing to say about it. It takes a malformed tree, and the trees
that lines are read as are well-formed. That is kept up by whatever is done with such a tree: its
operands are well-formed in their turn, and so is the target that `define` shows when it cannot bind
it.

> `Expr.WellFormed.eval_failure`: evaluation of a well-formed tree fails for a mistake in it.
> `runLine_cases`: a line has a result, or a mistake is reported.
> `exists_report`: a report gets to the end of its lines.
-/

namespace PrefixArith

/-! ## Trees -/

namespace Expr

/-- A well-formed tree that is no name can be shown as the target of a `define`. -/
theorem WellFormed.unboundable {target : Expr} (h : target.WellFormed) :
    target.unboundable = .error (.notName target) := by
  unfold Expr.unboundable
  rw [h.fault?_eq_none]

/-- **Evaluation of a well-formed tree fails for a mistake in it**, over every environment. If that
is a target that cannot be bound, the target is well-formed. -/
theorem WellFormed.eval_failure {e : Expr} (h : e.WellFormed) :
    ∀ env env' f, e.eval env = ⟨.error f, env'⟩ →
      ∃ err, f = .error err ∧ ∀ target, err = .notName target → target.WellFormed := by
  induction h with
  | @atom v hv =>
    intro env env' f h
    cases v with
    | num n => cases h
    | ref name =>
      rw [eval, Env.value] at h
      split at h
      · cases h
      · cases h
        exact ⟨.undefined name, rfl, by simp⟩
  | @list op es hne hes ih =>
    intro env env' f h
    cases op with
    | arith op =>
      rw [eval] at h
      rcases Outcome.bind_eq_error h with hstop | ⟨ns, env₁, hns, hresult⟩
      · obtain ⟨x, hx, hfail⟩ := evalNumbers_eq_error hstop
        rcases evalNumber_eq_error hfail with hfail | ⟨s, _, rfl⟩
        · exact ih x hx env env' f hfail
        · exact ⟨.notNumber s, rfl, by simp⟩
      · -- There is an operand, so there is a number to combine.
        obtain ⟨_, hall⟩ := evalNumbers_eq_ok_iff.mp hns
        have hnsne : ns ≠ [] := by
          intro hnil
          subst hnil
          exact hne (List.forall₂_nil_right_iff.mp hall)
        obtain ⟨n, hn⟩ := op.exists_result hnsne
        rw [hn] at hresult
        cases hresult
    | define =>
      rcases define_forms es with ⟨name, e, rfl⟩ | ⟨target, e, rfl, hfail⟩ | hfail
      · rw [eval] at h
        rcases Outcome.bind_eq_error h with hstop | ⟨w, env₁, _, hbound⟩
        · exact ih e (by simp) env env' f hstop
        · cases hbound
      · have htarget := hes target List.mem_cons_self
        rw [hfail, htarget.unboundable] at h
        cases h
        refine ⟨_, rfl, ?_⟩
        intro target' heq
        injection heq with heq
        exact heq ▸ htarget
      · rw [hfail] at h
        cases h
        exact ⟨_, rfl, by simp⟩

theorem WellFormed.exists_text {e : Expr} (h : e.WellFormed) (env : Env) :
    e.render env = .ok (e.text env) :=
  render_eq_ok_iff.mpr ⟨h.fault?_eq_none, rfl⟩

end Expr

/-! ## Lines -/

/-- A line has a result, is no expression, or is one with a mistake in it. -/
theorem runLine_cases (line : String) :
    (∃ s, runLine line = .ok s) ∨ (∃ err, runLine line = .error (.parse err)) ∨
      ∃ e err env, parse true line = .ok e ∧ e.eval ∅ = ⟨.error (.error err), env⟩ ∧
        runLine line = .error (.eval (.error err)) := by
  unfold runLine
  cases hparse : parse true line with
  | error err => exact .inr (.inl ⟨err, rfl⟩)
  | ok e =>
    obtain ⟨he, _⟩ := wellFormed_of_parse hparse
    cases heval : e.eval ∅ with
    | mk result env =>
      cases result with
      | error f =>
        obtain ⟨err, rfl, _⟩ := he.eval_failure ∅ env f heval
        exact .inr (.inr ⟨e, err, env, rfl, heval, by simp only [heval]⟩)
      | ok v => exact .inl ⟨resultText (e.text env) v, by simp only [heval, he.exists_text]⟩

/-- Every line that is not blank has an entry. -/
theorem Entry.exists_ofLine (line : String) : ∃ entry, Entry.ofLine line = .ok entry := by
  unfold Entry.ofLine
  rcases runLine_cases line with ⟨s, hs⟩ | ⟨err, herr⟩ | ⟨_, err, _, _, _, herr⟩
  · rw [hs]
    exact ⟨_, rfl⟩
  · rw [herr]
    exact ⟨_, rfl⟩
  · rw [herr]
    exact ⟨_, rfl⟩

/-! ## Reports -/

/-- There is an entry for each line that is not blank, in the order of the lines. -/
theorem exists_entriesOf (lines : List String) :
    ∃ es, entriesOf lines = .ok es ∧
      List.Forall₂ (fun line entry => Entry.ofLine line = .ok entry)
        (lines.filter fun line => !isBlankText line) es := by
  induction lines with
  | nil => exact ⟨[], rfl, .nil⟩
  | cons line lines ih =>
    obtain ⟨es, hes, hall⟩ := ih
    by_cases hblank : isBlankText line = true
    · refine ⟨es, ?_, ?_⟩
      · rw [entriesOf_cons_of_blank hblank, hes]
      · rwa [List.filter_cons_of_neg (by simp [hblank])]
    · obtain ⟨entry, hentry⟩ := Entry.exists_ofLine line
      refine ⟨entry :: es, ?_, ?_⟩
      · rw [entriesOf, if_neg hblank, hentry, hes]
        rfl
      · rw [List.filter_cons_of_pos (by simp [hblank])]
        exact .cons hentry hall

theorem exists_report (lines : List String) :
    ∃ r, Report.ofLines lines = .ok r ∧
      List.Forall₂ (fun line entry => Entry.ofLine line = .ok entry)
        (lines.filter fun line => !isBlankText line) r.entries := by
  obtain ⟨es, hes, hall⟩ := exists_entriesOf lines
  refine ⟨⟨es⟩, ?_, hall⟩
  rw [Report.ofLines, hes]
  rfl

/-! ## The statement as a whole -/

/-- **No line gives rise to a fault.** A tree that was read is not deeper than allowed; it can be shown
over every environment, and its evaluation ends in a value or in a mistake. The number of a literal is
left to a reader in texts that the reader takes. So a line has a result, or something is reported of
it, and a report gets to the end of its lines. -/
theorem lines_are_faultless :
    (∀ strict line e, parse strict line = .ok e → e.height ≤ maxDepth ∧
      ∀ env, (∃ s, e.render env = .ok s) ∧
        ∀ env' fault, e.eval env ≠ ⟨.error (.fault fault), env'⟩) ∧
    (∀ r : NatReader, r.Reads → ∀ w, r.value? w = some (Value.ofWord w)) ∧
    (∀ line, (∃ s, runLine line = .ok s) ∨ (∃ err, runLine line = .error (.parse err)) ∨
      ∃ err, runLine line = .error (.eval (.error err))) ∧
    ∀ lines, ∃ r, Report.ofLines lines = .ok r ∧
      List.Forall₂ (fun line entry => Entry.ofLine line = .ok entry)
        (lines.filter fun line => !isBlankText line) r.entries := by
  refine ⟨?_, fun r hr w => hr.value?_eq w, ?_, exists_report⟩
  · intro strict line e hparse
    obtain ⟨he, hheight⟩ := wellFormed_of_parse hparse
    refine ⟨hheight, fun env => ⟨⟨e.text env, he.exists_text env⟩, ?_⟩⟩
    intro env' fault heval
    obtain ⟨err, hfault, _⟩ := he.eval_failure env env' _ heval
    cases hfault
  · intro line
    rcases runLine_cases line with hok | hparse | ⟨_, err, _, _, _, heval⟩
    · exact .inl hok
    · exact .inr (.inl hparse)
    · exact .inr (.inr ⟨err, heval⟩)

/-- A `define` of a sum: the sum is shown in the report on the line, although `b` has no value there. -/
theorem lines_are_faultless_target :
    let sum : Expr := .list (.arith .add) [.atom (.num 1), .atom (.ref "b")]
    let e : Expr := .list .define [sum, .atom (.num (-31))]
    let env := (∅ : Env).insert "b" (.num 2)
    parse true "(define (+ 1 b) -31)" = .ok e ∧ NatReader.limited.Reads ∧
      e.height ≤ maxDepth ∧ (∃ s, e.render env = .ok s) ∧
      (∀ env' fault, e.eval env ≠ ⟨.error (.fault fault), env'⟩) ∧
      NatReader.limited.value? "-0x_1F" = some (.num (-31)) ∧
      ∃ r, Report.ofLines ["(define (+ 1 b) -31)", " ", "-0x_1F"] = .ok r ∧
        r.entries.length = 2 := by
  intro sum e env
  obtain ⟨htrees, hliterals, _, hreports⟩ := lines_are_faultless
  have hb : (Expr.atom (.ref "b")).WellFormed := .atom (by show IsName "b"; decide)
  have hnum : ∀ n, InRange n → (Expr.atom (.num n)).WellFormed := fun n hn => .atom hn
  have hsum : sum.WellFormed := .list (by simp) (by simpa using ⟨hnum 1 (by decide), hb⟩)
  have he : e.WellFormed := .list (by simp) (by simpa using ⟨hsum, hnum (-31) (by decide)⟩)
  have hparse : parse true "(define (+ 1 b) -31)" = .ok e := he.parse_text (by decide)
  obtain ⟨hheight, htree⟩ := htrees true _ e hparse
  have hvalue := hliterals NatReader.limited NatReader.reads_limited "-0x_1F"
  have hword : Value.ofWord "-0x_1F" = .num (-31) := by decide +kernel
  rw [hword] at hvalue
  obtain ⟨r, hr, hentries⟩ := hreports ["(define (+ 1 b) -31)", " ", "-0x_1F"]
  exact ⟨hparse, NatReader.reads_limited, hheight, (htree env).1, (htree env).2, hvalue, r, hr,
    hentries.length_eq.symm⟩

end PrefixArith
