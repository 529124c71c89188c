import Mathlib.Data.List.TakeWhile
import PrefixArith.Proofs.Framing
import PrefixArith.Proofs.Position
import PrefixArith.Proofs.Quoted

/-!
# What a message tells

The parts of a message are put one behind the other with no thought of taking them apart again, and
tokens and names hold almost any character. So it has to be shown that none of them can be taken for
another part of the message, nor the message for that of another failure. Up to its first colon a
message is the kind of the failure, whatever is behind it. A token or a name without a value is quoted,
so it can be read. Not so a name that is no number and a tree that cannot be bound, but these are all
the rest of their messages; and the tree is part of one that was read, so it is read from its text.

> `headed_inj`: kind and detail can be told from each other.
> `Expr.height_target_le`: a tree that cannot be bound is not higher than the one it is a part of.
> `LineFailure.legible_of_runLine`: what a line fails for can be read from how it is shown.
> `message_identifies`: a failed line has a message, and the message determines the failure.
-/

namespace PrefixArith

/-! ## Kind and detail -/

/-- A kind, and behind a colon the detail, if there is one. -/
def headed (kind : String) : (detail? : Option String) → String
  | none => kind
  | some detail => kind ++ ": " ++ detail

/-- The kind ends at the first colon. -/
theorem takeWhile_headed {kind : String} (h : ':' ∉ kind.toList) (detail? : Option String) :
    (headed kind detail?).toList.takeWhile (· ≠ ':') = kind.toList := by
  have hkind : ∀ c ∈ kind.toList, decide (c ≠ ':') = true := by
    intro c hc
    rw [decide_eq_true_iff]
    rintro rfl
    exact h hc
  cases detail? with
  | none => exact List.takeWhile_eq_self_iff.mpr hkind
  | some detail =>
    rw [headed, String.append_assoc, String.toList_append, List.takeWhile_append_of_pos hkind,
      String.toList_append]
    exact List.append_nil _

theorem headed_some_ne (kind detail : String) : headed kind (some detail) ≠ kind := by
  rw [headed, String.append_assoc, Ne, String.append_eq_left_iff, String.append_eq_empty_iff]
  simp

theorem headed_inj {k l : String} (hk : ':' ∉ k.toList) (hl : ':' ∉ l.toList)
    {d e : Option String} (h : headed k d = headed l e) : k = l ∧ d = e := by
  have hkind : k.toList = l.toList := by
    rw [← takeWhile_headed hk d, h, takeWhile_headed hl e]
  obtain rfl := String.toList_injective hkind
  refine ⟨rfl, ?_⟩
  cases d with
  | none =>
    cases e with
    | none => rfl
    | some e => exact absurd h.symm (headed_some_ne k e)
  | some d =>
    cases e with
    | none => exact absurd h (headed_some_ne k d)
    | some e => rw [(String.append_right_inj _).mp h]

/-! ## Errors in reading -/

namespace ParseError

theorem message_eq_headed (err : ParseError) :
    err.message = headed err.kind (err.token?.map fun t => quote t.text) := by
  unfold message
  cases err.token? with
  | none => rfl
  | some t => rfl

theorem colon_notMem_kind (err : ParseError) : ':' ∉ err.kind.toList := by
  cases err with
  | unexpectedEnd | unexpectedParen | unknownOperator | emptyList | tooDeep | trailingTokens =>
    rw [kind]
    decide

/-- An error is known by its kind and its token. -/
theorem eq_of_kind_eq {err err' : ParseError} (hkind : err.kind = err'.kind)
    (htoken : err.token? = err'.token?) : err = err' := by
  cases err <;> cases err' <;> simp_all [kind, token?]

/-- The token at which a reading fails is one that it took, or the next one. -/
theorem StopsAt.mem_append {levels : Int} {err : ParseError} {taken rest : List Token}
    (h : err.StopsAt levels taken rest) {t : Token} (ht : err.token? = some t) :
    t ∈ taken ++ rest := by
  rw [List.mem_append]
  cases err with
  | unexpectedEnd => cases ht
  | unexpectedParen =>
    cases ht
    exact .inl (h ▸ List.mem_cons_self)
  | unknownOperator head =>
    cases ht
    exact .inr (List.mem_of_head? h.2)
  | emptyList head =>
    cases ht
    exact .inl (h.subset List.mem_cons_self)
  | tooDeep => cases ht
  | trailingTokens first => exact h.elim

end ParseError

/-- The token that an error shows is a token of the line. -/
theorem mem_tokenize_of_parse_eq_error {strict : Bool} {line : String} {err : ParseError}
    (h : parse strict line = .error err) {t : Token} (ht : err.token? = some t) :
    t ∈ tokenize line := by
  rw [parse, parseTokens] at h
  split at h
  · next err' rest hread =>
    cases h
    obtain ⟨taken, hts, hstops⟩ := exists_stopsAt (by decide) hread
    rw [hts]
    exact hstops.mem_append ht
  · cases h
  · next e first rest hread =>
    cases strict with
    | false => cases h
    | true =>
      cases h
      cases ht
      have hsuffix := rest_suffix_readExpr (room 0) (tokenize line)
      rw [← readExprAt, hread] at hsuffix
      exact hsuffix.subset List.mem_cons_self

namespace ParseError

/-- The token that the error shows is read from its text. -/
def Legible (err : ParseError) : Prop := ∀ t, err.token? = some t → Token.ofText t.text = t

theorem legible_of_parse {strict : Bool} {line : String} {err : ParseError}
    (h : parse strict line = .error err) : err.Legible :=
  fun _ ht => ofText_text_of_mem (mem_tokenize_of_parse_eq_error h ht)

theorem Legible.eq_of_message_eq {err err' : ParseError} (h : err.Legible) (h' : err'.Legible)
    (hmessage : err.message = err'.message) : err = err' := by
  rw [message_eq_headed, message_eq_headed] at hmessage
  obtain ⟨hkind, hshown⟩ := headed_inj err.colon_notMem_kind err'.colon_notMem_kind hmessage
  refine eq_of_kind_eq hkind ?_
  cases ht : err.token? with
  | none =>
    rw [ht, Option.map_none, eq_comm, Option.map_eq_none_iff] at hshown
    exact hshown.symm
  | some t =>
    rw [ht, Option.map_some, eq_comm, Option.map_eq_some_iff] at hshown
    obtain ⟨t', ht', hquoted⟩ := hshown
    rw [ht', ← h t ht, ← h' t' ht', quote_inj.mp hquoted]

end ParseError

/-! ## Errors in evaluation -/

/-- A tree that cannot be bound is not higher than the tree whose evaluation it stops. -/
theorem Expr.height_target_le {e target : Expr} {env env' : Env}
    (h : e.eval env = ⟨.error (.error (.notName target)), env'⟩) : target.height ≤ e.height := by
  induction e generalizing env env' with
  | atom v =>
    cases v with
    | num n => cases h
    | ref name =>
      rw [eval, Env.value] at h
      split at h
      · cases h
      · cases h
  | foreignAtom s => cases h
  | foreign s => cases h
  | list op es ih =>
    -- A target is an operand of this list or comes of one.
    have hoperand : ∀ x ∈ es, target.height ≤ x.height → target.height ≤ (list op es).height := by
      intro x hx hle
      rw [height]
      exact Nat.le_succ_of_le (Nat.le_trans hle (height_le_heights hx))
    cases op with
    | arith op =>
      rw [eval] at h
      rcases Outcome.bind_eq_error h with hstop | ⟨ns, env₁, hns, hresult⟩
      · obtain ⟨x, hx, hfail⟩ := evalNumbers_eq_error hstop
        rcases evalNumber_eq_error hfail with hfail | ⟨s, _, hname⟩
        · exact hoperand x hx (ih x hx hfail)
        · cases hname
      · unfold Arith.result at hresult
        split at hresult
        · cases hresult
        · cases hresult
    | define =>
      rcases define_forms es with ⟨name, e, rfl⟩ | ⟨target', e, rfl, hfail⟩ | hfail
      · rw [eval] at h
        rcases Outcome.bind_eq_error h with hstop | ⟨w, env₁, _, hbound⟩
        · exact hoperand e (by simp) (ih e (by simp) hstop)
        · cases hbound
      · rw [hfail, unboundable] at h
        split at h
        · cases h
        · cases h
          exact hoperand target List.mem_cons_self (Nat.le_refl _)
      · rw [hfail] at h
        cases h

theorem decimalDigits_inj {m n : Nat} (h : decimalDigits m = decimalDigits n) : m = n := by
  rw [← ofDigitChars_decimalDigits m, h, ofDigitChars_decimalDigits]

namespace EvalError

theorem message_eq_headed (err : EvalError) : err.message = headed err.kind (some err.detail) := rfl

theorem colon_notMem_kind (err : EvalError) : ':' ∉ err.kind.toList := by
  cases err with
  | undefined | notNumber | notName | arity =>
    rw [kind]
    decide

/-- A tree that cannot be bound is read from its text. -/
def Legible : EvalError → Prop
  | .undefined _ | .notNumber _ | .arity _ => True
  | .notName target => parse true (target.text ∅) = .ok target

theorem legible_of_eval {e : Expr} (he : e.WellFormed) (hheight : e.height ≤ maxDepth)
    {err : EvalError} {env : Env} (h : e.eval ∅ = ⟨.error (.error err), env⟩) : err.Legible := by
  cases err with
  | undefined name => trivial
  | notNumber name => trivial
  | arity count => trivial
  | notName target =>
    have htarget : target.WellFormed := he.wellFormed_of_eval_error h
    exact htarget.parse_text (Nat.le_trans (Expr.height_target_le h) hheight)

theorem detail_notNumber_ne (name : String) (target : Expr) :
    (notNumber name).detail ≠ (notName target).detail := by
  show "Expected a number, got " ++ name ≠ "define needs a name, got " ++ target.text ∅
  intro h
  have hhead := congrArg (fun s => s.toList.head?) h
  simp at hhead

theorem Legible.eq_of_message_eq {err err' : EvalError} (h : err.Legible) (h' : err'.Legible)
    (hmessage : err.message = err'.message) : err = err' := by
  rw [message_eq_headed, message_eq_headed] at hmessage
  obtain ⟨hkind, hdetail⟩ := headed_inj err.colon_notMem_kind err'.colon_notMem_kind hmessage
  injection hdetail with hdetail
  cases err with
  | undefined name =>
    cases err' with
    | undefined name' => rw [quote_inj.mp hdetail]
    | notNumber | notName | arity => simp [kind] at hkind
  | notNumber name =>
    cases err' with
    | notNumber name' => rw [(String.append_right_inj _).mp hdetail]
    | notName target' => exact absurd hdetail (detail_notNumber_ne name target')
    | undefined | arity => simp [kind] at hkind
  | notName target =>
    cases err' with
    | notName target' =>
      -- Both trees are read from the one text.
      have htext : target.text ∅ = target'.text ∅ := (String.append_right_inj _).mp hdetail
      have hread : parse true (target.text ∅) = .ok target := h
      have hread' : parse true (target'.text ∅) = .ok target' := h'
      rw [htext, hread'] at hread
      injection hread with htarget
      rw [htarget]
    | notNumber name' => exact absurd hdetail.symm (detail_notNumber_ne name' target)
    | undefined | arity => simp [kind] at hkind
  | arity count =>
    cases err' with
    | arity count' =>
      have hdigits := String.ofList_injective ((String.append_right_inj _).mp hdetail)
      rw [decimalDigits_inj hdigits]
    | undefined | notNumber | notName => simp [kind] at hkind

end EvalError

/-! ## Failures of lines -/

/-- The kinds of errors in reading are not those of errors in evaluation. -/
theorem ParseError.kind_ne_kind (err : ParseError) (err' : EvalError) : err.kind ≠ err'.kind := by
  cases err <;> cases err' <;> simp [ParseError.kind, EvalError.kind]

theorem ParseError.message_ne_message (err : ParseError) (err' : EvalError) :
    err.message ≠ err'.message := by
  rw [message_eq_headed, EvalError.message_eq_headed]
  intro h
  exact err.kind_ne_kind err' (headed_inj err.colon_notMem_kind err'.colon_notMem_kind h).1

namespace LineFailure

/-- The failure has a message, and what it is about can be read from how the message shows it. -/
def Legible : LineFailure → Prop
  | .parse err => err.Legible
  | .eval (.error err) => err.Legible
  | .eval (.fault _) => False

theorem legible_of_runLine {line : String} {f : LineFailure} (h : runLine line = .error f) :
    f.Legible := by
  unfold runLine at h
  split at h
  · next err hparse =>
    cases h
    exact ParseError.legible_of_parse hparse
  · next e hparse =>
    obtain ⟨he, hheight⟩ := wellFormed_of_parse hparse
    split at h
    · next failure env heval =>
      cases h
      obtain ⟨err, rfl, -⟩ := he.eval_failure ∅ env failure heval
      exact EvalError.legible_of_eval he hheight heval
    · next v env heval =>
      rw [he.exists_text] at h
      cases h

theorem Legible.exists_message {f : LineFailure} (h : f.Legible) : ∃ m, f.message = .ok m :=
  match f, h with
  | .parse err, _ => ⟨err.message, rfl⟩
  | .eval (.error err), _ => ⟨err.message, rfl⟩

theorem Legible.eq_of_message_eq {f g : LineFailure} (hf : f.Legible) (hg : g.Legible)
    (h : f.message = g.message) : f = g := by
  match f, g, hf, hg with
  | .parse err, .parse err', hf, hg =>
    injection h with h
    rw [ParseError.Legible.eq_of_message_eq hf hg h]
  | .parse err, .eval (.error err'), _, _ =>
    injection h with h
    exact absurd h (err.message_ne_message err')
  | .eval (.error err), .parse err', _, _ =>
    injection h with h
    exact absurd h.symm (err'.message_ne_message err)
  | .eval (.error err), .eval (.error err'), hf, hg =>
    injection h with h
    rw [EvalError.Legible.eq_of_message_eq hf hg h]

end LineFailure

/-! ## The statement as a whole -/

/-- **A message identifies the failure.** Lines that fail have messages, and lines with the same message
fail for the same: they are refused for the same cause at the same token, or the same name has no value
or is no number, or the same tree cannot be bound, or there are as many operands. -/
theorem message_identifies {a b : String} {f g : LineFailure} (ha : runLine a = .error f)
    (hb : runLine b = .error g) :
    ∃ m n, f.message = .ok m ∧ g.message = .ok n ∧ (m = n → f = g) := by
  have hf := LineFailure.legible_of_runLine ha
  have hg := LineFailure.legible_of_runLine hb
  obtain ⟨m, hm⟩ := hf.exists_message
  obtain ⟨n, hn⟩ := hg.exists_message
  refine ⟨m, n, hm, hn, fun h => hf.eq_of_message_eq hg ?_⟩
  rw [hm, hn, h]

/-- Two lines with a sum where a name is to be bound, in the second line inside another sum: they are
laid out differently, but the message is the same and so is the tree. -/
theorem message_identifies_target :
    let message := "TypeMismatch: define needs a name, got (+ 1 b)"
    ∃ f g, runLine "(define (+ 01 b) 2)" = .error f ∧
      runLine "(+ 5 (define\t(+ 0x1 b) x))" = .error g ∧
      f.message = .ok message ∧ g.message = .ok message ∧ f = g := by
  intro message
  have hfails : ∀ line, (Entry.ofLine line).toOption = some (.failed line message) →
      ∃ f, runLine line = .error f ∧ f.message = .ok message := by
    intro line hentry
    cases h : Entry.ofLine line with
    | error fault =>
      rw [h] at hentry
      cases hentry
    | ok entry =>
      rw [h] at hentry
      cases hentry
      rcases Entry.ofLine_cases h with ⟨_, _, heq, _⟩ | ⟨f, _, hrun, hmessage, heq, _⟩
      · cases heq
      · injection heq with _ heq
        exact ⟨f, hrun, heq ▸ hmessage⟩
  obtain ⟨f, hf, hfm⟩ := hfails "(define (+ 01 b) 2)" (by decide +kernel)
  obtain ⟨g, hg, hgm⟩ := hfails "(+ 5 (define\t(+ 0x1 b) x))" (by decide +kernel)
  obtain ⟨m, n, hm, hn, hsame⟩ := message_identifies hf hg
  have hmn : m = n := by
    rw [hfm] at hm
    rw [hgm, hm] at hn
    injection hn
  exact ⟨f, g, hf, hg, hfm, hgm, hsame hmn⟩

end PrefixArith
