import PrefixArith.Proofs.Session

/-!
# Lines with a result

`LineSource` says which tokens are a line with a result, and gives its text and its result without a
tree. `runLine` reads the tree, evaluates it step by step in words of 32 bits, and shows it in the
environment it leaves. The two agree on every line:

> `runLine_eq_ok_iff`: a line has a result exactly if its tokens are a source, and the result is the
> text and the result of the source.

One direction builds the tree of a source (`LineSource.exists_settled`). In the other, a tree that
has a value over no bindings comes from a source (`Derives.lineSource`): a name could only be read
behind a `define` of the same line, and what `define` gives is not a number, so nothing computes
with it.

The result of a line shows the tree that was read, and the tree can be run in its turn. Two things
have to be settled for that. What is shown is the tree and not its values, although it is shown in the
environment that the line leaves; this is `Expr.Settled.text_eq`. And the tree has to be found in the
result, in which a name may well contain an equals sign or be one:

> `cutAtLast_of_isBlank_eq_false`: behind the last ` = ` of a result stands its value, as a value is
> written without blanks.

What is in front of it is a line with the same result (`runLine_canonical`).
-/

namespace PrefixArith

/-! ## Sources

The lines that have a result, with the text and the result of each, said of the tokens alone: no
tree, no environment and no wrapping on the way. A line can read no name, as nothing is bound when it
begins; so it is arithmetic on literals, or a `define` of such a line.
-/

/-- The tokens `ts`, inside `d` lists, are arithmetic on literals, which is shown as `text` and comes
exactly to `n`. -/
inductive ArithSource : (d : Nat) → (ts : List Token) → (text : String) → (n : Int) → Prop where
  | literal {d : Nat} {w : String} {l : Literal} (hd : d ≤ maxDepth)
      (hl : Literal.ofString? w = some l) :
      ArithSource d [.word w] (decimal (wrap l.value)) l.value
  | list {d : Nat} (op : Arith) (parts : List (List Token × String × Int)) {n : Int}
      (hparts : ∀ p ∈ parts, ArithSource (d + 1) p.1 p.2.1 p.2.2)
      (hn : op.combineExactly? (parts.map (·.2.2)) = some n) :
      ArithSource d
        (.lparen :: .word (Operator.arith op).keyword :: parts.flatMap (·.1) ++ [.rparen])
        (parenthesized ((Operator.arith op).keyword :: parts.map (·.2.1))) n

/-- The tokens `ts`, inside `d` lists, are a line that is shown as `text` and has the result
`result`. -/
inductive LineSource : (d : Nat) → (ts : List Token) → (text result : String) → Prop where
  | arith {d : Nat} {ts : List Token} {text : String} {n : Int} (h : ArithSource d ts text n) :
      LineSource d ts text (decimal (wrap n))
  | define {d : Nat} {name : String} {ts : List Token} {text result : String} (hd : d < maxDepth)
      (hname : Literal.ofString? name = none) (h : LineSource (d + 1) ts text result) :
      LineSource d (.lparen :: .word Operator.define.keyword :: .word name :: ts ++ [.rparen])
        (parenthesized [Operator.define.keyword, name, text]) name

/-! ## Trees that no environment matters to -/

/-- Over every environment the tree `e` has the value `v`, and it is shown as `text`. -/
structure Expr.Settled (e : Expr) (text : String) (v : Value) : Prop where
  faultless : e.fault? = none
  text_eq : ∀ env, e.text env = text
  eval_eq : ∀ env, ∃ env', e.eval env = ⟨.ok v, env'⟩

namespace Expr.Settled

theorem num (n : Int) : (Expr.atom (.num n)).Settled (decimal n) (.num n) :=
  ⟨rfl, fun _ => rfl, fun env => ⟨env, rfl⟩⟩

/-- Numbers leave the environment alone. -/
theorem eval_num {e : Expr} {text : String} {n : Int} (h : e.Settled text (.num n)) (env : Env) :
    e.eval env = ⟨.ok (.num n), env⟩ := by
  obtain ⟨env', heval⟩ := h.eval_eq env
  have henv := e.eval_num_env env env' n heval
  rw [heval, henv]

/-- An operation on trees that come to the numbers `m i`, wrapped, comes to the exact combination of
these numbers, wrapped. -/
theorem arith (op : Arith) {ι : Type} {is : List ι} {f : ι → Expr} {text : ι → String} {m : ι → Int}
    {n : Int} (h : ∀ i ∈ is, (f i).Settled (text i) (.num (wrap (m i))))
    (hn : op.combineExactly? (is.map m) = some n) :
    (Expr.list (.arith op) (is.map f)).Settled
      (parenthesized ((Operator.arith op).keyword :: is.map text)) (.num (wrap n)) := by
  refine ⟨?_, ?_, ?_⟩
  · show firstFault? (is.map f) = none
    rw [firstFault?_eq_none_iff]
    intro e he
    obtain ⟨i, hi, rfl⟩ := List.mem_map.mp he
    exact (h i hi).faultless
  · intro env
    have htexts : texts env (is.map f) = is.map text := by
      rw [texts_eq_map, List.map_map]
      exact List.map_congr_left fun i hi => (h i hi).text_eq env
    show parenthesized ((Operator.arith op).keyword :: texts env (is.map f)) = _
    rw [htexts]
  · intro env
    have hnumbers : evalNumbers (is.map f) env = ⟨.ok ((is.map m).map wrap), env⟩ := by
      rw [evalNumbers_eq_ok_iff, List.map_map, List.forall₂_map_left_iff,
        List.forall₂_map_right_iff, List.forall₂_same]
      exact ⟨rfl, fun i hi => (h i hi).eval_num env⟩
    have hresult : op.result ((is.map m).map wrap) = .ok (.num (wrap n)) := by
      rw [Arith.result, op.combine?_map_wrap, hn]
      rfl
    exact ⟨env, by rw [eval, hnumbers, Outcome.bind_ok, hresult]⟩

theorem define (name : String) {e : Expr} {text : String} {v : Value} (h : e.Settled text v) :
    (Expr.list .define [.atom (.ref name), e]).Settled
      (parenthesized [Operator.define.keyword, name, text]) (.ref name) := by
  refine ⟨?_, ?_, ?_⟩
  · show firstFault? [.atom (.ref name), e] = none
    rw [firstFault?_eq_none_iff]
    intro x hx
    rcases List.mem_pair.mp hx with rfl | rfl
    · rfl
    · exact h.faultless
  · intro env
    show parenthesized [Operator.define.keyword, name, e.text env] = _
    rw [h.text_eq env]
  · intro env
    obtain ⟨env', heval⟩ := h.eval_eq env
    exact ⟨env'.insert name v, by rw [eval, heval, Outcome.bind_ok]⟩

end Expr.Settled

/-! ## From a source to its tree -/

/-- A list of operands `g i`, each derived by the tokens `f i`. -/
theorem Derives.list_map {ι : Type} {d : Nat} (op : Operator) {is : List ι} {f : ι → List Token}
    {g : ι → Expr} (hne : is ≠ []) (h : ∀ i ∈ is, Derives (d + 1) (f i) (g i)) :
    Derives d (.lparen :: .word op.keyword :: is.flatMap f ++ [.rparen])
      (.list op (is.map g)) := by
  have hfits : d ≤ maxDepth := by
    obtain ⟨i, hi⟩ := List.exists_mem_of_ne_nil is hne
    exact Nat.le_of_succ_le (h i hi).le_maxDepth
  have hparts : ∀ p ∈ is.map fun i => (f i, g i), Derives (d + 1) p.1 p.2 := by
    intro p hp
    obtain ⟨i, hi, rfl⟩ := List.mem_map.mp hp
    exact h i hi
  have hlist := Derives.list op _ hfits (by simpa using hne) hparts
  rw [List.flatMap_map, List.map_map] at hlist
  exact hlist

theorem Value.ofWord_literal {w : String} {l : Literal} (h : Literal.ofString? w = some l) :
    ofWord w = .num (wrap l.value) := by
  rw [ofWord, h, ← l.word_eq]

theorem ArithSource.exists_settled {d : Nat} {ts : List Token} {text : String} {n : Int}
    (h : ArithSource d ts text n) : ∃ e, Derives d ts e ∧ e.Settled text (.num (wrap n)) := by
  induction h with
  | @literal d w l hd hl =>
    refine ⟨.atom (Value.ofWord w), .atom w hd, ?_⟩
    rw [Value.ofWord_literal hl]
    exact .num (wrap l.value)
  | @list d op parts n hparts hn ih =>
    obtain ⟨ps, rfl, hps⟩ := exists_pairs parts ih
    have hne : ps ≠ [] := by
      rintro rfl
      cases hn
    rw [List.map_map] at hn
    refine ⟨.list (.arith op) (ps.map Prod.fst), ?_, ?_⟩
    · rw [List.flatMap_map]
      exact .list_map (.arith op) hne fun p hp => (hps p hp).1
    · rw [List.map_map]
      exact .arith op (fun p hp => (hps p hp).2) hn

theorem LineSource.exists_settled {d : Nat} {ts : List Token} {text result : String}
    (h : LineSource d ts text result) :
    ∃ e v, Derives d ts e ∧ e.Settled text v ∧ v.text = result := by
  induction h with
  | @arith d ts text n h =>
    obtain ⟨e, hts, he⟩ := h.exists_settled
    exact ⟨e, .num (wrap n), hts, he, rfl⟩
  | @define d name ts text result hd hname _ ih =>
    obtain ⟨e, v, hts, he, _⟩ := ih
    have hword : Value.ofWord name = .ref name := Value.ofWord_eq_ref_iff.mpr ⟨hname, rfl⟩
    have hatom : Derives (d + 1) [.word name] (.atom (.ref name)) := hword ▸ .atom name hd
    refine ⟨.list .define [.atom (.ref name), e], .ref name, ?_, .define name he, rfl⟩
    have hlist := Derives.list .define [([.word name], .atom (.ref name)), (ts, e)]
      (Nat.le_of_lt hd) (by simp) (by simpa using ⟨hatom, hts⟩)
    simpa using hlist

/-! ## From a tree with a value to its source -/

/-- Operations on sources of arithmetic `f i`, one at least, are sources of arithmetic. -/
theorem ArithSource.exists_list {ι : Type} {d : Nat} (op : Arith) {is : List ι}
    {f : ι → List Token} (hne : is ≠ [])
    (h : ∀ i ∈ is, ∃ text n, ArithSource (d + 1) (f i) text n) :
    ∃ text n, ArithSource d
      (.lparen :: .word (Operator.arith op).keyword :: is.flatMap f ++ [.rparen]) text n := by
  have hpair : ∀ i ∈ is, ∃ q : String × Int, ArithSource (d + 1) (f i) q.1 q.2 := by
    intro i hi
    obtain ⟨text, n, hsource⟩ := h i hi
    exact ⟨(text, n), hsource⟩
  obtain ⟨ps, rfl, hps⟩ := exists_pairs is hpair
  have hparts : ∀ p ∈ ps.map fun p => (f p.2, p.1), ArithSource (d + 1) p.1 p.2.1 p.2.2 := by
    intro p hp
    obtain ⟨q, hq, rfl⟩ := List.mem_map.mp hp
    exact hps q hq
  cases ps with
  | nil => exact absurd rfl hne
  | cons p ps =>
    have hlist := ArithSource.list op _ hparts rfl
    rw [List.flatMap_map] at hlist
    rw [List.flatMap_map]
    exact ⟨_, _, hlist⟩

/-- A tree that comes to a number over no bindings is arithmetic on literals: there is no name that
it could read. -/
theorem Derives.arithSource {d : Nat} {ts : List Token} {e : Expr} (h : Derives d ts e) :
    ∀ n env', e.eval ∅ = ⟨.ok (.num n), env'⟩ → ∃ text m, ArithSource d ts text m := by
  induction h with
  | @atom d w hd =>
    intro n env' heval
    cases hl : Literal.ofString? w with
    | some l => exact ⟨_, _, .literal hd hl⟩
    | none =>
      -- The word is a name, which nothing has bound.
      rw [Value.ofWord_eq_ref_iff.mpr ⟨hl, rfl⟩] at heval
      cases heval
  | @list d op parts hd hne hparts ih =>
    intro n env' heval
    cases op with
    | define =>
      obtain ⟨_, _, _, _, _, _, hv, _⟩ := Expr.eval_define_eq_ok heval
      cases hv
    | arith op =>
      obtain ⟨ns, _, hns, _⟩ := Expr.eval_arith_eq_ok heval
      refine ArithSource.exists_list op hne fun p hp => ?_
      obtain ⟨m, hm⟩ := Expr.exists_num_of_evalNumbers hns p.2 (List.mem_map_of_mem hp)
      exact ih p hp m ∅ hm

/-- The tokens of a name are that name alone. -/
theorem Derives.eq_word_of_ref {d : Nat} {ts : List Token} {name : String}
    (h : Derives d ts (.atom (.ref name))) : ts = [.word name] ∧ Literal.ofString? name = none := by
  generalize he : Expr.atom (.ref name) = e at h
  cases h with
  | atom w hd =>
    injection he with hv
    obtain ⟨hl, rfl⟩ := Value.ofWord_eq_ref_iff.mp hv.symm
    exact ⟨rfl, hl⟩
  | list => cases he

theorem Derives.lineSource_of_num {d : Nat} {ts : List Token} {e : Expr} (h : Derives d ts e)
    {n : Int} {env' : Env} (heval : e.eval ∅ = ⟨.ok (.num n), env'⟩) :
    ∃ text result, LineSource d ts text result := by
  obtain ⟨text, m, hsource⟩ := h.arithSource n env' heval
  exact ⟨text, _, .arith hsource⟩

/-- A tree with a value over no bindings is a line with a result. -/
theorem Derives.lineSource {d : Nat} {ts : List Token} {e : Expr} (h : Derives d ts e) :
    ∀ v env', e.eval ∅ = ⟨.ok v, env'⟩ → ∃ text result, LineSource d ts text result := by
  induction h with
  | @atom d w hd =>
    intro v env' heval
    cases hw : Value.ofWord w with
    | num n =>
      have hnum : (Expr.atom (Value.ofWord w)).eval ∅ = ⟨.ok (.num n), ∅⟩ := by rw [hw, Expr.eval]
      exact (Derives.atom w hd).lineSource_of_num hnum
    | ref name =>
      rw [hw] at heval
      cases heval
  | @list d op parts hd hne hparts ih =>
    intro v env' heval
    cases op with
    | arith op =>
      obtain ⟨_, n, _, _, rfl, _⟩ := Expr.eval_arith_eq_ok heval
      exact (Derives.list (.arith op) parts hd hne hparts).lineSource_of_num heval
    | define =>
      obtain ⟨name, e, w, env₁, hes, hw, _, _⟩ := Expr.eval_define_eq_ok heval
      obtain ⟨target, tail, rfl, hname, htail⟩ := List.map_eq_cons_iff.mp hes
      obtain ⟨p, tail', rfl, rfl, hnil⟩ := List.map_eq_cons_iff.mp htail
      obtain rfl := List.map_eq_nil_iff.mp hnil
      have htarget : Derives (d + 1) target.1 (.atom (.ref name)) :=
        hname ▸ hparts target List.mem_cons_self
      obtain ⟨hword, hliteral⟩ := htarget.eq_word_of_ref
      obtain ⟨text, result, hsource⟩ := ih p (by simp) w env₁ hw
      have hline := LineSource.define htarget.le_maxDepth hliteral hsource
      rw [List.flatMap_cons, List.flatMap_cons, List.flatMap_nil, List.append_nil, hword]
      exact ⟨_, name, hline⟩

/-! ## Lines -/

/-- A line with a result has a tree, and the tree has a value. -/
theorem exists_eval_of_runLine {line s : String} (h : runLine line = .ok s) :
    ∃ e v env, parse true line = .ok e ∧ e.eval ∅ = ⟨.ok v, env⟩ := by
  unfold runLine at h
  split at h
  · cases h
  · next e hparse =>
    split at h
    · cases h
    · next v env heval => exact ⟨e, v, env, hparse, heval⟩

theorem runLine_of_settled {line text : String} {e : Expr} {v : Value}
    (hparse : parse true line = .ok e) (h : e.Settled text v) :
    runLine line = .ok (resultText text v) := by
  obtain ⟨env, heval⟩ := h.eval_eq ∅
  have hrender : e.render env = .ok text := Expr.render_eq_ok_iff.mpr ⟨h.faultless, h.text_eq env⟩
  rw [runLine, hparse]
  simp only [heval, hrender]

/-- The tree of a line with a result is one that no environment matters to. -/
theorem exists_settled_of_runLine {line s : String} (h : runLine line = .ok s) :
    ∃ e text v, parse true line = .ok e ∧ e.Settled text v ∧ s = resultText text v := by
  obtain ⟨e, v, env, hparse, heval⟩ := exists_eval_of_runLine h
  have hderives := parse_true_eq_ok_iff.mp hparse
  obtain ⟨text, result, hsource⟩ := hderives.lineSource v env heval
  -- The tree of the source is the tree that was read, as the tokens derive no other.
  obtain ⟨e', v', hderives', hsettled, _⟩ := hsource.exists_settled
  have hparse' := parse_true_eq_ok_iff.mpr hderives'
  rw [runLine_of_settled hparse' hsettled] at h
  injection h with h
  exact ⟨e', text, v', hparse', hsettled, h.symm⟩

/-- **The lines with a result.** A line has a result exactly if its tokens are a source, and what is
reported is the text of the source and its exact value, wrapped once, or the name it defines. -/
theorem runLine_eq_ok_iff (line s : String) :
    runLine line = .ok s ↔
      ∃ text result, LineSource 0 (tokenize line) text result ∧ s = text ++ " = " ++ result := by
  constructor
  · intro h
    obtain ⟨e, v, env, hparse, heval⟩ := exists_eval_of_runLine h
    obtain ⟨text, result, hsource⟩ :=
      (parse_true_eq_ok_iff.mp hparse).lineSource v env heval
    refine ⟨text, result, hsource, ?_⟩
    -- The tree of the source is the tree that was read, as the tokens derive no other.
    obtain ⟨e', v', hderives, hsettled, hresult⟩ := hsource.exists_settled
    rw [runLine_of_settled (parse_true_eq_ok_iff.mpr hderives) hsettled, resultText, hresult] at h
    injection h with h
    exact h.symm
  · rintro ⟨text, result, hsource, rfl⟩
    obtain ⟨e, v, hderives, hsettled, rfl⟩ := hsource.exists_settled
    exact runLine_of_settled (parse_true_eq_ok_iff.mpr hderives) hsettled

/-! ## The last occurrence in a result -/

/-- The text `s` is cut in two where `mark` occurs in it for the last time. -/
structure CutAtLast (mark s front back : String) : Prop where
  eq : s = front ++ mark ++ back
  last : ∀ front' back', s = front' ++ mark ++ back' → front'.length ≤ front.length

/-- There is one last occurrence. -/
theorem CutAtLast.unique {mark s front back front' back' : String}
    (h : CutAtLast mark s front back) (h' : CutAtLast mark s front' back') :
    front = front' ∧ back = back' := by
  have hlength : front.toList.length = front'.toList.length := by
    have hle := h.last front' back' h'.eq
    have hge := h'.last front back h.eq
    simp only [String.length_toList]
    omega
  have hsame : front.toList ++ (mark ++ back).toList = front'.toList ++ (mark ++ back').toList := by
    rw [← String.toList_append, ← String.toList_append, ← String.append_assoc,
      ← String.append_assoc, ← h.eq, h'.eq]
  obtain ⟨hfront, hback⟩ := List.append_inj hsame hlength
  rw [String.toList_append, String.toList_append] at hback
  exact ⟨String.toList_injective hfront, String.toList_injective (List.append_cancel_left hback)⟩

/-- Behind the first blank of the mark there is a single one, if the text behind the mark has none, and
another occurrence of the mark would take two. -/
theorem cutAtLast_of_isBlank_eq_false (front : String) {back : String}
    (h : ∀ c ∈ back.toList, isBlank c = false) :
    CutAtLast " = " (front ++ " = " ++ back) front back := by
  refine ⟨rfl, ?_⟩
  intro front' back' heq
  have hback : back.toList.count ' ' = 0 := by
    rw [List.count_eq_zero]
    intro hmem
    exact absurd (h ' ' hmem) (by decide)
  have hchars : front.toList ++ ' ' :: '=' :: ' ' :: back.toList
      = front'.toList ++ ' ' :: '=' :: ' ' :: back'.toList := by
    have hlists := congrArg String.toList heq
    rw [String.toList_append, String.toList_append, String.toList_append, String.toList_append,
      List.append_assoc, List.append_assoc] at hlists
    exact hlists
  rw [← String.length_toList, ← String.length_toList]
  rcases List.append_eq_append_iff.mp hchars with ⟨gap, hfront', hgap⟩ | ⟨gap, hfront, _⟩
  · cases gap with
    | nil =>
      rw [List.append_nil] at hfront'
      exact Nat.le_of_eq (congrArg List.length hfront')
    | cons c gap =>
      rw [List.cons_append] at hgap
      injection hgap with _ hrest
      have hcount := congrArg (List.count ' ') hrest
      simp [hback] at hcount
      omega
  · rw [hfront, List.length_append]
    omega

/-! ## Results run again -/

/-- **A result begins with a line that has the same result.** It is cut at its last equals sign with
blanks around it: in front of that stands the tree that was read, as it is shown without bindings and
also with those that the line makes, and behind it the value of the tree. Run again, the front gives
the result. -/
theorem runLine_canonical {line s : String} (h : runLine line = .ok s) :
    (∃ front back, CutAtLast " = " s front back) ∧
    ∀ front back, CutAtLast " = " s front back →
      ∃ e v env, parse true line = .ok e ∧ e.eval ∅ = ⟨.ok v, env⟩ ∧
        e.render ∅ = .ok front ∧ e.render env = .ok front ∧ back = v.text ∧
        runLine front = .ok s := by
  obtain ⟨e, text, v, hparse, hsettled, rfl⟩ := exists_settled_of_runLine h
  obtain ⟨he, hheight⟩ := wellFormed_of_parse hparse
  obtain ⟨env, heval⟩ := hsettled.eval_eq ∅
  have hvalue := Value.legal_text (he.wellFormed_of_eval heval)
  have hcut : CutAtLast " = " (resultText text v) text v.text :=
    cutAtLast_of_isBlank_eq_false text fun c hc => (hvalue.2 c hc).1
  have hrender : ∀ env, e.render env = .ok text :=
    fun env => Expr.render_eq_ok_iff.mpr ⟨hsettled.faultless, hsettled.text_eq env⟩
  have hagain : parse true text = .ok e := by
    rw [← hsettled.text_eq ∅]
    exact he.parse_text hheight
  refine ⟨⟨text, v.text, hcut⟩, ?_⟩
  intro front back hcut'
  obtain ⟨rfl, rfl⟩ := hcut.unique hcut'
  exact ⟨e, v, env, hparse, heval, hrender ∅, hrender env, rfl, runLine_of_settled hagain hsettled⟩

/-- A line that binds the name `=` twice: the equals sign occurs four times in its result, and the last
but one is the one that counts. -/
theorem runLine_canonical_equals_sign :
    let line := "(define =(define = 0x1_0000_0007 ))\n"
    let s := "(define = (define = 7)) = ="
    runLine line = .ok s ∧ CutAtLast " = " s "(define = (define = 7))" "=" ∧
      ∃ e v env, parse true line = .ok e ∧ e.eval ∅ = ⟨.ok v, env⟩ ∧
        e.render ∅ = .ok "(define = (define = 7))" ∧
        e.render env = .ok "(define = (define = 7))" ∧ "=" = v.text ∧
        runLine "(define = (define = 7))" = .ok s := by
  intro line s
  have hsome : (runLine line).toOption = some s := by decide +kernel
  have hrun : runLine line = .ok s := by
    cases h : runLine line with
    | error failure =>
      rw [h] at hsome
      cases hsome
    | ok t =>
      rw [h] at hsome
      injection hsome with hsame
      rw [hsame]
  have hcut : CutAtLast " = " s "(define = (define = 7))" "=" := by
    have hjoined : s = "(define = (define = 7))" ++ " = " ++ "=" := rfl
    have hvalue : ∀ c ∈ "=".toList, isBlank c = false := by
      intro c hc
      obtain rfl : c = '=' := by simpa using hc
      decide
    rw [hjoined]
    exact cutAtLast_of_isBlank_eq_false _ hvalue
  exact ⟨hrun, hcut, (runLine_canonical hrun).2 _ _ hcut⟩

end PrefixArith
