import PrefixArith.Proofs.Grammar
import PrefixArith.Proofs.Layout
import PrefixArith.Proofs.WellFormed

/-!
# Writing and reading back

What `Expr.text` puts on a line, `parse` takes for the same tree. The two have nothing in common but
the tokens of the tree, `Expr.tokens`, and each is compared with these:

> `Expr.WellFormed.derives_tokens`: the grammar derives a well-formed tree from its tokens.
> `Expr.WellFormed.laidOut_text`: the text of a well-formed tree is a layout of its tokens.

An environment changes the text only by putting values in the place of names, which can as well be
done to the tree beforehand (`Expr.text_eq_text_subst`). So a tree written over an environment reads
as the tree with the values in it, and over no bindings as the tree itself (`parse_render_exact`).
-/

namespace PrefixArith

/-- Behind a blank or a paren a layout can stand wherever it can stand behind a word. -/
theorem LaidOut.of_afterWord {afterWord : Bool} {ts : List Token} {cs : List Char}
    (h : LaidOut true ts cs) : LaidOut afterWord ts cs := by
  cases h with
  | nil gap hgap => exact .nil cs hgap
  | cons gap t hgap apart rest => exact .cons gap t hgap (fun _ => apart rfl) rest

/-- The parts of a list as they are written: the first as it is, every other behind a blank. -/
theorem toList_parenthesized (part : String) (parts : List String) :
    (parenthesized (part :: parts)).toList =
      '(' :: (part.toList ++ (parts.flatMap (fun s => ' ' :: s.toList) ++ [')'])) := by
  have hrow : ∀ (parts : List String) (part : String),
      [' '].intercalate ((part :: parts).map String.toList) =
        part.toList ++ parts.flatMap fun s => ' ' :: s.toList := by
    intro parts
    induction parts with
    | nil => intro part; simp
    | cons next parts ih =>
      intro part
      have hnext := ih next
      rw [List.map_cons] at hnext
      rw [List.map_cons, List.map_cons, List.intercalate_cons_cons, hnext]
      simp
  rw [parenthesized, String.toList_append, String.toList_append, String.toList_intercalate]
  show ['('] ++ [' '].intercalate ((part :: parts).map String.toList) ++ [')'] = _
  rw [hrow]
  simp

theorem Operator.legal_keyword (op : Operator) : (Token.word op.keyword).Legal := by
  cases op with
  | arith op => cases op <;> decide
  | define => decide

namespace Expr

/-! ## The tokens of a tree -/

mutual

/-- The tokens of the tree as it is written over no bindings. -/
def tokens : Expr → List Token
  | .atom v => [.word v.text]
  | .foreignAtom s | .foreign s => [.word s]
  | .list op es => .lparen :: .word op.keyword :: rowTokens es ++ [.rparen]

/-- The tokens of `es`, one behind the other. -/
def rowTokens : List Expr → List Token
  | [] => []
  | e :: es => e.tokens ++ rowTokens es

end

theorem rowTokens_eq_flatMap (es : List Expr) : rowTokens es = es.flatMap tokens := by
  induction es with
  | nil => rfl
  | cons e es ih => rw [rowTokens, ih, List.flatMap_cons]

theorem WellFormed.derives_tokens {e : Expr} (h : e.WellFormed) :
    ∀ d : Nat, e.height + d ≤ maxDepth → Derives d e.tokens e := by
  induction h with
  | @atom v hv =>
    intro d hd
    have hatom := Derives.atom v.text (d := d) (by omega)
    rwa [Value.ofWord_text hv] at hatom
  | @list op es hne _ ih =>
    intro d hd
    rw [height] at hd
    have hparts : ∀ p ∈ es.map fun e => (e.tokens, e), Derives (d + 1) p.1 p.2 := by
      intro p hp
      obtain ⟨e, he, rfl⟩ := List.mem_map.mp hp
      have hle := height_le_heights he
      exact ih e he (d + 1) (by omega)
    have hlist := Derives.list op _ (by omega) (by simpa using hne) hparts
    rw [List.flatMap_map, ← rowTokens_eq_flatMap, List.map_map, Function.comp_def,
      List.map_id'] at hlist
    exact hlist

theorem WellFormed.legal_of_mem_tokens {e : Expr} (h : e.WellFormed) :
    ∀ t ∈ e.tokens, t.Legal := by
  induction h with
  | atom hv => simpa [tokens] using Value.legal_text hv
  | @list op es _ _ ih =>
    intro t ht
    rw [tokens, rowTokens_eq_flatMap] at ht
    simp only [List.cons_append, List.mem_cons, List.mem_append, List.mem_flatMap,
      List.not_mem_nil, or_false] at ht
    rcases ht with rfl | rfl | ⟨e, he, ht⟩ | rfl
    · trivial
    · exact op.legal_keyword
    · exact ih e he t ht
    · trivial

/-! ## The text of a tree -/

theorem text_atom_empty (v : Value) : (atom v).text ∅ = v.text := by
  cases v with
  | num n => rfl
  | ref name => rfl

/-- Over no bindings the name that `define` binds is shown like any other operand. -/
theorem text_list_empty (op : Operator) (es : List Expr) :
    (list op es).text ∅ = parenthesized (op.keyword :: es.map (text ∅)) := by
  rw [← texts_eq_map]
  by_cases h : DefinesName op es
  · obtain ⟨name, es', rfl, rfl⟩ := h
    rfl
  · exact text_list h ∅

/-- The text of the tree, put behind a gap, is laid out as the tokens of the tree, if what follows
can stand behind a word. -/
def LaysOut (e : Expr) : Prop :=
  ∀ (afterWord : Bool) (gap : List Char) (ts : List Token) (cs : List Char),
    (∀ c ∈ gap, isBlank c) → (afterWord → gap ≠ []) → LaidOut true ts cs →
      LaidOut afterWord (e.tokens ++ ts) (gap ++ (e.text ∅).toList ++ cs)

/-- Every operand of a row stands behind a blank, so they can stand behind one another. -/
theorem laidOut_rowTokens {es : List Expr} (h : ∀ e ∈ es, e.LaysOut) {ts : List Token}
    {cs : List Char} (hrest : LaidOut true ts cs) :
    LaidOut true (rowTokens es ++ ts)
      (es.flatMap (fun e => ' ' :: (e.text ∅).toList) ++ cs) := by
  induction es with
  | nil => exact hrest
  | cons e es ih =>
    obtain ⟨he, hes⟩ := List.forall_mem_cons.mp h
    have hblank : isBlank ' ' := by decide
    have hrow := he true [' '] _ _ (by simpa using hblank) (by simp) (ih hes)
    simpa [rowTokens] using hrow

theorem WellFormed.laidOut_text {e : Expr} (h : e.WellFormed) : e.LaysOut := by
  induction h with
  | @atom v hv =>
    intro afterWord gap ts cs hgap hne hrest
    rw [text_atom_empty]
    exact .cons gap (.word v.text) hgap (fun ha _ => hne ha) hrest
  | @list op es _ _ ih =>
    intro afterWord gap ts cs hgap _ hrest
    -- From the closing paren to the opening one: parens need no gap, nor does the operator.
    have hclose : LaidOut true (.rparen :: ts) (')' :: cs) :=
      .cons [] .rparen (by simp) (fun _ h => by cases h) hrest.of_afterWord
    have hoperator : LaidOut false (.word op.keyword :: (rowTokens es ++ .rparen :: ts))
        (op.keyword.toList ++ (es.flatMap (fun e => ' ' :: (e.text ∅).toList) ++ ')' :: cs)) :=
      .word_cons (laidOut_rowTokens ih hclose)
    have hopen : LaidOut afterWord _ _ :=
      .cons gap .lparen hgap (fun _ h => by cases h) hoperator
    rw [text_list_empty, toList_parenthesized, List.flatMap_map]
    simpa [tokens, Token.text] using hopen

/-- A well-formed tree is read from its text. -/
theorem WellFormed.parse_text {e : Expr} (h : e.WellFormed) (hheight : e.height ≤ maxDepth) :
    parse true (e.text ∅) = .ok e := by
  have hend : LaidOut true [] [] := .nil [] (by simp)
  have hlaid := h.laidOut_text false [] [] [] (by simp) (by simp) hend
  rw [List.append_nil, List.nil_append, List.append_nil] at hlaid
  rw [parse_true_eq_ok_iff, tokenize_eq_of_isLayout h.legal_of_mem_tokens hlaid]
  exact h.derives_tokens 0 hheight

/-! ## Values in the place of names -/

theorem text_eq_text_subst (env : Env) (e : Expr) : e.text env = (e.subst env).text ∅ := by
  have hrow : ∀ es : List Expr, (∀ e ∈ es, e.text env = (e.subst env).text ∅) →
      texts env es = (substAll env es).map (text ∅) := by
    intro es h
    rw [texts_eq_map, substAll_eq_map, List.map_map]
    exact List.map_congr_left h
  induction e using defineInduction with
  | atom v => rw [subst, text_atom_empty, text]
  | foreignAtom s => rw [subst, text, text]
  | foreign s => rw [subst, text, text]
  | define name es ih =>
    -- The name is shown as it is on both sides.
    rw [text, subst, text_list_empty, List.map_cons, text_atom_empty, hrow es ih]
    rfl
  | list op es h ih => rw [text_list h, subst_list h, text_list_empty, hrow es ih]

theorem subst_empty (e : Expr) : e.subst ∅ = e := by
  have hrow : ∀ es : List Expr, (∀ e ∈ es, e.subst ∅ = e) → substAll ∅ es = es := by
    intro es h
    rw [substAll_eq_map, List.map_congr_left h, List.map_id']
  induction e using defineInduction with
  | atom v => cases v <;> rfl
  | foreignAtom s => rfl
  | foreign s => rfl
  | define name es ih => rw [subst, hrow es ih]
  | list op es h ih => rw [subst_list h, hrow es ih]

/-- Substitution keeps the operator of a list, and each of its operands as it is or substituted. -/
theorem exists_subst_list (env : Env) (op : Operator) (es : List Expr) :
    ∃ fs, (list op es).subst env = .list op fs ∧ (es ≠ [] → fs ≠ []) ∧
      ∀ f ∈ fs, ∃ e ∈ es, f = e ∨ f = e.subst env := by
  have hrow : ∀ es : List Expr, ∀ f ∈ substAll env es, ∃ e ∈ es, f = e ∨ f = e.subst env := by
    intro es f hf
    rw [substAll_eq_map] at hf
    obtain ⟨e, he, rfl⟩ := List.mem_map.mp hf
    exact ⟨e, he, .inr rfl⟩
  by_cases h : DefinesName op es
  · obtain ⟨name, es', rfl, rfl⟩ := h
    refine ⟨.atom (.ref name) :: substAll env es', by rw [subst], by simp, ?_⟩
    intro f hf
    rcases List.mem_cons.mp hf with rfl | hf
    · exact ⟨_, List.mem_cons_self, .inl rfl⟩
    · obtain ⟨e, he, hfe⟩ := hrow es' f hf
      exact ⟨e, List.mem_cons_of_mem _ he, hfe⟩
  · refine ⟨substAll env es, subst_list h env, ?_, hrow es⟩
    rw [substAll_eq_map]
    simp

/-- Values are no lists, so a tree does not grow in height. -/
theorem height_subst_le (env : Env) (e : Expr) : (e.subst env).height ≤ e.height := by
  induction e with
  | atom v => exact Nat.le_refl _
  | foreignAtom s => exact Nat.le_refl _
  | foreign s => exact Nat.le_refl _
  | list op es ih =>
    obtain ⟨fs, hsubst, _, hfs⟩ := exists_subst_list env op es
    have hall : heights fs ≤ heights es := by
      rw [heights_le_iff]
      intro f hf
      obtain ⟨e, he, rfl | rfl⟩ := hfs f hf
      · exact height_le_heights he
      · exact Nat.le_trans (ih e he) (height_le_heights he)
    rw [hsubst, height, height]
    exact Nat.succ_le_succ hall

theorem WellFormed.subst {env : Env} (henv : env.WellFormed) {e : Expr} (h : e.WellFormed) :
    (e.subst env).WellFormed := by
  induction h with
  | @atom v hv =>
    refine .atom ?_
    cases v with
    | num n => exact hv
    | ref name =>
      rw [Value.resolve]
      cases hname : env.get? name with
      | none => exact hv
      | some w => exact henv name w hname
  | @list op es hne hes ih =>
    obtain ⟨fs, hsubst, hfsne, hfs⟩ := exists_subst_list env op es
    rw [hsubst]
    refine .list (hfsne hne) ?_
    intro f hf
    obtain ⟨e, he, rfl | rfl⟩ := hfs f hf
    · exact hes _ he
    · exact ih e he

end Expr

/-! ## The trees that lines are read as -/

/-- What legal tokens derive is well-formed. -/
theorem Derives.wellFormed {d : Nat} {ts : List Token} {e : Expr} (h : Derives d ts e) :
    (∀ t ∈ ts, t.Legal) → e.WellFormed := by
  induction h with
  | atom w =>
    intro hlegal
    exact .atom (Value.wellFormed_ofWord (hlegal _ List.mem_cons_self))
  | list op parts _ hne _ ih =>
    intro hlegal
    refine .list (fun hnil => hne (List.map_eq_nil_iff.mp hnil)) ?_
    intro e he
    obtain ⟨p, hp, rfl⟩ := List.mem_map.mp he
    refine ih p hp fun t ht => hlegal t ?_
    simp only [List.cons_append, List.mem_cons, List.mem_append, List.mem_flatMap]
    exact .inr (.inr (.inl ⟨p, hp, ht⟩))

/-- A tree that was read is derived by the first tokens of the line. -/
theorem exists_derives_of_parse {strict : Bool} {line : String} {e : Expr}
    (h : parse strict line = .ok e) : ∃ ts rest, tokenize line = ts ++ rest ∧ Derives 0 ts e := by
  have hread : ∃ rest, readExprAt (0 : Nat) (tokenize line) = ⟨.ok e, rest⟩ := by
    rw [parse, parseTokens] at h
    split at h
    · cases h
    · next e' hok =>
      cases h
      exact ⟨[], hok⟩
    · next e' t rest hok =>
      cases strict with
      | false =>
        cases h
        exact ⟨t :: rest, hok⟩
      | true => cases h
  obtain ⟨rest, hread⟩ := hread
  obtain ⟨ts, hts, hderives⟩ := readExprAt_eq_ok_iff.mp hread
  exact ⟨ts, rest, hts, hderives⟩

theorem wellFormed_of_parse {strict : Bool} {line : String} {e : Expr}
    (h : parse strict line = .ok e) : e.WellFormed ∧ e.height ≤ maxDepth := by
  obtain ⟨ts, rest, hts, hderives⟩ := exists_derives_of_parse h
  refine ⟨hderives.wellFormed fun t ht => ?_, hderives.height_add_le⟩
  exact legal_of_mem_tokenize (hts ▸ List.mem_append_left rest ht)

/-- A line that is read as one expression and nothing else is read so whether or not it has to
be. -/
theorem parse_of_parse_true {line : String} {e : Expr} (h : parse true line = .ok e)
    (strict : Bool) : parse strict line = .ok e := by
  rw [parse, parseTokens] at h ⊢
  split at h
  · cases h
  · exact h
  · cases h

/-! ## The statement as a whole -/

/-- The text of a well-formed tree over a well-formed environment reads as the substituted tree. -/
theorem Expr.WellFormed.exists_render {e : Expr} (h : e.WellFormed) (hheight : e.height ≤ maxDepth)
    {env : Env} (henv : env.WellFormed) :
    ∃ s, e.render env = .ok s ∧ parse true s = .ok (e.subst env) := by
  refine ⟨e.text env, Expr.render_eq_ok_iff.mpr ⟨h.fault?_eq_none, rfl⟩, ?_⟩
  rw [Expr.text_eq_text_subst]
  exact (h.subst henv).parse_text (Nat.le_trans (e.height_subst_le env) hheight)

/-- **What is written is read back.** The trees that lines are read as are the well-formed ones that
are not too deep. Such a tree can be shown over every environment of values that words stand for, and
what is shown reads as the tree with these values in the place of their names; over no bindings that
is the tree itself, so no two trees are shown alike. -/
theorem parse_render_exact :
    (∀ (strict : Bool) (e : Expr),
      (∃ line, parse strict line = .ok e) ↔ e.WellFormed ∧ e.height ≤ maxDepth) ∧
    (∀ (e : Expr) (env : Env), e.WellFormed → e.height ≤ maxDepth → env.WellFormed →
      ∃ s, e.render env = .ok s ∧ parse true s = .ok (e.subst env)) ∧
    (∀ e : Expr, e.WellFormed → e.height ≤ maxDepth →
      ∃ s, e.render ∅ = .ok s ∧ parse true s = .ok e) ∧
    (∀ e f : Expr, e.WellFormed → e.height ≤ maxDepth → f.WellFormed → f.height ≤ maxDepth →
      e.render ∅ = f.render ∅ → e = f) := by
  have hempty : ∀ e : Expr, e.WellFormed → e.height ≤ maxDepth →
      ∃ s, e.render ∅ = .ok s ∧ parse true s = .ok e := by
    intro e h hheight
    have hvalues : (∅ : Env).WellFormed := by
      intro name v hv
      cases hv
    have hrender := h.exists_render hheight hvalues
    rwa [e.subst_empty] at hrender
  refine ⟨?_, fun e env h hheight henv => h.exists_render hheight henv, hempty, ?_⟩
  · intro strict e
    constructor
    · rintro ⟨line, h⟩
      exact wellFormed_of_parse h
    · rintro ⟨h, hheight⟩
      exact ⟨_, parse_of_parse_true (h.parse_text hheight) strict⟩
  · intro e f he hedeep hf hfdeep hsame
    obtain ⟨s, hes, heparse⟩ := hempty e he hedeep
    obtain ⟨t, hft, hfparse⟩ := hempty f hf hfdeep
    rw [hes, hft] at hsame
    cases hsame
    rw [heparse] at hfparse
    injection hfparse

/-- The tree of `(define x (* x y -5))`, with `x` a number and `y` a name: the operand `x` gives way
to its value and the name that is bound does not. -/
theorem parse_render_exact_define :
    let tree (v w : Value) : Expr := .list .define
      [.atom (.ref "x"), .list (.arith .mul) [.atom v, .atom w, .atom (.num (-5))]]
    let e := tree (.ref "x") (.ref "y")
    let env := ((∅ : Env).insert "x" (.num 7)).insert "y" (.ref "x")
    (e.WellFormed ∧ e.height ≤ maxDepth ∧ env.WellFormed) ∧
      e.render env = .ok "(define x (* 7 x -5))" ∧
      parse true "(define x (* 7 x -5))" = .ok (tree (.num 7) (.ref "x")) ∧
      (∃ line, parse false line = .ok e) ∧
      (∃ s, e.render ∅ = .ok s ∧ parse true s = .ok e) ∧
      e.render ∅ = (tree (.ref "x") (.ref "y")).render ∅ ∧ e = tree (.ref "x") (.ref "y") := by
  intro tree e env
  have hx : (Value.ref "x").WellFormed := by show IsName "x"; decide
  have hy : (Value.ref "y").WellFormed := by show IsName "y"; decide
  have hfive : (Value.num (-5)).WellFormed := by show InRange (-5); decide
  have hproduct : (Expr.list (.arith .mul)
      [.atom (.ref "x"), .atom (.ref "y"), .atom (.num (-5))]).WellFormed :=
    .list (by simp)
      (by simpa using ⟨Expr.WellFormed.atom hx, Expr.WellFormed.atom hy, Expr.WellFormed.atom hfive⟩)
  have he : e.WellFormed :=
    .list (by simp) (by simpa using ⟨Expr.WellFormed.atom hx, hproduct⟩)
  have hheight : e.height ≤ maxDepth := by decide
  have henv : env.WellFormed := by
    intro name v h
    rw [Env.get?_insert, Env.get?_insert] at h
    split at h
    · cases h
      exact hx
    · split at h
      · cases h
        show InRange 7
        decide
      · cases h
  have hrender : e.render env = .ok "(define x (* 7 x -5))" := rfl
  obtain ⟨hparsed, hsubst, hempty, hinjective⟩ := parse_render_exact
  obtain ⟨s, hs, hread⟩ := hsubst e env he hheight henv
  rw [hrender] at hs
  cases hs
  exact ⟨⟨he, hheight, henv⟩, hrender, hread, (hparsed false e).mpr ⟨he, hheight⟩,
    hempty e he hheight, rfl, hinjective e e he hheight he hheight rfl⟩

end PrefixArith
