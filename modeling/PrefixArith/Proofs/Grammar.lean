import PrefixArith.Reader

/-!
# The reader and the grammar

The reader takes tokens off a stream, with fuel, with the room that is left, and with a loop over
operands that looks ahead. `Derives` knows none of this. The two agree on every stream:

> `readExprAt_eq_ok_iff`: a reading gives `e` and leaves `rest` exactly if the tokens in front of
> `rest` derive `e`.

So the reader never takes too much or too little, and as it is a function the grammar inherits that:
no row of tokens derives two trees, and none begins with a shorter one that derives a tree
(`Derives.eq_of_prefix`).

Depth enters a derivation only as a bound (`Derives.of_le`), and the bound is on the height of the
tree:

> `exists_readExprAt_iff`: a tree can be read inside `d` lists exactly if words can spell it and
> its height and `d` are together at most `maxDepth`.
-/

namespace PrefixArith

/-! ## The grammar of expressions

Which rows of tokens are expressions, and which tree each of them is: the rules that the reader
follows, stated without an order of reading. An expression lies inside `d` lists and may do so up to
`maxDepth`; an operator does not count as an operand, so it may stand one level further in.
-/

/-- The tokens `ts`, inside `d` lists, are the expression `e`. -/
inductive Derives : (d : Nat) → (ts : List Token) → (e : Expr) → Prop where
  /-- A word is a number or a name. -/
  | atom {d : Nat} (w : String) (hd : d ≤ maxDepth) :
      Derives d [.word w] (.atom (Value.ofWord w))
  /-- An operator and at least one operand, in parens; each part is an operand with its tokens. -/
  | list {d : Nat} (op : Operator) (parts : List (List Token × Expr)) (hd : d ≤ maxDepth)
      (hne : parts ≠ []) (hparts : ∀ p ∈ parts, Derives (d + 1) p.1 p.2) :
      Derives d (.lparen :: .word op.keyword :: parts.flatMap Prod.fst ++ [.rparen])
        (.list op (parts.map Prod.snd))

namespace Derives

/-- An expression has tokens, the first of which is not a closing paren. -/
theorem exists_cons {d : Nat} {ts : List Token} {e : Expr} (h : Derives d ts e) :
    ∃ t rest, ts = t :: rest ∧ t ≠ .rparen := by
  cases h with
  | atom w => exact ⟨.word w, [], rfl, by simp⟩
  | list op parts => exact ⟨.lparen, _, rfl, by simp⟩

theorem le_maxDepth {d : Nat} {ts : List Token} {e : Expr} (h : Derives d ts e) :
    d ≤ maxDepth := by
  cases h <;> assumption

end Derives

/-! ## Rows and room -/

/-- What can be found for each member of a list can be found for all of them at once. -/
theorem exists_pairs {α β : Type} {R : α → β → Prop} :
    ∀ (bs : List β), (∀ b ∈ bs, ∃ a, R a b) →
      ∃ ps : List (α × β), ps.map Prod.snd = bs ∧ ∀ p ∈ ps, R p.1 p.2
  | [], _ => ⟨[], rfl, by simp⟩
  | b :: bs, h => by
    obtain ⟨a, ha⟩ := h b List.mem_cons_self
    obtain ⟨ps, hps, hR⟩ := exists_pairs bs fun x hx => h x (List.mem_cons_of_mem _ hx)
    refine ⟨(a, b) :: ps, by rw [List.map_cons, hps], ?_⟩
    intro p hp
    rcases List.mem_cons.mp hp with rfl | hp
    · exact ha
    · exact hR p hp

theorem room_natCast (d : Nat) : room d = maxDepth + 1 - d := by
  unfold room
  omega

/-! ## Operands -/

/-- Before anything but a closing paren the operand loop reads one more operand. -/
theorem readOperands_succ (one : List Token → Reading Expr) (fuel : Nat) {t : Token}
    (ts : List Token) (ht : t ≠ .rparen) :
    readOperands one (fuel + 1) (t :: ts) =
      match one (t :: ts) with
      | ⟨.error err, rest⟩ => ⟨.error err, rest⟩
      | ⟨.ok e, rest⟩ =>
        match readOperands one fuel rest with
        | ⟨.error err, rest⟩ => ⟨.error err, rest⟩
        | ⟨.ok es, rest⟩ => ⟨.ok (e :: es), rest⟩ := by
  cases t with
  | rparen => exact absurd rfl ht
  | lparen | word _ => rfl

/-- What the operand loop returns is, operand by operand, what `one` returned, and the tokens taken
are those that `one` took and the closing paren. -/
theorem readOperands_sound {one : List Token → Reading Expr} {P : List Token → Expr → Prop}
    (hone : ∀ ts e rest, one ts = ⟨.ok e, rest⟩ → ∃ p, ts = p ++ rest ∧ P p e)
    (fuel : Nat) (ts : List Token) :
    ∀ (es : List Expr) (rest : List Token), readOperands one fuel ts = ⟨.ok es, rest⟩ →
      ∃ parts : List (List Token × Expr), ts = parts.flatMap Prod.fst ++ .rparen :: rest ∧
        es = parts.map Prod.snd ∧ ∀ p ∈ parts, P p.1 p.2 := by
  fun_induction readOperands one fuel ts with
  | case1 | case3 | case4 | case5 => intro es rest h; cases h
  | case2 fuel ts =>
    intro es rest h
    cases h
    exact ⟨[], rfl, rfl, by simp⟩
  | case6 fuel ts _ _ e mid h es mid' h' ih =>
    intro es' rest heq
    cases heq
    obtain ⟨p, hts, hp⟩ := hone ts e mid h
    obtain ⟨parts, hmid, hes, hparts⟩ := ih es mid' h'
    refine ⟨(p, e) :: parts, ?_, ?_, ?_⟩
    · rw [hts, hmid, List.flatMap_cons, List.append_assoc]
    · rw [hes, List.map_cons]
    · intro q hq
      rcases List.mem_cons.mp hq with rfl | hq
      · exact hp
      · exact hparts q hq

/-- The operand loop reads a row of operands that `one` can read, given fuel for each of them. -/
theorem readOperands_complete {one : List Token → Reading Expr} (rest : List Token) :
    ∀ (parts : List (List Token × Expr)) (fuel : Nat), parts.length ≤ fuel →
      (∀ p ∈ parts, ∀ rest, one (p.1 ++ rest) = ⟨.ok p.2, rest⟩) →
      (∀ p ∈ parts, ∃ t ts, p.1 = t :: ts ∧ t ≠ .rparen) →
      readOperands one fuel (parts.flatMap Prod.fst ++ .rparen :: rest)
        = ⟨.ok (parts.map Prod.snd), rest⟩ := by
  intro parts
  induction parts with
  | nil => intro fuel _ _ _; rw [List.flatMap_nil, List.nil_append, readOperands, List.map_nil]
  | cons p parts ih =>
    intro fuel hfuel hone hstart
    cases fuel with
    | zero => exact absurd hfuel (by simp)
    | succ fuel =>
      obtain ⟨t, ts, hp, ht⟩ := hstart p List.mem_cons_self
      have hfirst := hone p List.mem_cons_self (parts.flatMap Prod.fst ++ .rparen :: rest)
      have hrest := ih fuel (by simpa using hfuel)
        (fun q hq => hone q (List.mem_cons_of_mem _ hq))
        (fun q hq => hstart q (List.mem_cons_of_mem _ hq))
      rw [List.flatMap_cons, List.append_assoc]
      rw [hp, List.cons_append] at hfirst ⊢
      rw [readOperands_succ one fuel _ ht, hfirst]
      simp only [hrest, List.map_cons]

/-- Operands have at least a token each, so the tokens are fuel enough. -/
theorem length_le_length_flatMap {parts : List (List Token × Expr)}
    (h : ∀ p ∈ parts, ∃ t ts, p.1 = t :: ts ∧ t ≠ .rparen) :
    parts.length ≤ (parts.flatMap Prod.fst).length := by
  induction parts with
  | nil => exact Nat.le_refl _
  | cons p parts ih =>
    obtain ⟨t, ts, hp, _⟩ := h p List.mem_cons_self
    have hrest := ih fun q hq => h q (List.mem_cons_of_mem _ hq)
    rw [List.flatMap_cons, List.length_append, hp, List.length_cons, List.length_cons]
    omega

/-! ## Derivations -/

namespace Derives

/-- What derives a tree inside many lists derives it inside fewer. -/
theorem of_le {d d' : Nat} {ts : List Token} {e : Expr} (h : Derives d ts e) (hle : d' ≤ d) :
    Derives d' ts e := by
  induction h generalizing d' with
  | atom w hd => exact .atom w (Nat.le_trans hle hd)
  | list op parts hd hne _ ih =>
    exact .list op parts (Nat.le_trans hle hd) hne fun p hp => ih p hp (Nat.succ_le_succ hle)

/-- The reader reads what derives a tree as that tree, and stops behind it. -/
theorem readExprAt_append {d : Nat} {ts : List Token} {e : Expr} (h : Derives d ts e) :
    ∀ rest, readExprAt d (ts ++ rest) = ⟨.ok e, rest⟩ := by
  induction h with
  | @atom d w hd =>
    intro rest
    have hroom : room d = maxDepth - d + 1 := by rw [room_natCast]; omega
    rw [readExprAt, hroom]
    rfl
  | @list d op parts hd hne hparts ih =>
    intro rest
    have hroom : room d = room (d + 1 : Nat) + 1 := by rw [room_natCast, room_natCast]; omega
    have hstart : ∀ p ∈ parts, ∃ t ts, p.1 = t :: ts ∧ t ≠ .rparen :=
      fun p hp => (hparts p hp).exists_cons
    have hfuel := length_le_length_flatMap hstart
    have hread := @readOperands_complete (readExpr (room (d + 1 : Nat))) rest parts
      (parts.flatMap Prod.fst ++ .rparen :: rest).length
      (by rw [List.length_append]; omega) ih hstart
    obtain ⟨p, parts', rfl⟩ := List.exists_cons_of_ne_nil hne
    have hshape : .lparen :: .word op.keyword :: (p :: parts').flatMap Prod.fst ++ [.rparen] ++ rest
        = .lparen :: .word op.keyword :: ((p :: parts').flatMap Prod.fst ++ .rparen :: rest) := by
      simp
    rw [readExprAt, hroom, hshape, readExpr, readList]
    simp only [Token.text, Operator.ofKeyword?_keyword, hread, List.map_cons]

end Derives

/-! ## Readings are derivations -/

theorem Token.eq_word_of_ofKeyword? {t : Token} {op : Operator}
    (h : Operator.ofKeyword? t.text = some op) : t = .word op.keyword := by
  cases t with
  | lparen | rparen => exact absurd h (by simp [text, Operator.ofKeyword?])
  | word w => rw [Operator.keyword_of_ofKeyword? h, text]

/-- A list that was read has an operator in front, and operands. -/
theorem readList_eq_ok {one : List Token → Reading Expr} {ts rest : List Token} {e : Expr}
    (h : readList one ts = ⟨.ok e, rest⟩) :
    ∃ op es tail, ts = .word op.keyword :: tail ∧ e = .list op es ∧ es ≠ [] ∧
      readOperands one tail.length tail = ⟨.ok es, rest⟩ := by
  unfold readList at h
  split at h
  · cases h
  · next head tail =>
    split at h
    · cases h
    · next op hop =>
      split at h
      · cases h
      · cases h
      · next es rest' hne hes =>
        cases h
        refine ⟨op, es, tail, by rw [Token.eq_word_of_ofKeyword? hop], rfl, ?_, hes⟩
        exact fun hnil => hne hnil

/-- What the reader returns is derived by the tokens it took. -/
theorem readExpr_sound (r : Nat) :
    ∀ (d : Nat), r + d = maxDepth + 1 → ∀ (ts : List Token) (e : Expr) (rest : List Token),
      readExpr r ts = ⟨.ok e, rest⟩ → ∃ p, ts = p ++ rest ∧ Derives d p e := by
  induction r with
  | zero => intro d _ ts e rest h; cases h
  | succ r ih =>
    -- The room and the depth make up the bound together, so one level down both move by one.
    intro d hd ts e rest h
    cases ts with
    | nil => cases h
    | cons t ts =>
      cases t with
      | rparen => cases h
      | word w =>
        cases h
        exact ⟨[.word w], rfl, .atom w (by omega)⟩
      | lparen =>
        rw [readExpr] at h
        obtain ⟨op, es, tail, rfl, rfl, hne, hes⟩ := readList_eq_ok h
        obtain ⟨parts, htail, rfl, hparts⟩ :=
          readOperands_sound (ih (d + 1) (by omega)) tail.length tail es rest hes
        refine ⟨.lparen :: .word op.keyword :: parts.flatMap Prod.fst ++ [.rparen], ?_, ?_⟩
        · rw [htail]
          simp
        · exact .list op parts (by omega) (fun hnil => hne (by rw [hnil, List.map_nil])) hparts

theorem readExprAt_eq_ok_iff {d : Nat} {ts rest : List Token} {e : Expr} :
    readExprAt d ts = ⟨.ok e, rest⟩ ↔ ∃ p, ts = p ++ rest ∧ Derives d p e := by
  constructor
  · intro h
    by_cases hd : d ≤ maxDepth
    · refine readExpr_sound (room d) d ?_ ts e rest h
      rw [room_natCast]
      omega
    · -- Past the bound there is no room, and no reading.
      have hroom : room d = 0 := by rw [room_natCast]; omega
      rw [readExprAt, hroom] at h
      cases h
  · rintro ⟨p, rfl, hp⟩
    exact hp.readExprAt_append rest

/-- A line is read if all its tokens together derive a tree. -/
theorem parse_true_eq_ok_iff {line : String} {e : Expr} :
    parse true line = .ok e ↔ Derives 0 (tokenize line) e := by
  have hread :
      readExprAt (0 : Nat) (tokenize line) = ⟨.ok e, []⟩ ↔ Derives 0 (tokenize line) e := by
    rw [readExprAt_eq_ok_iff]
    simp
  rw [← hread, parse, parseTokens]
  show _ ↔ readExprAt 0 (tokenize line) = ⟨.ok e, []⟩
  rcases readExprAt 0 (tokenize line) with ⟨err | e', rest⟩
  · simp
  · cases rest with
    | nil => simp
    | cons t rest => simp

/-- **No row that derives a tree begins another one**, whatever the depth they are read at, and no
row derives two trees. -/
theorem Derives.eq_of_prefix {d d' : Nat} {ts p q : List Token} {e e' : Expr}
    (hp : Derives d p e) (hq : Derives d' q e') (hpts : p <+: ts) (hqts : q <+: ts) :
    p = q ∧ e = e' := by
  obtain ⟨r, rfl⟩ := hpts
  obtain ⟨r', hr'⟩ := hqts
  -- The reader, sent over the row from no depth at all, finds both.
  have hreadp := (hp.of_le (Nat.zero_le d)).readExprAt_append r
  have hreadq := (hq.of_le (Nat.zero_le d')).readExprAt_append r'
  rw [hr', hreadp] at hreadq
  injection hreadq with he hr
  injection he with he
  rw [hr] at hr'
  exact ⟨(List.append_cancel_right hr').symm, he⟩

/-! ## Height -/

/-- A tree that words can spell: its atoms are what words stand for, and its lists have operands. -/
inductive Expr.Spelled : Expr → Prop where
  | atom (w : String) : Spelled (.atom (Value.ofWord w))
  | list (op : Operator) {es : List Expr} (hne : es ≠ []) (hes : ∀ e ∈ es, Spelled e) :
      Spelled (.list op es)

theorem Expr.heights_le_iff {es : List Expr} {n : Nat} :
    heights es ≤ n ↔ ∀ e ∈ es, e.height ≤ n := by
  induction es with
  | nil => simp [heights]
  | cons e es ih =>
    rw [heights, Nat.max_le, ih]
    simp

namespace Derives

theorem spelled {d : Nat} {ts : List Token} {e : Expr} (h : Derives d ts e) : e.Spelled := by
  induction h with
  | atom w => exact .atom w
  | list op parts _ hne _ ih =>
    refine .list op (fun hnil => hne (List.map_eq_nil_iff.mp hnil)) ?_
    intro e he
    obtain ⟨p, hp, rfl⟩ := List.mem_map.mp he
    exact ih p hp

theorem height_add_le {d : Nat} {ts : List Token} {e : Expr} (h : Derives d ts e) :
    e.height + d ≤ maxDepth := by
  induction h with
  | atom w hd => rwa [Expr.height, Nat.zero_add]
  | @list d op parts hd hne hparts ih =>
    -- One operand is enough to see that the list itself fits, the others bound the height.
    obtain ⟨p, parts', rfl⟩ := List.exists_cons_of_ne_nil hne
    have hfirst := ih p List.mem_cons_self
    have hall : Expr.heights ((p :: parts').map Prod.snd) ≤ maxDepth - (d + 1) := by
      rw [Expr.heights_le_iff]
      intro e he
      obtain ⟨q, hq, rfl⟩ := List.mem_map.mp he
      have := ih q hq
      omega
    rw [Expr.height]
    omega

end Derives

/-- A tree that words can spell is derived by some row of tokens, wherever its height fits. -/
theorem Expr.Spelled.exists_derives {e : Expr} (h : e.Spelled) :
    ∀ (d : Nat), e.height + d ≤ maxDepth → ∃ ts, Derives d ts e := by
  induction h with
  | atom w =>
    intro d hd
    rw [height, Nat.zero_add] at hd
    exact ⟨[.word w], .atom w hd⟩
  | @list op es hne hes ih =>
    intro d hd
    rw [height] at hd
    have hfit : ∀ e ∈ es, e.height ≤ maxDepth - (d + 1) := heights_le_iff.mp (by omega)
    have hone : ∀ e ∈ es, ∃ ts, Derives (d + 1) ts e := by
      intro e he
      have := hfit e he
      exact ih e he (d + 1) (by omega)
    obtain ⟨parts, rfl, hparts⟩ := exists_pairs es hone
    exact ⟨_, .list op parts (by omega) (fun hnil => hne (by rw [hnil, List.map_nil])) hparts⟩

theorem exists_readExprAt_iff {d : Nat} {e : Expr} :
    (∃ ts rest, readExprAt d ts = ⟨.ok e, rest⟩) ↔ e.Spelled ∧ e.height + d ≤ maxDepth := by
  constructor
  · rintro ⟨ts, rest, h⟩
    obtain ⟨p, _, hp⟩ := readExprAt_eq_ok_iff.mp h
    exact ⟨hp.spelled, hp.height_add_le⟩
  · rintro ⟨hspelled, hheight⟩
    obtain ⟨p, hp⟩ := hspelled.exists_derives d hheight
    exact ⟨p ++ [], [], hp.readExprAt_append []⟩

/-! ## The statement as a whole -/

/-- **The reader accepts the grammar and takes one derivation.** At any depth a reading succeeds
exactly on the rows that begin with a derivation, and leaves what is behind it; a row begins with at
most one derivation of at most one tree; and depth and height together decide what can be read. -/
theorem readExprAt_exact (d : Nat) :
    (∀ ts rest e, readExprAt d ts = ⟨.ok e, rest⟩ ↔ ∃ p, ts = p ++ rest ∧ Derives d p e) ∧
    (∀ d' ts p q e e', Derives d p e → Derives d' q e' → p <+: ts → q <+: ts →
      p = q ∧ e = e') ∧
    (∀ e, (∃ ts rest, readExprAt d ts = ⟨.ok e, rest⟩) ↔
      e.Spelled ∧ e.height + d ≤ maxDepth) := by
  refine ⟨fun _ _ _ => readExprAt_eq_ok_iff, ?_, fun _ => exists_readExprAt_iff⟩
  intro d' ts p q e e' hp hq hpts hqts
  exact hp.eq_of_prefix hq hpts hqts

/-- The tokens of `(- y)` and a closing paren behind them. The tree is read inside up to 255 lists, where
there is room for its operand, and inside no more; and nothing else that the tokens begin with derives a
tree. -/
theorem readExprAt_exact_negation :
    let ts : List Token := [.lparen, .word "-", .word "y", .rparen]
    let e : Expr := .list (.arith .sub) [.atom (.ref "y")]
    Derives 255 ts e ∧ Derives 0 ts e ∧ ts <+: ts ++ [.rparen] ∧
      readExprAt 255 (ts ++ [.rparen]) = ⟨.ok e, [.rparen]⟩ ∧
      (∀ d q f, Derives d q f → q <+: ts ++ [.rparen] → ts = q ∧ e = f) ∧
      (∃ us rest, readExprAt 255 us = ⟨.ok e, rest⟩) ∧
      ¬∃ us rest, readExprAt 256 us = ⟨.ok e, rest⟩ := by
  intro ts e
  have hderives : ∀ d : Nat, d + 1 ≤ maxDepth → Derives d ts e := by
    intro d hd
    refine .list (.arith .sub) [([.word "y"], .atom (.ref "y"))] (by omega) (by simp) ?_
    intro p hp
    rw [List.mem_singleton.mp hp]
    exact .atom "y" hd
  have hdeep := hderives 255 (by decide)
  have houter := hderives 0 (by decide)
  have hprefix : ts <+: ts ++ [.rparen] := List.prefix_append ts [.rparen]
  obtain ⟨hreads, hunique, hfits⟩ := readExprAt_exact 255
  have hread := (hreads (ts ++ [.rparen]) [.rparen] e).mpr ⟨ts, rfl, hdeep⟩
  refine ⟨hdeep, houter, hprefix, hread, ?_, ?_, ?_⟩
  · intro d q f hq hqprefix
    exact hunique d (ts ++ [.rparen]) ts q e f hdeep hq hprefix hqprefix
  · exact (hfits e).mpr ⟨hdeep.spelled, by decide⟩
  · intro hdeeper
    exact absurd (((readExprAt_exact 256).2.2 e).mp hdeeper).2 (by decide)

end PrefixArith
