import PrefixArith.Proofs.Grammar

/-!
# Where a reading stops

A failed reading has taken part of the tokens, from the middle of lists that nobody is going to close,
and whoever goes on reading begins at the tokens it left. What these are can be told from the error:

> `ParseError.StopsAt`: what the last tokens taken are, and what the next one is.
> `positioned_readExpr`: every failure inside a list stops as its error says.

An operand that was read is balanced, so at the depth limit the tokens taken leave just as many lists
open as there was room for. And as every reading takes a token if it has room and there is one, going
on after errors ends with no tokens left (`readExprAt_position`).
-/

namespace PrefixArith

/-- A reading with room for `levels` levels fails with this error having taken `taken`, and stops in
front of `rest`. -/
def ParseError.StopsAt (levels : Int) : ParseError → (taken rest : List Token) → Prop
  | .unexpectedEnd, _, rest => rest = []
  | .unexpectedParen, taken, _ => taken = [.rparen]
  | .unknownOperator head, taken, rest => [.lparen] <:+ taken ∧ rest.head? = some head
  | .emptyList head, taken, _ => [head, .rparen] <:+ taken
  | .tooDeep, taken, rest =>
    balance taken = levels ∧ ∃ t tail, rest = t :: tail ∧ t ≠ .rparen
  | .trailingTokens _, _, _ => False

/-- What stands in front of a list changes nothing but the number of lists that are open. -/
theorem ParseError.StopsAt.append {levels : Int} {err : ParseError} {taken rest : List Token}
    (h : err.StopsAt levels taken rest) (hparen : err ≠ .unexpectedParen) (front : List Token) :
    err.StopsAt (balance front + levels) (front ++ taken) rest := by
  cases err with
  | unexpectedEnd => exact h
  | unexpectedParen => exact absurd rfl hparen
  | unknownOperator head => exact ⟨h.1.trans (List.suffix_append front taken), h.2⟩
  | emptyList head => exact List.IsSuffix.trans h (List.suffix_append front taken)
  | tooDeep => exact ⟨by rw [balance_append, h.1], h.2⟩
  | trailingTokens first => exact h

/-- The tokens `ts` are read up to `rest`, where `err` stops a reading inside a list. -/
def Stopped (levels : Int) (err : ParseError) (ts rest : List Token) : Prop :=
  err ≠ .unexpectedParen ∧ ∃ taken, ts = taken ++ rest ∧ err.StopsAt levels taken rest

theorem Stopped.append {levels : Int} {err : ParseError} {ts rest : List Token}
    (h : Stopped levels err ts rest) (front : List Token) :
    Stopped (balance front + levels) err (front ++ ts) rest := by
  obtain ⟨hparen, taken, rfl, hstops⟩ := h
  exact ⟨hparen, front ++ taken, by rw [List.append_assoc], hstops.append hparen front⟩

/-- The reader `one` takes balanced tokens when it succeeds, and where an operand may begin it stops
as its error says when it fails. -/
structure Positioned (levels : Int) (one : List Token → Reading Expr) : Prop where
  ok : ∀ ts e rest, one ts = ⟨.ok e, rest⟩ →
    ∃ taken, ts = taken ++ rest ∧ taken ≠ [] ∧ balance taken = 0
  error : ∀ t ts err rest, t ≠ .rparen → one (t :: ts) = ⟨.error err, rest⟩ →
    Stopped levels err (t :: ts) rest

namespace Positioned

variable {levels : Int} {one : List Token → Reading Expr}

/-- Operands that were read are balanced parts in front of the closing paren. -/
theorem exists_parts (h : Positioned levels one) {fuel : Nat} {ts rest : List Token}
    {es : List Expr} (hread : readOperands one fuel ts = ⟨.ok es, rest⟩) :
    ∃ parts : List (List Token × Expr), ts = parts.flatMap Prod.fst ++ .rparen :: rest ∧
      es = parts.map Prod.snd ∧ ∀ p ∈ parts, balance p.1 = 0 := by
  have hone : ∀ ts e rest, one ts = ⟨.ok e, rest⟩ → ∃ p, ts = p ++ rest ∧ balance p = 0 := by
    intro ts e rest hread
    obtain ⟨taken, hts, -, hbalance⟩ := h.ok ts e rest hread
    exact ⟨taken, hts, hbalance⟩
  exact readOperands_sound hone fuel ts es rest hread

theorem stopped_readOperands (h : Positioned levels one) (fuel : Nat) (ts : List Token) :
    ts.length ≤ fuel → ∀ err rest, readOperands one fuel ts = ⟨.error err, rest⟩ →
      Stopped levels err ts rest := by
  fun_induction readOperands one fuel ts with
  | case1 =>
    intro _ err rest heq
    cases heq
    exact ⟨by simp, [], rfl, rfl⟩
  | case2 => intro _ err rest heq; cases heq
  | case3 ts hne =>
    -- The fuel lasts as long as there are tokens.
    intro hlen
    exact absurd (List.length_eq_zero_iff.mp (Nat.le_zero.mp hlen)) hne
  | case4 fuel ts hne hparen err mid hone =>
    intro _ err' rest heq
    cases heq
    obtain ⟨t, ts, rfl⟩ := List.exists_cons_of_ne_nil hne
    exact h.error t ts err mid (fun ht => hparen ts (by rw [ht])) hone
  | case5 fuel ts hne hparen e mid hone err mid' hrest ih =>
    intro hlen err' rest heq
    cases heq
    obtain ⟨operand, rfl, hoperand, hbalance⟩ := h.ok _ e mid hone
    have hpos := List.length_pos_iff.mpr hoperand
    rw [List.length_append] at hlen
    have hstop := (ih (by omega) err mid' hrest).append operand
    rwa [hbalance, Int.zero_add] at hstop
  | case6 => intro _ err rest heq; cases heq

/-- The paren in front of a list makes for one more list that is open. -/
theorem stopped_readList (h : Positioned levels one) {ts rest : List Token} {err : ParseError}
    (hread : readList one ts = ⟨.error err, rest⟩) :
    Stopped (levels + 1) err (.lparen :: ts) rest := by
  unfold readList at hread
  split at hread
  · cases hread
    exact ⟨by simp, [.lparen], rfl, rfl⟩
  · next head ts =>
    split at hread
    · cases hread
      exact ⟨by simp, [.lparen], rfl, List.suffix_refl _, rfl⟩
    · next op hop =>
      obtain rfl := Token.eq_word_of_ofKeyword? hop
      split at hread
      · next err rest hoperands =>
        cases hread
        have hstop := h.stopped_readOperands ts.length ts (Nat.le_refl _) err rest hoperands
        have hlist := hstop.append [.lparen, .word op.keyword]
        rwa [Int.add_comm] at hlist
      · next rest hoperands =>
        cases hread
        -- Nothing was read between the operator and the closing paren.
        obtain ⟨parts, rfl, hnil, -⟩ := h.exists_parts hoperands
        obtain rfl := List.map_eq_nil_iff.mp hnil.symm
        exact ⟨by simp, [.lparen, .word op.keyword, .rparen], rfl, List.suffix_cons ..⟩
      · cases hread

end Positioned

theorem positioned_readExpr (r : Nat) : Positioned r (readExpr r) := by
  induction r with
  | zero =>
    constructor
    · intro ts e rest hread
      cases hread
    · intro t ts err rest ht hread
      cases hread
      exact ⟨by simp, [], rfl, rfl, t, ts, rfl, ht⟩
  | succ r ih =>
    constructor
    · intro ts e rest hread
      cases ts with
      | nil => cases hread
      | cons t ts =>
        cases t with
        | rparen => cases hread
        | word w =>
          cases hread
          exact ⟨[.word w], rfl, by simp, rfl⟩
        | lparen =>
          rw [readExpr] at hread
          obtain ⟨op, es, tail, rfl, -, -, hes⟩ := readList_eq_ok hread
          obtain ⟨parts, rfl, -, hparts⟩ := ih.exists_parts hes
          refine ⟨.lparen :: .word op.keyword :: parts.flatMap Prod.fst ++ [.rparen], by simp,
            by simp, ?_⟩
          simp [balance_flatMap hparts]
    · intro t ts err rest ht hread
      cases t with
      | rparen => exact absurd rfl ht
      | word w => cases hread
      | lparen => exact ih.stopped_readList hread

/-! ## Readings at a depth -/

theorem room_of_le {d : Int} (h : d ≤ maxDepth) :
    ∃ r : Nat, room d = r + 1 ∧ (r : Int) + 1 = maxDepth + 1 - d := by
  refine ⟨room d - 1, ?_, ?_⟩
  · unfold room
    omega
  · unfold room
    omega

theorem room_of_lt {d : Int} (h : maxDepth < d) : room d = 0 := by
  unfold room
  omega

theorem readExprAt_nil {d : Int} (h : d ≤ maxDepth) :
    readExprAt d [] = ⟨.error .unexpectedEnd, []⟩ := by
  obtain ⟨r, hr, -⟩ := room_of_le h
  rw [readExprAt, hr]
  rfl

/-- A failed reading stops as its error says, where a depth leaves room for the levels up to the
limit. -/
theorem exists_stopsAt {d : Int} (h : d ≤ maxDepth) {ts rest : List Token} {err : ParseError}
    (hread : readExprAt d ts = ⟨.error err, rest⟩) :
    ∃ taken, ts = taken ++ rest ∧ err.StopsAt (maxDepth + 1 - d) taken rest := by
  obtain ⟨r, hr, hlevels⟩ := room_of_le h
  rw [readExprAt, hr] at hread
  cases ts with
  | nil =>
    cases hread
    exact ⟨[], rfl, rfl⟩
  | cons t ts =>
    by_cases ht : t = .rparen
    · -- Only in front of the first token can a reading find a closing paren in its way.
      subst ht
      cases hread
      exact ⟨[.rparen], rfl, rfl⟩
    · obtain ⟨-, hstop⟩ := (positioned_readExpr (r + 1)).error t ts err rest ht hread
      rwa [Int.natCast_succ, hlevels] at hstop

theorem length_rest_readExprAt {d : Int} (h : d ≤ maxDepth) (t : Token) (ts : List Token) :
    (readExprAt d (t :: ts)).rest.length ≤ ts.length := by
  obtain ⟨r, hr, -⟩ := room_of_le h
  rw [readExprAt, hr]
  exact length_rest_readExpr r t ts

/-! ## Going on after errors -/

/-- The tokens left after `n` readings inside `d` lists, each of what the one before it left, whether
or not that one failed. -/
def restAfter (d : Int) : (n : Nat) → List Token → List Token
  | 0, ts => ts
  | n + 1, ts => restAfter d n (readExprAt d ts).rest

theorem restAfter_nil {d : Int} (h : d ≤ maxDepth) (n : Nat) : restAfter d n [] = [] := by
  induction n with
  | zero => rfl
  | succ n ih => rw [restAfter, readExprAt_nil h, ih]

theorem restAfter_add (d : Int) (n m : Nat) (ts : List Token) :
    restAfter d (n + m) ts = restAfter d m (restAfter d n ts) := by
  induction n generalizing ts with
  | zero => rw [Nat.zero_add, restAfter]
  | succ n ih => rw [Nat.succ_add, restAfter, restAfter, ih]

/-- Every reading takes a token, as long as there are any. -/
theorem restAfter_eq_nil {d : Int} (h : d ≤ maxDepth) {n : Nat} {ts : List Token}
    (hlen : ts.length ≤ n) : restAfter d n ts = [] := by
  induction n generalizing ts with
  | zero => exact List.length_eq_zero_iff.mp (Nat.le_zero.mp hlen)
  | succ n ih =>
    cases ts with
    | nil => exact restAfter_nil h (n + 1)
    | cons t ts =>
      have hrest := length_rest_readExprAt h t ts
      rw [List.length_cons] at hlen
      exact ih (by omega)

/-! ## The statement as a whole -/

/-- **Where a reading stops, and that it gets on.** Past the depth limit nothing is looked at. Otherwise
a reading takes tokens from the front, at least one if there is any, and if it fails, what it took and
what it left are as its error says. So readings one after another, going on after errors, leave nothing
after at most as many readings as there were tokens, and from then on find nothing to read. -/
theorem readExprAt_position (d : Int) (ts : List Token) :
    (maxDepth < d → readExprAt d ts = ⟨.error .tooDeep, ts⟩) ∧
    (d ≤ maxDepth →
      (∃ taken, ts = taken ++ (readExprAt d ts).rest ∧ (ts ≠ [] → taken ≠ []) ∧
        ∀ err, (readExprAt d ts).outcome = .error err →
          err.StopsAt (maxDepth + 1 - d) taken (readExprAt d ts).rest) ∧
      restAfter d ts.length ts = [] ∧
      ∀ n, restAfter d n ts = [] → ∀ m, n ≤ m →
        readExprAt d (restAfter d m ts) = ⟨.error .unexpectedEnd, []⟩) := by
  refine ⟨fun h => by rw [readExprAt, room_of_lt h]; rfl, fun h => ⟨?_, ?_, ?_⟩⟩
  · obtain ⟨taken, htaken⟩ := rest_suffix_readExpr (room d) ts
    refine ⟨taken, htaken.symm, ?_, ?_⟩
    · rintro hne rfl
      obtain ⟨t, tail, rfl⟩ := List.exists_cons_of_ne_nil hne
      have hlen := length_rest_readExprAt h t tail
      rw [readExprAt, ← List.nil_append (readExpr _ _).rest, htaken, List.length_cons] at hlen
      omega
    · intro err herr
      have hread : readExprAt d ts = ⟨.error err, (readExprAt d ts).rest⟩ := by rw [← herr]
      obtain ⟨taken', hts, hstops⟩ := exists_stopsAt h hread
      obtain rfl : taken = taken' := List.append_cancel_right (htaken.trans hts)
      exact hstops
  · exact restAfter_eq_nil h (Nat.le_refl _)
  · intro n hn m hm
    obtain ⟨k, rfl⟩ := Nat.exists_eq_add_of_le hm
    rw [restAfter_add, hn, restAfter_nil h, readExprAt_nil h]

/-- The tokens of `(+ 1 (- (* x)))`, read where there is room for two levels: the reading stops in front
of `(* x)`, which the next one reads, and the closing paren behind it is what the third one fails at. -/
theorem readExprAt_position_two_levels :
    let front : List Token := [.lparen, .word "+", .word "1", .lparen, .word "-"]
    let rest : List Token := [.lparen, .word "*", .word "x", .rparen, .rparen]
    readExprAt 257 (front ++ rest) = ⟨.error .tooDeep, front ++ rest⟩ ∧
      readExprAt 255 (front ++ rest) = ⟨.error .tooDeep, rest⟩ ∧
      ParseError.tooDeep.StopsAt 2 front rest ∧
      restAfter 255 10 (front ++ rest) = [] ∧ restAfter 255 3 (front ++ rest) = [] ∧
      readExprAt 255 (restAfter 255 7 (front ++ rest)) = ⟨.error .unexpectedEnd, []⟩ := by
  intro front rest
  have hread : readExprAt 255 (front ++ rest) = ⟨.error .tooDeep, rest⟩ := rfl
  have hthree : restAfter 255 3 (front ++ rest) = [] := rfl
  obtain ⟨⟨taken, htaken, -, hstops⟩, hempty, hend⟩ :=
    (readExprAt_position 255 (front ++ rest)).2 (by decide)
  rw [hread] at htaken hstops
  obtain rfl : front = taken := List.append_cancel_right htaken
  exact ⟨(readExprAt_position 257 (front ++ rest)).1 (by decide), hread, hstops .tooDeep rfl, hempty,
    hthree, hend 3 hthree 7 (by decide)⟩

end PrefixArith
