import PrefixArith.Proofs.Layout
import PrefixArith.Proofs.Scan

/-!
# Readings with more tokens behind

A reader of lines as they come in has to know whether a line is wrong or only not at its end. The
outcome of a reading tells: if it did not run out of tokens, more of them make no difference, and if it
did, they may. The first half is a property of readers, carried from the reader of operands to that of
the list around them:

> `settles_readExpr`: a reading that did not run out of tokens goes the same way with more behind.

For the second half the one-pass scan is the better reader, as its state is all there is to complete:

> `completable_scanList`: inside a list that has begun, an operand and closing parens are missing,
> unless it lies too deep for an operand.
> `completable_scan_append`: so tokens that end too early can be completed if they leave at most
> `maxDepth` lists open.
-/

namespace PrefixArith

/-! ## Readings that do not run out of tokens -/

/-- The reading with the tokens `us` behind those that it leaves. -/
def Reading.followedBy {α : Type} (r : Reading α) (us : List Token) : Reading α :=
  ⟨r.outcome, r.rest ++ us⟩

/-- Unless it runs out of tokens, `one` goes the same way whatever stands behind the tokens. -/
def Settles (one : List Token → Reading Expr) : Prop :=
  ∀ ts us, (one ts).outcome ≠ .error .unexpectedEnd → one (ts ++ us) = (one ts).followedBy us

namespace Settles

variable {one : List Token → Reading Expr}

/-- More tokens come with more fuel, none of which is used. -/
theorem readOperands_append (h : Settles one) (us : List Token) (fuel : Nat) (ts : List Token) :
    ∀ fuel', fuel ≤ fuel' → (readOperands one fuel ts).outcome ≠ .error .unexpectedEnd →
      readOperands one fuel' (ts ++ us) = (readOperands one fuel ts).followedBy us := by
  fun_induction readOperands one fuel ts with
  | case1 => intro _ _ hne; exact absurd rfl hne
  | case2 fuel ts =>
    intro fuel' _ _
    rw [List.cons_append, readOperands]
    rfl
  | case3 => intro _ _ hne; exact absurd rfl hne
  | case4 fuel ts hne hparen err mid hone =>
    intro fuel' hle houtcome
    obtain ⟨fuel', rfl⟩ : ∃ n, fuel' = n + 1 := Nat.exists_eq_add_one.mpr (by omega)
    obtain ⟨t, ts, rfl⟩ := List.exists_cons_of_ne_nil hne
    have hmore := h (t :: ts) us (by rw [hone]; simpa using houtcome)
    rw [List.cons_append] at hmore ⊢
    rw [readOperands_succ one fuel' _ (fun ht => hparen ts (by rw [ht])), hmore, hone]
    rfl
  | case5 fuel ts hne hparen e mid hone err mid' hrest ih
  | case6 fuel ts hne hparen e mid hone es mid' hrest ih =>
    intro fuel' hle houtcome
    obtain ⟨fuel', rfl⟩ : ∃ n, fuel' = n + 1 := Nat.exists_eq_add_one.mpr (by omega)
    obtain ⟨t, ts, rfl⟩ := List.exists_cons_of_ne_nil hne
    have hmore := h (t :: ts) us (by rw [hone]; simp)
    have hothers := ih fuel' (by omega) (by simp_all)
    rw [List.cons_append] at hmore ⊢
    rw [readOperands_succ one fuel' _ (fun ht => hparen ts (by rw [ht])), hmore, hone]
    dsimp only [Reading.followedBy]
    rw [hothers, hrest]
    rfl

theorem readList_append (h : Settles one) (ts us : List Token)
    (houtcome : (readList one ts).outcome ≠ .error .unexpectedEnd) :
    readList one (ts ++ us) = (readList one ts).followedBy us := by
  cases ts with
  | nil => exact absurd rfl houtcome
  | cons head ts =>
    rw [readList] at houtcome
    rw [List.cons_append, readList, readList]
    cases hop : Operator.ofKeyword? head.text with
    | none => rfl
    | some op =>
      rw [hop] at houtcome
      have hoperands := h.readOperands_append us ts.length ts (ts ++ us).length (by simp)
      rcases hread : readOperands one ts.length ts with ⟨err | es, rest⟩
      · rw [hread] at hoperands houtcome
        dsimp only
        rw [hoperands (by simpa using houtcome)]
        rfl
      · rw [hread] at hoperands
        dsimp only
        rw [hoperands (by simp)]
        cases es with
        | nil => rfl
        | cons e es => rfl

end Settles

theorem settles_readExpr (r : Nat) : Settles (readExpr r) := by
  induction r with
  | zero => intro ts us _; rfl
  | succ r ih =>
    intro ts us houtcome
    cases ts with
    | nil => exact absurd rfl houtcome
    | cons t ts =>
      cases t with
      | rparen => rfl
      | word w => rfl
      | lparen => exact ih.readList_append ts us houtcome

/-! ## Completions -/

/-- Tokens of a line can follow with which the scan `s` comes to an end and leaves nothing. -/
def Completable (s : List Token → Except ParseError (List Token)) : Prop :=
  ∃ us, (∀ u ∈ us, u.Legal) ∧ s us = .ok []

theorem scanList_replicate (n : Nat) (previous : Token) :
    scanList (n + 1) true previous (List.replicate (n + 1) .rparen) = .ok [] := by
  induction n generalizing previous with
  | zero => rfl
  | succ n ih =>
    rw [List.replicate_succ, scanList, if_neg (by simp), if_neg (by omega), Nat.add_sub_cancel]
    exact ih .rparen

/-- Past the depth limit a list cannot have an operand, and without one it cannot be closed. -/
theorem scanList_ne_ok {depth : Nat} (hdeep : maxDepth < depth) (previous : Token)
    (us rest : List Token) : scanList depth false previous us ≠ .ok rest := by
  intro h
  cases us with
  | nil => cases h
  | cons u us =>
    cases u with
    | rparen => cases h
    | word w =>
      rw [scanList, if_pos hdeep] at h
      cases h
    | lparen =>
      cases us with
      | nil =>
        rw [scanList, if_pos hdeep] at h
        cases h
      | cons head us =>
        rw [scanList, if_pos hdeep] at h
        cases h

/-- A list that is open, with all its operands in place, can be completed. -/
theorem completable_scanList {depth : Nat} {operand : Bool} (previous : Token) (hpos : 1 ≤ depth)
    (hoperand : operand = true → depth ≤ maxDepth) :
    Completable (scanList depth operand previous) ↔ depth ≤ maxDepth := by
  constructor
  · rintro ⟨us, -, hus⟩
    cases operand with
    | true => exact hoperand rfl
    | false => exact Nat.not_lt.mp fun hdeep => scanList_ne_ok hdeep previous us [] hus
  · -- A number is an operand, and behind it there may be closing parens only.
    intro hd
    obtain ⟨n, rfl⟩ := Nat.exists_eq_add_one.mpr hpos
    refine ⟨.word "0" :: List.replicate (n + 1) .rparen, ?_, ?_⟩
    · intro u hu
      rcases List.mem_cons.mp hu with rfl | hu
      · decide
      · rw [List.eq_of_mem_replicate hu]
        trivial
    · rw [scanList, if_neg (by omega), scanList_replicate]

/-- Behind an opening paren an operator has to follow, and then a list one level further in. -/
theorem completable_lparen (s : List Token → Except ParseError (List Token)) (depth : Nat)
    (hnil : s [] ≠ .ok [])
    (hcons : ∀ head us, s (head :: us) =
      if (Operator.ofKeyword? head.text).isNone then .error (.unknownOperator head)
      else scanList (depth + 1) false head us) :
    Completable s ↔ depth + 1 ≤ maxDepth := by
  constructor
  · rintro ⟨us, hlegal, hus⟩
    cases us with
    | nil => exact absurd hus hnil
    | cons head us =>
      rw [hcons] at hus
      split at hus
      · cases hus
      · have hlist : Completable (scanList (depth + 1) false head) :=
          ⟨us, (List.forall_mem_cons.mp hlegal).2, hus⟩
        exact (completable_scanList head (Nat.succ_pos depth) (by simp)).mp hlist
  · intro hd
    have hlist : Completable (scanList (depth + 1) false (.word "+")) :=
      (completable_scanList (.word "+") (Nat.succ_pos depth) (by simp)).mpr hd
    obtain ⟨us, hlegal, hus⟩ := hlist
    refine ⟨.word "+" :: us, List.forall_mem_cons.mpr ⟨by decide, hlegal⟩, ?_⟩
    rw [hcons, if_neg (by decide), hus]

theorem completable_congr {s s' : List Token → Except ParseError (List Token)}
    (h : ∀ us, s us = s' us) : Completable s ↔ Completable s' := by
  rw [funext h]

/-- An operator is no paren, so a list that begins is one list more. -/
theorem balance_lparen_operator {head : Token} (h : ¬(Operator.ofKeyword? head.text).isNone)
    (ts : List Token) : balance (.lparen :: head :: ts) = balance ts + 1 := by
  obtain ⟨op, hop⟩ := Option.ne_none_iff_exists'.mp (by simpa using h)
  rw [Token.eq_word_of_ofKeyword? hop, balance_lparen, balance_word]

/-- Whether a list that breaks off can be completed shows from the number of lists left open. -/
theorem completable_scanList_append (depth : Nat) (operand : Bool) (previous : Token)
    (ts : List Token) :
    1 ≤ depth → (operand = true → depth ≤ maxDepth) →
      scanList depth operand previous ts = .error .unexpectedEnd →
        (Completable (fun us => scanList depth operand previous (ts ++ us)) ↔
          depth + balance ts ≤ maxDepth) := by
  fun_induction scanList depth operand previous ts with
  | case1 depth operand previous =>
    intro hpos hlimit _
    rw [balance_nil, Int.add_zero, Int.ofNat_le]
    exact completable_scanList previous hpos hlimit
  | case2 => intro _ _ h; cases h
  | case3 => intro _ _ h; cases h
  | case4 depth operand previous ts hoperand hdepth ih =>
    intro hpos hlimit h
    have hfits := hlimit (by simpa using hoperand)
    have hrest := ih (by omega) (fun _ => by omega) h
    have hstep : ∀ us, scanList depth operand previous (.rparen :: ts ++ us)
        = scanList (depth - 1) true .rparen (ts ++ us) := by
      intro us
      rw [List.cons_append, scanList, if_neg hoperand, if_neg hdepth]
    rw [completable_congr hstep, hrest, balance_rparen]
    omega
  | case5 => intro _ _ h; cases h
  | case6 operand previous depth w ts hdepth ih =>
    intro hpos _ h
    have hrest := ih hpos (fun _ => Nat.not_lt.mp hdepth) h
    have hstep : ∀ us, scanList depth operand previous (.word w :: ts ++ us)
        = scanList depth true (.word w) (ts ++ us) := by
      intro us
      rw [List.cons_append, scanList, if_neg hdepth]
    rw [completable_congr hstep, hrest, balance_word]
  | case7 => intro _ _ h; cases h
  | case8 operand previous depth hdepth =>
    intro _ _ _
    rw [completable_lparen _ depth, balance_lparen, balance_nil]
    · omega
    · rw [List.append_nil, scanList, if_neg hdepth]
      simp
    · intro head us
      rw [List.singleton_append, scanList, if_neg hdepth]
  | case9 => intro _ _ h; cases h
  | case10 => intro _ _ h; cases h
  | case11 operand previous depth head ts hdepth hhead ih =>
    intro hpos _ h
    have hrest := ih (by omega) (by simp) h
    have hstep : ∀ us, scanList depth operand previous (.lparen :: head :: ts ++ us)
        = scanList (depth + 1) false head (ts ++ us) := by
      intro us
      rw [List.cons_append, List.cons_append, scanList, if_neg hdepth, if_neg hhead]
    rw [completable_congr hstep, hrest, balance_lparen_operator hhead]
    omega

/-- The same of a whole expression: at its start no list is open. -/
theorem completable_scan_append {ts : List Token} (h : scan ts = .error .unexpectedEnd) :
    Completable (fun us => scan (ts ++ us)) ↔ balance ts ≤ maxDepth := by
  revert h
  fun_cases scan ts with
  | case1 =>
    intro _
    have hnumber : Completable scan := ⟨[.word "0"], by simpa using by decide, rfl⟩
    exact iff_of_true hnumber (by decide)
  | case2 => intro h; cases h
  | case3 => intro h; cases h
  | case4 =>
    intro _
    rw [completable_lparen _ 0]
    · decide
    · simp [scan]
    · intro head us
      rw [List.singleton_append, scan]
  | case5 => intro h; cases h
  | case6 head ts hhead =>
    intro h
    have hrest := completable_scanList_append 1 false head ts (Nat.le_refl 1) (by simp) h
    have hstep : ∀ us, scan (.lparen :: head :: ts ++ us) = scanList 1 false head (ts ++ us) := by
      intro us
      rw [List.cons_append, List.cons_append, scan, if_neg hhead]
    rw [completable_congr hstep, hrest, balance_lparen_operator hhead]
    omega

/-- A row of tokens is an expression and nothing else if the scan takes all of it. -/
theorem exists_parseTokens_iff {ts : List Token} :
    (∃ e, parseTokens true ts = .ok e) ↔ scan ts = .ok [] := by
  rw [scan_eq_read, parseTokens]
  rcases readExprAt 0 ts with ⟨err | e, rest⟩
  · simp [Reading.andThen]
  · cases rest with
    | nil => simp [Reading.andThen]
    | cons t rest => simp [Reading.andThen]

theorem scan_eq_error_iff {ts : List Token} {err : ParseError} :
    scan ts = .error err ↔ (readExprAt 0 ts).outcome = .error err := by
  rw [scan_eq_read]
  rcases readExprAt 0 ts with ⟨err' | e, rest⟩
  · simp [Reading.andThen]
  · simp [Reading.andThen]

/-! ## Lists inside one another -/

/-- The tokens of `n` sums, each begun as the first operand of the one before it. -/
def openSums : (n : Nat) → List Token
  | 0 => []
  | n + 1 => .lparen :: .word "+" :: openSums n

theorem balance_openSums (n : Nat) : balance (openSums n) = n := by
  induction n with
  | zero => rfl
  | succ n ih => rw [openSums, balance_lparen, balance_word, ih, Int.natCast_succ]

theorem scanList_openSums (n : Nat) :
    ∀ (depth : Nat) (operand : Bool) (previous : Token), depth + n ≤ maxDepth + 1 →
      scanList depth operand previous (openSums n) = .error .unexpectedEnd := by
  induction n with
  | zero => intro depth operand previous _; rfl
  | succ n ih =>
    intro depth operand previous h
    rw [openSums, scanList, if_neg (by omega), if_neg (by decide)]
    exact ih (depth + 1) false (.word "+") (by omega)

/-! ## The statement as a whole -/

/-- **Only a reading that ran out of tokens can change when more of them follow.** A tree or another
error is final: with more tokens behind, the reading comes to the same and leaves these besides. And
where the tokens ended too early, a line can be continued to one expression and nothing else exactly if
it leaves no more lists open than an expression may lie inside. -/
theorem readExprAt_extend (ts : List Token) :
    (∀ (d : Int) (us : List Token) (e : Expr) (rest : List Token),
      readExprAt d ts = ⟨.ok e, rest⟩ → readExprAt d (ts ++ us) = ⟨.ok e, rest ++ us⟩) ∧
    (∀ (d : Int) (us : List Token) (err : ParseError) (rest : List Token),
      readExprAt d ts = ⟨.error err, rest⟩ → err ≠ .unexpectedEnd →
        readExprAt d (ts ++ us) = ⟨.error err, rest ++ us⟩) ∧
    ((readExprAt 0 ts).outcome = .error .unexpectedEnd →
      ((∃ line e, parseTokens true (ts ++ tokenize line) = .ok e) ↔ balance ts ≤ maxDepth)) := by
  refine ⟨?_, ?_, ?_⟩
  · intro d us e rest h
    have hmore := settles_readExpr (room d) ts us
    rw [← readExprAt, ← readExprAt, h] at hmore
    exact hmore (by simp)
  · intro d us err rest h herr
    have hmore := settles_readExpr (room d) ts us
    rw [← readExprAt, ← readExprAt, h] at hmore
    exact hmore (by simpa using herr)
  · intro h
    rw [← completable_scan_append (scan_eq_error_iff.mpr h)]
    constructor
    · rintro ⟨line, hline⟩
      exact ⟨tokenize line, fun u => legal_of_mem_tokenize, exists_parseTokens_iff.mp hline⟩
    · rintro ⟨us, hlegal, hus⟩
      obtain ⟨line, rfl⟩ := exists_tokenize_eq hlegal
      exact ⟨line, exists_parseTokens_iff.mpr hus⟩

/-- The tokens of `(- y)` and of `(f` are read the same way with more behind them. Of `256` sums that
have begun all can be completed, and one more is too many, though the tokens ended too early there
as well. -/
theorem readExprAt_extend_limit :
    let e : Expr := .list (.arith .sub) [.atom (.ref "y")]
    let negation : List Token := [.lparen, .word "-", .word "y", .rparen]
    readExprAt 255 negation = ⟨.ok e, []⟩ ∧
      readExprAt 255 (negation ++ [.rparen]) = ⟨.ok e, [.rparen]⟩ ∧
      readExprAt 0 [.lparen, .word "f"] = ⟨.error (.unknownOperator (.word "f")), [.word "f"]⟩ ∧
      readExprAt 0 ([.lparen, .word "f"] ++ [.rparen])
        = ⟨.error (.unknownOperator (.word "f")), [.word "f", .rparen]⟩ ∧
      (readExprAt 0 (openSums 256)).outcome = .error .unexpectedEnd ∧
      (∃ line e, parseTokens true (openSums 256 ++ tokenize line) = .ok e) ∧
      (readExprAt 0 (openSums 257)).outcome = .error .unexpectedEnd ∧
      ¬∃ line e, parseTokens true (openSums 257 ++ tokenize line) = .ok e := by
  intro e negation
  have hopen : ∀ n : Nat, n ≤ maxDepth →
      (readExprAt 0 (openSums (n + 1))).outcome = .error .unexpectedEnd := by
    intro n hn
    rw [← scan_eq_error_iff, openSums, scan, if_neg (by decide)]
    exact scanList_openSums n 1 false (.word "+") (by omega)
  have hread : readExprAt 255 negation = ⟨.ok e, []⟩ := rfl
  have hfail : readExprAt 0 [.lparen, .word "f"]
      = ⟨.error (.unknownOperator (.word "f")), [.word "f"]⟩ := rfl
  have hlast := hopen 255 (by decide)
  have hnext := hopen 256 (by decide)
  refine ⟨hread, (readExprAt_extend negation).1 255 [.rparen] e [] hread, hfail,
    (readExprAt_extend _).2.1 0 [.rparen] _ _ hfail (by simp), hlast, ?_, hnext, ?_⟩
  · rw [(readExprAt_extend (openSums 256)).2.2 hlast, balance_openSums]
    decide
  · rw [(readExprAt_extend (openSums 257)).2.2 hnext, balance_openSums]
    decide

end PrefixArith
