import PrefixArith.Proofs.Faultless
import PrefixArith.Proofs.Source

/-!
# The lines of a report

What a report writes is taken apart again by whoever reads it: into lines, and by how these begin. A
line can hold any character and a name almost any, so it has to be shown that nothing in them can be
taken for the end of a line of output, or an answer for an error. An answer is made of words, spaces
and parens, and a message of these and of quoted text, so there is no line break in either
(`runLine_oneLine`, `LineFailure.oneLine_message`). An answer begins with a paren or a number, since a
name without a value has none (`Expr.WellFormed.exists_head_text`).

> `Entry.ofLine_cases`: what the entry of a line writes and what it warns of.
> `report_framing`: a report is made of chunks, one for each line that has a token, and each of them
> is all that there would be to write of this line alone.
> `linesOf_output`: the lines of what is written are the chunks.
-/

namespace PrefixArith

/-! ## Texts in one line -/

namespace OneLine

theorem of_legal {w : String} (h : (Token.word w).Legal) : OneLine w :=
  fun c hc => isLineBreak_of_isBlank_eq_false (h.2 c hc).1

theorem quote (s : String) : OneLine (quote s) := of_isPrintable fun _ => isPrintable_of_mem_quote

theorem parenthesized {part : String} {parts : List String} (hpart : OneLine part)
    (hparts : ∀ s ∈ parts, OneLine s) : OneLine (parenthesized (part :: parts)) := by
  intro c hc
  rw [toList_parenthesized] at hc
  simp only [List.mem_cons, List.mem_append, List.mem_flatMap, List.not_mem_nil, or_false] at hc
  rcases hc with rfl | hc | ⟨s, hs, rfl | hc⟩ | rfl
  · decide
  · exact hpart c hc
  · decide
  · exact hparts s hs c hc
  · decide

end OneLine

theorem Expr.WellFormed.oneLine_text {e : Expr} (h : e.WellFormed) : OneLine (e.text ∅) := by
  induction h with
  | atom hv =>
    rw [Expr.text_atom_empty]
    exact .of_legal (Value.legal_text hv)
  | @list op es _ _ ih =>
    rw [Expr.text_list_empty]
    refine .parenthesized (.of_legal op.legal_keyword) ?_
    intro s hs
    obtain ⟨e, he, rfl⟩ := List.mem_map.mp hs
    exact ih e he

/-! ## Messages -/

theorem ParseError.oneLine_message (err : ParseError) : OneLine err.message := by
  have hkind : OneLine err.kind := by
    cases err with
    | unexpectedEnd | unexpectedParen | unknownOperator | emptyList | tooDeep | trailingTokens =>
      rw [ParseError.kind]
      decide
  unfold ParseError.message
  split
  · exact hkind
  · exact (hkind.append (by decide)).append (.quote _)

/-- What the error shows is a name, or a tree that was read. -/
def EvalError.WellFormed : EvalError → Prop
  | .undefined _ | .arity _ => True
  | .notNumber name => IsName name
  | .notName target => target.WellFormed

theorem EvalError.WellFormed.oneLine_message {err : EvalError} (h : err.WellFormed) :
    OneLine err.message := by
  have hkind : OneLine err.kind := by
    cases err with
    | undefined | notNumber | notName | arity =>
      rw [EvalError.kind]
      decide
  refine (hkind.append (by decide)).append ?_
  cases err with
  | undefined name => exact .quote name
  | notNumber name => exact OneLine.append (by decide) (.of_legal h.1)
  | notName target => exact OneLine.append (by decide) h.oneLine_text
  | arity count =>
    refine OneLine.append (by decide) (.of_isPrintable ?_)
    intro c hc
    rw [String.toList_ofList] at hc
    obtain ⟨lo, hi⟩ := toNat_of_isDigit (isDigit_of_mem_decimalDigits hc)
    exact isPrintable_of_ascii (by omega) (by omega)

theorem Expr.ArithOperand.wellFormed {x e : Expr} (h : x.ArithOperand e) :
    e.WellFormed → x.WellFormed := by
  induction h with
  | here hx =>
    intro he
    cases he with
    | list _ hes => exact hes x hx
  | inside he _ ih =>
    intro hlist
    cases hlist with
    | list _ hes => exact ih (hes _ he)

/-- Evaluation of a tree that was read shows no names but such as can be read. -/
theorem Expr.WellFormed.wellFormed_of_eval_error {e : Expr} (h : e.WellFormed) {err : EvalError}
    {env : Env} (heval : e.eval ∅ = ⟨.error (.error err), env⟩) : err.WellFormed := by
  cases err with
  | undefined _ => trivial
  | arity _ => trivial
  | notName target =>
    obtain ⟨err, herr, htarget⟩ := h.eval_failure ∅ env _ heval
    injection herr with herr
    exact htarget target herr.symm
  | notNumber name =>
    rcases e.eval_error ∅ env _ heval with ⟨_, hnot⟩ | ⟨s, x, hs, hx, hname⟩
    · exact absurd rfl (hnot name)
    · -- The name is the value of an operand, and values that a line gives are names that were read.
      injection hs with hs
      injection hs with hs
      subst hs
      exact (hx.wellFormed h).wellFormed_of_eval hname

/-- Whatever is reported of a line is reported in one line. -/
theorem LineFailure.oneLine_message {line message : String} {failure : LineFailure}
    (h : runLine line = .error failure) (hmessage : failure.message = .ok message) :
    OneLine message := by
  rcases runLine_cases line with ⟨s, hs⟩ | ⟨err, herr⟩ | ⟨e, err, env, hparse, heval, herr⟩
  · rw [h] at hs
    cases hs
  · rw [h] at herr
    cases herr
    cases hmessage
    exact err.oneLine_message
  · rw [h] at herr
    cases herr
    cases hmessage
    obtain ⟨he, _⟩ := wellFormed_of_parse hparse
    exact (he.wellFormed_of_eval_error heval).oneLine_message

/-! ## Answers -/

/-- The text of a tree that has a value begins with a paren, a sign or a digit. -/
theorem Expr.WellFormed.exists_head_text {e : Expr} (h : e.WellFormed) {v : Value} {env : Env}
    (heval : e.eval ∅ = ⟨.ok v, env⟩) : ∃ c cs, (e.text ∅).toList = c :: cs ∧ c ≠ 'e' := by
  cases h with
  | @list op es _ _ =>
    rw [Expr.text_list_empty, toList_parenthesized]
    exact ⟨_, _, rfl, by decide⟩
  | @atom v _ =>
    cases v with
    | ref name => cases heval
    | num n =>
      rw [Expr.text_atom_empty]
      cases n with
      | negSucc n => exact ⟨'-', decimalDigits (n + 1), by simp [Value.text, decimal], by decide⟩
      | ofNat n =>
        obtain ⟨c, cs, hcs⟩ := List.exists_cons_of_ne_nil (decimalDigits_ne_nil n)
        refine ⟨c, cs, by simp [Value.text, decimal, hcs], ?_⟩
        intro hc
        subst hc
        have hdigit : 'e'.isDigit := isDigit_of_mem_decimalDigits (hcs ▸ List.mem_cons_self)
        cases hdigit

/-- A result is one line, and does not begin like an error. -/
theorem runLine_oneLine {line s : String} (h : runLine line = .ok s) :
    OneLine s ∧ ∃ c cs, s.toList = c :: cs ∧ c ≠ 'e' := by
  obtain ⟨e, text, v, hparse, hsettled, rfl⟩ := exists_settled_of_runLine h
  obtain ⟨he, _⟩ := wellFormed_of_parse hparse
  obtain ⟨env, heval⟩ := hsettled.eval_eq ∅
  rw [← hsettled.text_eq ∅]
  refine ⟨?_, ?_⟩
  · have hvalue := Value.legal_text (he.wellFormed_of_eval heval)
    exact (he.oneLine_text.append (by decide)).append (.of_legal hvalue)
  · obtain ⟨c, cs, hcs, hc⟩ := he.exists_head_text heval
    refine ⟨c, cs ++ (" = " ++ v.text).toList, ?_, hc⟩
    rw [resultText, String.append_assoc, String.toList_append, hcs, List.cons_append]

/-! ## Chunks -/

/-- Whether a text begins like the report of an error. -/
def marksError (s : String) : Bool := "error: ".toList.isPrefixOf s.toList

theorem marksError_append (message : String) : marksError ("error: " ++ message) = true := by
  rw [marksError, List.isPrefixOf_iff_prefix, String.toList_append]
  exact List.prefix_append _ _

theorem marksError_eq_false {s : String} {c : Char} {cs : List Char} (h : s.toList = c :: cs)
    (hc : c ≠ 'e') : marksError s = false := by
  have hfirst : ('e' == c) = false := by simpa using Ne.symm hc
  rw [marksError, h]
  show ('e' == c && _) = false
  rw [hfirst, Bool.false_and]

/-- The entry of a line is its result, or what is reported of it, and which of the two it is can be
told from its output. -/
theorem Entry.ofLine_cases {line : String} {entry : Entry} (h : Entry.ofLine line = .ok entry) :
    (∃ text, runLine line = .ok text ∧ entry = .answer text ∧ OneLine text ∧
      marksError entry.output = false) ∨
    ∃ failure message, runLine line = .error failure ∧ failure.message = .ok message ∧
      entry = .failed (dropLineEnd line) message ∧ OneLine message ∧
      marksError entry.output = true := by
  unfold Entry.ofLine at h
  cases hrun : runLine line with
  | ok text =>
    rw [hrun] at h
    cases h
    obtain ⟨hone, c, cs, hcs, hc⟩ := runLine_oneLine hrun
    have houtput : (Entry.answer text).output.toList = c :: (cs ++ ['\n']) := by
      rw [Entry.output, String.toList_append, hcs]
      rfl
    exact .inl ⟨text, rfl, rfl, hone, marksError_eq_false houtput hc⟩
  | error failure =>
    rw [hrun] at h
    dsimp only at h
    cases hmessage : failure.message with
    | error fault =>
      rw [hmessage] at h
      cases h
    | ok message =>
      rw [hmessage] at h
      cases h
      have hone := LineFailure.oneLine_message hrun hmessage
      refine .inr ⟨failure, message, rfl, hmessage, rfl, hone, ?_⟩
      rw [Entry.output, String.append_assoc]
      exact marksError_append _

/-- A chunk of output: it is written of the line alone, is one line, and begins like the report of an
error exactly if the line failed. It holds the result of the line, or the message of the failure. -/
structure IsChunk (line chunk : String) : Prop where
  alone : (Report.ofLines [line]).map Report.output = .ok chunk
  framed : ∃ body, chunk = body ++ "\n" ∧ OneLine body
  marked : marksError chunk = true ↔ ∃ failure, runLine line = .error failure
  holds : (∃ text, runLine line = .ok text ∧ chunk = text ++ "\n") ∨
    ∃ failure message, runLine line = .error failure ∧ failure.message = .ok message ∧
      chunk = "error: " ++ message ++ "\n"

theorem isChunk_output {line : String} (hblank : isBlankText line = false) {entry : Entry}
    (h : Entry.ofLine line = .ok entry) : IsChunk line entry.output where
  alone := by
    rw [Report.ofLines, entriesOf, hblank, h]
    simp [entriesOf, Except.map, Report.output]
  framed := by
    rcases Entry.ofLine_cases h with ⟨text, _, rfl, hone, _⟩ | ⟨_, message, _, _, rfl, hone, _⟩
    · exact ⟨text, rfl, hone⟩
    · exact ⟨"error: " ++ message, rfl, OneLine.append (by decide) hone⟩
  marked := by
    rcases Entry.ofLine_cases h with ⟨_, hrun, _, _, hmark⟩ | ⟨_, _, hrun, _, _, _, hmark⟩
    · rw [hmark, hrun]
      simp
    · rw [hmark, hrun]
      simp
  holds := by
    rcases Entry.ofLine_cases h with
      ⟨text, hrun, rfl, _⟩ | ⟨failure, message, hrun, hmessage, rfl, _⟩
    · exact .inl ⟨text, hrun, rfl⟩
    · exact .inr ⟨failure, message, hrun, hmessage, rfl⟩

/-- Texts that are each a single line can be told apart in what is written of them. -/
theorem linesOf_join {α : Type} {R : α → String → Prop} {xs : List α} {chunks : List String}
    (h : List.Forall₂ R xs chunks)
    (hframed : ∀ x chunk, R x chunk → ∃ body, chunk = body ++ "\n" ∧ OneLine body) :
    linesOf (String.join chunks) = chunks := by
  unfold linesOf
  induction h with
  | nil => rfl
  | @cons x chunk _ chunks hchunk _ ih =>
    obtain ⟨body, rfl, hone⟩ := hframed x chunk hchunk
    have hbody : '\n' ∉ body.toList := by
      intro hmem
      exact absurd (hone _ hmem) (by decide)
    have hchars : (String.join ((body ++ "\n") :: chunks)).toList
        = body.toList ++ '\n' :: (String.join chunks).toList := by simp
    rw [hchars, cutLines_append hbody, List.map_cons, ih, String.ofList_append,
      String.ofList_toList]

/-! ## Lines passed over -/

/-- A text without a word is one without a token. -/
theorem isBlankText_iff {line : String} : isBlankText line = true ↔ tokenize line = [] := by
  rw [tokenize_eq_tokensOf, tokensOf, List.map_eq_nil_iff, words_eq_nil_iff, isBlankText,
    List.all_eq_true]
  constructor
  · intro h c hc
    obtain ⟨d, hd, hc⟩ := List.mem_flatMap.mp hc
    rw [padParen_of_isBlank (h d hd), List.mem_singleton] at hc
    exact hc ▸ h d hd
  · intro h c hc
    refine h c (List.mem_flatMap.mpr ⟨c, hc, ?_⟩)
    unfold padParen
    split
    · simp
    · simp

theorem isBlankText_eq_false_iff {line : String} :
    isBlankText line = false ↔ tokenize line ≠ [] := by
  rw [Ne, ← isBlankText_iff, Bool.not_eq_true]

/-- The lines that are not passed over. -/
theorem filter_isBlankText (lines : List String) :
    (lines.filter fun line => !isBlankText line) = lines.filter fun line => tokenize line ≠ [] := by
  refine List.filter_congr ?_
  intro line _
  rw [Bool.eq_iff_iff, Bool.not_eq_true', isBlankText_eq_false_iff, decide_eq_true_iff]

/-- A line makes no difference to a report exactly if it has no token. -/
theorem ofLines_eq_iff (front : List String) (line : String) (back : List String) :
    Report.ofLines (front ++ line :: back) = Report.ofLines (front ++ back) ↔
      tokenize line = [] := by
  rw [← isBlankText_iff]
  constructor
  · intro h
    obtain ⟨r, hr, hwith⟩ := exists_report (front ++ line :: back)
    obtain ⟨r', hr', hwithout⟩ := exists_report (front ++ back)
    rw [hr, hr'] at h
    injection h with h
    subst h
    -- The reports have as many entries as there are lines to report on.
    have hcount := hwith.length_eq.trans hwithout.length_eq.symm
    rw [List.filter_append, List.filter_append, List.length_append, List.length_append,
      Nat.add_left_cancel_iff] at hcount
    by_cases hblank : isBlankText line = true
    · exact hblank
    · rw [List.filter_cons_of_pos (by simp [hblank]), List.length_cons] at hcount
      omega
  · intro h
    rw [Report.ofLines, Report.ofLines, entriesOf_append, entriesOf_append,
      entriesOf_cons_of_blank h]

/-! ## The statement as a whole -/

theorem forall₂_isChunk {lines : List String} {es : List Entry}
    (h : List.Forall₂ (fun line entry => Entry.ofLine line = .ok entry)
      (lines.filter fun line => !isBlankText line) es) :
    List.Forall₂ IsChunk (lines.filter fun line => tokenize line ≠ []) (es.map Entry.output) := by
  have hkept : ∀ line ∈ lines.filter (fun line => !isBlankText line), isBlankText line = false := by
    intro line hline
    simpa using (List.mem_filter.mp hline).2
  rw [← filter_isBlankText, List.forall₂_map_right_iff]
  exact ((List.forall₂_and_left _ _).mpr ⟨hkept, h⟩).imp fun _ _ h => isChunk_output h.1 h.2

/-- Whoever cuts the output into lines gets the chunks. -/
theorem linesOf_output {lines : List String} {r : Report} (h : Report.ofLines lines = .ok r) :
    linesOf r.output = r.entries.map Entry.output := by
  obtain ⟨r', hr', hentries⟩ := exists_report lines
  rw [h] at hr'
  injection hr' with hsame
  subst hsame
  exact linesOf_join (forall₂_isChunk hentries) fun _ _ hchunk => hchunk.framed

/-- What is marked as an error is what is warned of: the warning shows the line, and gives the message
that is written of it. -/
theorem forall₂_zip_warnings {lines : List String} {es : List Entry}
    (h : List.Forall₂ (fun line entry => Entry.ofLine line = .ok entry) lines es) :
    List.Forall₂
      (fun p warning => ∃ message, OneLine message ∧ p.2 = "error: " ++ message ++ "\n" ∧
        warning = "Failed line " ++ quote (dropLineEnd p.1) ++ ": " ++ message)
      ((lines.zip (es.map Entry.output)).filter fun p => marksError p.2)
      (es.filterMap Entry.warning?) := by
  induction h with
  | nil => exact .nil
  | cons hentry _ ih =>
    rw [List.map_cons, List.zip_cons_cons]
    rcases Entry.ofLine_cases hentry with
      ⟨_, _, rfl, _, hmark⟩ | ⟨_, message, _, _, rfl, hone, hmark⟩
    · rw [List.filter_cons, if_neg (by simp [hmark]), List.filterMap_cons_none rfl]
      exact ih
    · rw [List.filter_cons, if_pos hmark, List.filterMap_cons_some (by rfl)]
      exact .cons ⟨message, hone, rfl, rfl⟩ ih

/-- The same, of the output alone. -/
theorem forall₂_warnings {lines : List String} {es : List Entry}
    (h : List.Forall₂ (fun line entry => Entry.ofLine line = .ok entry) lines es) :
    List.Forall₂
      (fun chunk warning => ∃ front message,
        chunk = "error: " ++ message ++ "\n" ∧ warning = front ++ ": " ++ message)
      ((es.map Entry.output).filter marksError) (es.filterMap Entry.warning?) := by
  have hchunks : ((lines.zip (es.map Entry.output)).map Prod.snd) = es.map Entry.output :=
    List.map_snd_zip (by rw [List.length_map, h.length_eq])
  rw [← hchunks, List.filter_map, List.forall₂_map_left_iff]
  exact (forall₂_zip_warnings h).imp fun p warning ⟨message, _, hchunk, hwarning⟩ =>
    ⟨_, message, hchunk, hwarning⟩

/-- **A report is made of chunks**, and nothing in a line can disturb that. A line is passed over
exactly if it has no token. Every other one adds a chunk to the output: all that there would be to
write of it alone, a single line of output, that begins like an error exactly if the line failed.
There are as many failures as chunks that do, and as many warnings, which give the same messages in
the same order. -/
theorem report_framing :
    (∀ front line back,
      Report.ofLines (front ++ line :: back) = Report.ofLines (front ++ back) ↔
        tokenize line = []) ∧
    ∀ lines, ∃ r chunks, Report.ofLines lines = .ok r ∧
      List.Forall₂ IsChunk (lines.filter fun line => tokenize line ≠ []) chunks ∧
      r.output = String.join chunks ∧
      r.failures = chunks.countP marksError ∧ r.failures = r.warnings.length ∧
      List.Forall₂
        (fun chunk warning => ∃ front message,
          chunk = "error: " ++ message ++ "\n" ∧ warning = front ++ ": " ++ message)
        (chunks.filter marksError) r.warnings := by
  refine ⟨ofLines_eq_iff, ?_⟩
  intro lines
  obtain ⟨r, hr, hentries⟩ := exists_report lines
  have hwarnings := forall₂_warnings hentries
  refine ⟨r, r.entries.map Entry.output, hr, ?_, rfl, ?_, r.length_warnings.symm, hwarnings⟩
  · exact forall₂_isChunk hentries
  · rw [List.countP_eq_length_filter, hwarnings.length_eq]
    exact r.length_warnings.symm

end PrefixArith
