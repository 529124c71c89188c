import PrefixArith.Proofs.Framing

/-!
# What a transcript depends on

The program gets a text, and it is for the text to say where its lines end. However it says so, and
whatever blank lines there are between, the program writes the same (`transcript_of_lines`).

Two things stand in the way. A line comes with the line feed that ends it: that is one blank more to
the reader, and the warning leaves it out (`entriesOf_lineFeed_cons`). And ends can run together, so
that an empty line is lost; but such a line has no entry (`entriesOf_inputLines_append`).
-/

namespace PrefixArith

/-! ## The line feed at the end of a line -/

theorem tokenize_append_lineFeed (line : String) : tokenize (line ++ "\n") = tokenize line := by
  have hchars : (line ++ "\n").toList.flatMap padParen = line.toList.flatMap padParen ++ ['\n'] := by
    rw [String.toList_append, List.flatMap_append]
    rfl
  rw [tokenize_eq_tokensOf, tokenize_eq_tokensOf, tokensOf, tokensOf, hchars,
    words_append_blank (by decide), words_nil, List.append_nil]

theorem isBlankText_append_lineFeed (line : String) :
    isBlankText (line ++ "\n") = isBlankText line := by
  rw [Bool.eq_iff_iff, isBlankText_iff, isBlankText_iff, tokenize_append_lineFeed]

theorem Entry.ofLine_append_lineFeed (line : String) :
    Entry.ofLine (line ++ "\n") = Entry.ofLine line := by
  have hrun : runLine (line ++ "\n") = runLine line := by
    rw [runLine, runLine, parse, parse, tokenize_append_lineFeed]
  rw [Entry.ofLine, Entry.ofLine, hrun, dropLineEnd_append_lineFeed]

theorem entriesOf_lineFeed_cons (line : String) (lines : List String) :
    entriesOf ((line ++ "\n") :: lines) = entriesOf (line :: lines) := by
  rw [entriesOf, entriesOf, isBlankText_append_lineFeed, Entry.ofLine_append_lineFeed]

/-! ## Lines in a text -/

theorem inputLines_ofList (cs : List Char) :
    inputLines (String.ofList cs) = (cutLines (universalNewlines cs)).map String.ofList := by
  rw [inputLines, linesOf, String.toList_ofList, String.toList_ofList]

/-- The entries of a text are those of its first line and of what stands behind the end of it. -/
theorem entriesOf_inputLines_append {line : String} (hline : IsLine line) (ending : LineEnd)
    (cs : List Char) :
    entriesOf (inputLines (String.ofList (line.toList ++ ending.chars ++ cs))) =
      entriesOf (line :: inputLines (String.ofList cs)) := by
  obtain ⟨rest, hrest, hnext⟩ := exists_universalNewlines_ending ending cs
  have hfirst : inputLines (String.ofList (line.toList ++ ending.chars ++ cs)) =
      (line ++ "\n") :: (cutLines rest).map String.ofList := by
    rw [inputLines_ofList, List.append_assoc, universalNewlines_append hline.2, hrest,
      cutLines_append hline.1, List.map_cons, String.ofList_append, String.ofList_toList]
  -- An empty line that the end has swallowed would have no entry.
  have hlater : entriesOf (inputLines (String.ofList cs)) =
      entriesOf ((cutLines rest).map String.ofList) := by
    rw [inputLines_ofList]
    rcases hnext with hnext | hnext
    · rw [hnext]
    · rw [hnext, cutLines, if_pos rfl, List.map_cons, entriesOf_cons_of_blank (by decide)]
  rw [hfirst, entriesOf_lineFeed_cons]
  exact entriesOf_cons_congr hlater.symm line

/-- A line that is not ended is the only one. -/
theorem entriesOf_inputLines_of_isLine {line : String} (hline : IsLine line) :
    entriesOf (inputLines (String.ofList line.toList)) = entriesOf [line] := by
  have hsame : universalNewlines line.toList = line.toList := by
    have happend := universalNewlines_append hline.2 []
    rwa [List.append_nil, universalNewlines, List.append_nil] at happend
  rw [inputLines_ofList, hsame]
  by_cases hempty : line.toList = []
  · have hline : line = "" := String.toList_eq_nil_iff.mp hempty
    subst hline
    rfl
  · rw [cutLines_of_not_mem hline.1 hempty, List.map_singleton, String.ofList_toList]

/-- The entries of a text are those of the lines it holds. -/
theorem HasLines.entriesOf_inputLines {lines : List String} {cs : List Char}
    (h : HasLines lines cs) : entriesOf (inputLines (String.ofList cs)) = entriesOf lines := by
  induction h with
  | nil hgap hblank => rw [entriesOf_inputLines_of_isLine hgap, entriesOf_cons_of_blank hblank]
  | last hline => exact entriesOf_inputLines_of_isLine hline
  | @line line _ _ hline ending _ ih =>
    rw [entriesOf_inputLines_append hline]
    exact entriesOf_cons_congr ih line
  | blank hgap hblank ending _ ih =>
    rw [entriesOf_inputLines_append hgap, entriesOf_cons_of_blank hblank, ih]

theorem HasLines.ofInput_eq {lines : List String} {s : String} (h : HasLines lines s.toList) :
    Transcript.ofInput s = (Report.ofLines lines).map Transcript.ofReport := by
  have hentries := h.entriesOf_inputLines
  rw [String.ofList_toList] at hentries
  rw [Transcript.ofInput, Report.ofLines, Report.ofLines, hentries]

/-! ## The statement as a whole -/

/-- A line among the warnings: it warns of the line `line`, with the message that the line `chunk` of
the output gives. -/
structure IsWarning (line chunk warning : String) : Prop where
  framed : ∃ body, warning = body ++ "\n" ∧ OneLine body
  tells : ∃ message, chunk = "error: " ++ message ++ "\n" ∧
    warning = "WARNING: Failed line " ++ quote line ++ ": " ++ message ++ "\n"

theorem isWarning_warningLine {line message : String} (hone : OneLine message) :
    IsWarning line ("error: " ++ message ++ "\n")
      (Transcript.warningLine ("Failed line " ++ quote line ++ ": " ++ message)) where
  framed := by
    refine ⟨"WARNING: " ++ ("Failed line " ++ quote line ++ ": " ++ message), rfl, ?_⟩
    have hline : OneLine ("Failed line " ++ quote line) := OneLine.append (by decide) (.quote line)
    exact OneLine.append (by decide) ((hline.append (by decide)).append hone)
  tells := by
    have hfront : "WARNING: " ++ "Failed line " = "WARNING: Failed line " := by decide
    refine ⟨message, rfl, ?_⟩
    rw [Transcript.warningLine, ← hfront]
    simp only [String.append_assoc]

/-- Every failed line is warned of in a line of its own. -/
theorem forall₂_isWarning {lines : List String} {es : List Entry}
    (hlines : ∀ line ∈ lines, '\n' ∉ line.toList)
    (h : List.Forall₂ (fun line entry => Entry.ofLine line = .ok entry) lines es) :
    List.Forall₂ (fun p warning => IsWarning p.1 p.2 warning)
      ((lines.zip (es.map Entry.output)).filter fun p => marksError p.2)
      ((es.filterMap Entry.warning?).map Transcript.warningLine) := by
  have hleft : ∀ p ∈ (lines.zip (es.map Entry.output)).filter (fun p => marksError p.2),
      '\n' ∉ p.1.toList := by
    intro p hp
    exact hlines p.1 (List.of_mem_zip (List.mem_filter.mp hp).1).1
  rw [List.forall₂_map_right_iff]
  refine ((List.forall₂_and_left _ _).mpr ⟨hleft, forall₂_zip_warnings h⟩).imp ?_
  intro p warning hpair
  obtain ⟨hline, message, hone, hchunk, hwarning⟩ := hpair
  rw [hchunk, hwarning, dropLineEnd_of_not_mem hline]
  exact isWarning_warningLine hone

/-- **A transcript depends on the contents of the lines that are not blank**, and on nothing else: any
texts that hold the same lines give the same transcript. In its output there is a line for each line of
the input that is not blank, in order, and among the warnings one for each line of output that begins
like an error, in the same order, which shows the line of the input and gives the same message. -/
theorem transcript_of_lines {lines : List String} {s : String} (h : HasLines lines s.toList) :
    (∀ s', HasLines lines s'.toList → Transcript.ofInput s' = Transcript.ofInput s) ∧
    ∃ t, Transcript.ofInput s = .ok t ∧
      List.Forall₂ IsChunk (lines.filter fun line => !isBlankText line) (linesOf t.stdout) ∧
      List.Forall₂ (fun p warning => IsWarning p.1 p.2 warning)
        (((lines.filter fun line => !isBlankText line).zip (linesOf t.stdout)).filter
          fun p => marksError p.2)
        (linesOf t.stderr) := by
  refine ⟨fun s' h' => by rw [h'.ofInput_eq, h.ofInput_eq], ?_⟩
  obtain ⟨r, hr, hentries⟩ := exists_report lines
  have hwarnings := forall₂_isWarning
    (fun line hline => (h.isLine_of_mem line (List.mem_of_mem_filter hline)).1) hentries
  have hstdout : linesOf (Transcript.ofReport r).stdout = r.entries.map Entry.output :=
    linesOf_output hr
  have hstderr : linesOf (Transcript.ofReport r).stderr = r.warnings.map Transcript.warningLine :=
    linesOf_join hwarnings fun _ _ hwarning => hwarning.framed
  refine ⟨Transcript.ofReport r, by rw [h.ofInput_eq, hr]; rfl, ?_, ?_⟩
  · rw [hstdout, filter_isBlankText]
    exact forall₂_isChunk hentries
  · rw [hstdout, hstderr]
    exact hwarnings

/-- In `s` a carriage return ends the first line and the line feed behind it an empty one, so the two
are a single end. The first line has two words, with a line separator between them. -/
theorem transcript_of_lines_swallowed :
    let lines := ["x\u2028y", "(+ 1 2)"]
    let s := "x\u2028y\r\n(+ 1 2)"
    let s' := "x\u2028y\n\t\r\n(+ 1 2)\r"
    HasLines lines s.toList ∧ HasLines lines s'.toList ∧
      Transcript.ofInput s' = .ok
        { stdout := "error: TrailingTokens: 'y'\n(+ 1 2) = 3\n"
          stderr := "WARNING: Failed line 'x\\u2028y': TrailingTokens: 'y'\n"
          exitCode := 0 } ∧
      ∃ t, Transcript.ofInput s = .ok t ∧ (linesOf t.stdout).length = 2 := by
  intro lines s s'
  have hs : HasLines lines s.toList := by
    show HasLines ["x\u2028y", "(+ 1 2)"] "x\u2028y\r\n(+ 1 2)".toList
    exact .line (by decide) .carriageReturn
      (.blank (by decide : IsLine "") (by decide) .lineFeed (.last (by decide)))
  have hs' : HasLines lines s'.toList := by
    show HasLines ["x\u2028y", "(+ 1 2)"] "x\u2028y\n\t\r\n(+ 1 2)\r".toList
    exact .line (by decide) .lineFeed
      (.blank (by decide : IsLine "\t") (by decide) .both
        (.line (by decide) .carriageReturn (.nil (by decide : IsLine "") (by decide))))
  obtain ⟨hsame, t, ht, hchunks, _⟩ := transcript_of_lines hs
  refine ⟨hs, hs', ?_, t, ht, hchunks.length_eq.symm⟩
  rw [hsame s' hs']
  decide +kernel

end PrefixArith
