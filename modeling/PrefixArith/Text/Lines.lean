import PrefixArith.Text.Quoted

/-!
# Lines

A text is cut into lines after every line feed and only there; a line keeps the line feed that ends
it. Text from outside may end its lines in other ways: `universalNewlines` first makes a line feed of
each carriage return, and of each carriage return with a line feed behind it. Whoever reads a text may
see line breaks at still other characters.

> `universalNewlines_append`: what stands in a line is not changed by making all ends alike.
> `exists_universalNewlines_ending`: an end becomes a line feed, and swallows at most an empty line
> behind it.
> `isBlank_of_isLineBreak`: a line break is a blank, so there is none in a word.
> `OneLine.of_isPrintable`: nor is there one in a text that can stand for itself in quotes.
-/

namespace PrefixArith

/-! ## Lines cut off -/

/-- The lines of a text, each with the line feed that ends it. -/
def cutLines : List Char → List (List Char)
  | [] => []
  | c :: cs =>
    if c = '\n' then [c] :: cutLines cs
    else match cutLines cs with
      | [] => [[c]]
      | line :: lines => (c :: line) :: lines

/-- The text with every line end written as a line feed. -/
def universalNewlines : List Char → List Char
  | [] => []
  | '\r' :: '\n' :: cs => '\n' :: universalNewlines cs
  | '\r' :: cs => '\n' :: universalNewlines cs
  | c :: cs => c :: universalNewlines cs

/-- The lines of `s`, cut after every line feed. -/
def linesOf (s : String) : List String := (cutLines s.toList).map String.ofList

/-- The text `s` without the line feeds it ends in. -/
def dropLineEnd (s : String) : String :=
  String.ofList (s.toList.reverse.dropWhile (· = '\n')).reverse

/-- A line is cut off where its line feed is. -/
theorem cutLines_append {line : List Char} (h : '\n' ∉ line) (rest : List Char) :
    cutLines (line ++ '\n' :: rest) = (line ++ ['\n']) :: cutLines rest := by
  induction line with
  | nil => rw [List.nil_append, cutLines, if_pos rfl, List.nil_append]
  | cons c line ih =>
    rw [List.mem_cons, not_or] at h
    rw [List.cons_append, cutLines, if_neg (Ne.symm h.1), ih h.2, List.cons_append]

/-- A text in which no line ends is a line, unless it is empty. -/
theorem cutLines_of_not_mem {line : List Char} (h : '\n' ∉ line) (hne : line ≠ []) :
    cutLines line = [line] := by
  induction line with
  | nil => exact absurd rfl hne
  | cons c line ih =>
    rw [List.mem_cons, not_or] at h
    rw [cutLines, if_neg (Ne.symm h.1)]
    by_cases hline : line = []
    · subst hline
      rfl
    · rw [ih h.2 hline]

/-- One line feed more at the end makes no difference to what stands before the line end. -/
theorem dropLineEnd_append_lineFeed (s : String) : dropLineEnd (s ++ "\n") = dropLineEnd s := by
  simp [dropLineEnd]

theorem dropLineEnd_of_not_mem {s : String} (h : '\n' ∉ s.toList) : dropLineEnd s = s := by
  have hkept : s.toList.reverse.dropWhile (· = '\n') = s.toList.reverse := by
    cases hs : s.toList.reverse with
    | nil => rfl
    | cons c cs =>
      have hc : c ∈ s.toList := List.mem_reverse.mp (hs ▸ List.mem_cons_self)
      have hne : c ≠ '\n' := by
        intro heq
        exact h (heq ▸ hc)
      exact List.dropWhile_cons_of_neg (by simpa using hne)
  rw [dropLineEnd, hkept, List.reverse_reverse, String.ofList_toList]

/-! ## Line ends

A line can be ended in three ways: by a line feed, by a carriage return, or by a carriage return with
a line feed behind it. `HasLines` says which texts hold given lines, each ended in one of these ways,
with blank lines between them. Ends can run together: where a carriage return ends a line and the next
line is empty and ended by a line feed, the two characters are a single end.
-/

/-- A way to end a line. -/
inductive LineEnd where
  | lineFeed
  | carriageReturn
  | both
deriving DecidableEq, Repr

/-- The characters that end the line. -/
def LineEnd.chars : LineEnd → List Char
  | .lineFeed => ['\n']
  | .carriageReturn => ['\r']
  | .both => ['\r', '\n']

/-- A text in which no line ends. -/
def IsLine (s : String) : Prop := '\n' ∉ s.toList ∧ '\r' ∉ s.toList

instance (s : String) : Decidable (IsLine s) := inferInstanceAs (Decidable (_ ∧ _))

/-- The text `cs` holds the lines `lines`, and between them nothing but blank lines. -/
inductive HasLines : (lines : List String) → (cs : List Char) → Prop where
  /-- Blanks may follow the last end. -/
  | nil {gap : String} (hgap : IsLine gap) (hblank : isBlankText gap) : HasLines [] gap.toList
  /-- The last line need not be ended. -/
  | last {line : String} (hline : IsLine line) : HasLines [line] line.toList
  | line {line : String} {lines : List String} {cs : List Char} (hline : IsLine line)
      (ending : LineEnd) (rest : HasLines lines cs) :
      HasLines (line :: lines) (line.toList ++ ending.chars ++ cs)
  | blank {gap : String} {lines : List String} {cs : List Char} (hgap : IsLine gap)
      (hblank : isBlankText gap) (ending : LineEnd) (rest : HasLines lines cs) :
      HasLines lines (gap.toList ++ ending.chars ++ cs)

theorem HasLines.isLine_of_mem {lines : List String} {cs : List Char} (h : HasLines lines cs) :
    ∀ line ∈ lines, IsLine line := by
  induction h with
  | nil _ _ => simp
  | last hline => simpa using hline
  | line hline _ _ ih =>
    rw [List.forall_mem_cons]
    exact ⟨hline, ih⟩
  | blank _ _ _ _ ih => exact ih

/-! ### Ends made alike -/

theorem universalNewlines_cons {c : Char} (h : c ≠ '\r') (cs : List Char) :
    universalNewlines (c :: cs) = c :: universalNewlines cs := by
  rw [universalNewlines]
  · intro _ hc
    exact absurd hc h
  · exact h

theorem universalNewlines_append {line : List Char} (h : '\r' ∉ line) (cs : List Char) :
    universalNewlines (line ++ cs) = line ++ universalNewlines cs := by
  induction line with
  | nil => rfl
  | cons c line ih =>
    rw [List.mem_cons, not_or] at h
    rw [List.cons_append, universalNewlines_cons (Ne.symm h.1), ih h.2, List.cons_append]

theorem exists_universalNewlines_ending (ending : LineEnd) (cs : List Char) :
    ∃ rest, universalNewlines (ending.chars ++ cs) = '\n' :: rest ∧
      (universalNewlines cs = rest ∨ universalNewlines cs = '\n' :: rest) := by
  cases ending with
  | lineFeed => exact ⟨_, universalNewlines_cons (by decide) cs, .inl rfl⟩
  | both => exact ⟨_, rfl, .inl rfl⟩
  | carriageReturn =>
    cases cs with
    | nil => exact ⟨[], rfl, .inl rfl⟩
    | cons c cs =>
      by_cases hc : c = '\n'
      · subst hc
        exact ⟨universalNewlines cs, rfl, .inr (universalNewlines_cons (by decide) cs)⟩
      · refine ⟨universalNewlines (c :: cs), ?_, .inl rfl⟩
        show universalNewlines ('\r' :: c :: cs) = '\n' :: universalNewlines (c :: cs)
        rw [universalNewlines]
        intro _ h
        injection h with h _
        exact hc h

/-! ## Line breaks

The characters at which a text may be taken to go on in a new line. There are ten of them: the line
feed and the three characters behind it, of which the last is the carriage return, the information
separators U+001C to U+001E, the next line U+0085, and the separators U+2028 and U+2029.
-/

/-- The code points of the line breaks, as closed ranges in ascending order. -/
def lineBreakRanges : List (Nat × Nat) :=
  [(0x0A, 0x0D), (0x1C, 0x1E), (0x85, 0x85), (0x2028, 0x2029)]

/-- Whether a new line can begin behind `c`. -/
def isLineBreak (c : Char) : Bool := lineBreakRanges.any fun r => r.1 ≤ c.toNat && c.toNat ≤ r.2

/-- A text without line breaks. -/
def OneLine (s : String) : Prop := ∀ c ∈ s.toList, isLineBreak c = false

instance (s : String) : Decidable (OneLine s) := List.decidableBAll _ _

/-- Every range of line breaks lies within a range of blanks. -/
theorem isBlank_of_isLineBreak {c : Char} (h : isLineBreak c) : isBlank c := by
  have ranges : ∀ r ∈ lineBreakRanges, ∃ b ∈ blankRanges, b.1 ≤ r.1 ∧ r.2 ≤ b.2 := by decide
  simp only [isLineBreak, List.any_eq_true, Bool.and_eq_true, decide_eq_true_eq] at h
  simp only [isBlank, List.any_eq_true, Bool.and_eq_true, decide_eq_true_eq]
  obtain ⟨r, hr, lo, hi⟩ := h
  obtain ⟨b, hb, blo, bhi⟩ := ranges r hr
  exact ⟨b, hb, Nat.le_trans blo lo, Nat.le_trans hi bhi⟩

theorem isLineBreak_of_isBlank_eq_false {c : Char} (h : isBlank c = false) :
    isLineBreak c = false := by
  rw [Bool.eq_false_iff] at h ⊢
  exact fun hbreak => h (isBlank_of_isLineBreak hbreak)

namespace OneLine

/-- The only blank that is printable is the space, and that is no line break. -/
theorem of_isPrintable {s : String} (h : ∀ c ∈ s.toList, isPrintable c) : OneLine s := by
  intro c hc
  rw [Bool.eq_false_iff]
  intro hbreak
  have hspace : c ≠ ' ' := by
    intro hc
    subst hc
    exact absurd hbreak (by decide)
  have hnot := not_isPrintable_of_isBlank (isBlank_of_isLineBreak hbreak) hspace
  rw [h c hc] at hnot
  cases hnot

theorem append {s t : String} (hs : OneLine s) (ht : OneLine t) : OneLine (s ++ t) := by
  intro c hc
  rw [String.toList_append] at hc
  rcases List.mem_append.mp hc with hc | hc
  · exact hs c hc
  · exact ht c hc

end OneLine

end PrefixArith
