/-!
# Words

A text is cut into words at its blanks. `words` lists them all, `nextWord?` takes the first and leaves
the text behind it, and a `WordStream` hands them out one at a time. They agree on what the words are:

> `words_eq_nil_of_nextWord?`: a text without a first word has no words.
> `words_eq_cons_of_nextWord?`: the words of a text are its first word and the words of the rest.
> `peek_eq_head?`, `next_fst`, `toList_next`: the word that a stream shows and hands out is the first of
> those it still holds, and handing it out leaves the others.
> `drain_fst`, `toList_drain`: draining a stream hands out all that it holds and leaves nothing.
-/

namespace PrefixArith

/-! ## Blanks

The characters that separate words. There are 29 of them: the white space of Unicode and the four
information separators U+001C to U+001F. The zero-width space U+200B, the byte order mark U+FEFF and
U+0000 are no blanks, so they are part of the word they stand in.
-/

/-- The code points of the blanks, as closed ranges in ascending order. -/
def blankRanges : List (Nat × Nat) :=
  [(0x09, 0x0D), (0x1C, 0x20), (0x85, 0x85), (0xA0, 0xA0), (0x1680, 0x1680), (0x2000, 0x200A),
   (0x2028, 0x2029), (0x202F, 0x202F), (0x205F, 0x205F), (0x3000, 0x3000)]

/-- Whether `c` separates words. -/
def isBlank (c : Char) : Bool := blankRanges.any fun r => r.1 ≤ c.toNat && c.toNat ≤ r.2

/-- A text that holds no word. -/
def isBlankText (s : String) : Bool := s.toList.all isBlank

/-! ## The words of a text

Words are the maximal runs of characters that are not blank. They are never empty and hold no blank
(`mem_words`), and a blank separates (`words_append_blank`): the words of a text with a blank in it are
those before it and those after.
-/

/-- Whether a word begins where the text `cs` begins. -/
def startsWord (cs : List Char) : Bool := cs.head?.any (!isBlank ·)

/-- The maximal runs of characters that are not blank, in order. -/
def words : List Char → List (List Char)
  | [] => []
  | c :: cs =>
    if isBlank c then words cs
    else match startsWord cs, words cs with
      | true, w :: ws => (c :: w) :: ws
      | _, ws => [c] :: ws

/-- The first word of a text and the text behind it. -/
def nextWord? (cs : List Char) : Option (List Char × List Char) :=
  match cs.dropWhile isBlank with
  | [] => none
  | c :: rest => some (c :: rest.takeWhile (!isBlank ·), rest.dropWhile (!isBlank ·))

/-! ### Blanks separate -/

@[simp] theorem words_nil : words [] = [] := rfl

theorem words_cons_blank {c : Char} (h : isBlank c) (cs : List Char) :
    words (c :: cs) = words cs := by
  simp [words, h]

theorem words_eq_nil_iff {cs : List Char} : words cs = [] ↔ ∀ c ∈ cs, isBlank c := by
  induction cs with
  | nil => simp
  | cons c cs ih =>
    by_cases h : isBlank c
    · simp [words_cons_blank h, ih, h]
    · rw [words, if_neg h]
      split <;> simp [h]

/-- A text that begins with a word has one. -/
theorem words_ne_nil {cs : List Char} (h : startsWord cs) : words cs ≠ [] := by
  rw [Ne, words_eq_nil_iff]
  cases cs with
  | nil => simp [startsWord] at h
  | cons c cs => simp_all [startsWord]

theorem words_append_blank {c : Char} (h : isBlank c) (front back : List Char) :
    words (front ++ c :: back) = words front ++ words back := by
  induction front with
  | nil => exact words_cons_blank h back
  | cons d front ih =>
    have hs : startsWord (front ++ c :: back) = startsWord front := by
      cases front <;> simp [startsWord, h]
    simp only [List.cons_append, words, hs, ih]
    split
    · rfl
    · cases hw : startsWord front with
      | false => simp
      | true =>
        obtain ⟨w, ws, hws⟩ := List.exists_cons_of_ne_nil (words_ne_nil hw)
        simp [hws]

/-! ### The first word -/

/-- A run of characters that are not blank, where it cannot go on, is one word. -/
theorem words_append_of_run {w rest : List Char} (hw : ∀ c ∈ w, isBlank c = false) (hne : w ≠ [])
    (hrest : startsWord rest = false) : words (w ++ rest) = w :: words rest := by
  induction w with
  | nil => exact absurd rfl hne
  | cons c w ih =>
    have hc := hw c List.mem_cons_self
    cases w with
    | nil => simp [words, hc, hrest]
    | cons d w =>
      have hd : startsWord (d :: w ++ rest) = true := by
        simp [startsWord, hw d (by simp)]
      have tail := ih (fun x hx => hw x (List.mem_cons_of_mem _ hx)) (by simp)
      rw [List.cons_append, words, hd, tail]
      simp [hc]

theorem words_dropWhile_blank (cs : List Char) : words (cs.dropWhile isBlank) = words cs := by
  induction cs with
  | nil => rfl
  | cons c cs ih =>
    by_cases h : isBlank c
    · rw [List.dropWhile_cons_of_pos h, words_cons_blank h, ih]
    · rw [List.dropWhile_cons_of_neg h]

theorem startsWord_dropWhile (cs : List Char) :
    startsWord (cs.dropWhile (!isBlank ·)) = false := by
  induction cs with
  | nil => rfl
  | cons c cs ih =>
    by_cases h : isBlank c
    · simp [startsWord, h]
    · rw [List.dropWhile_cons_of_pos (by simpa using h), ih]

theorem words_eq_nil_of_nextWord? {cs : List Char} (h : nextWord? cs = none) : words cs = [] := by
  unfold nextWord? at h
  split at h
  · next hd => rw [← words_dropWhile_blank, hd, words_nil]
  · cases h

theorem words_eq_cons_of_nextWord? {cs w rest : List Char} (h : nextWord? cs = some (w, rest)) :
    words cs = w :: words rest := by
  unfold nextWord? at h
  split at h
  · cases h
  · next c tail hd =>
    cases h
    have hc : isBlank c = false := by
      have := List.head?_dropWhile_not isBlank cs
      simpa [hd] using this
    have run : ∀ x ∈ c :: tail.takeWhile (!isBlank ·), isBlank x = false := fun x hx => by
      rcases List.mem_cons.1 hx with rfl | hx
      · exact hc
      · simpa using List.all_eq_true.1 List.all_takeWhile x hx
    rw [← words_dropWhile_blank, hd, ← words_append_of_run run (by simp) (startsWord_dropWhile tail),
      List.cons_append, List.takeWhile_append_dropWhile]

/-- The first word takes at least one character off the text. -/
theorem length_lt_of_nextWord? {cs w rest : List Char} (h : nextWord? cs = some (w, rest)) :
    rest.length < cs.length := by
  unfold nextWord? at h
  split at h
  · cases h
  · next c tail hd =>
    cases h
    have start := (List.dropWhile_sublist isBlank (l := cs)).length_le
    have behind := (List.dropWhile_sublist (!isBlank ·) (l := tail)).length_le
    rw [hd, List.length_cons] at start
    omega

theorem mem_words {cs w : List Char} (h : w ∈ words cs) : w ≠ [] ∧ ∀ c ∈ w, isBlank c = false := by
  induction cs generalizing w with
  | nil => cases h
  | cons c cs ih =>
    rw [words] at h
    split at h
    · exact ih h
    · next hc =>
      split at h
      · next hws =>
        rcases List.mem_cons.1 h with rfl | h
        · have := ih (hws ▸ List.mem_cons_self)
          simp_all
        · exact ih (hws ▸ List.mem_cons_of_mem _ h)
      · rcases List.mem_cons.1 h with rfl | h
        · simp [hc]
        · exact ih h

/-! ## Streams

A stream looks one word ahead: that word can be seen (`peek`) before it is taken (`next`), and no more
of the text is read than needed for it. What a stream still holds is the list `toList`.
-/

/-- A text being read word by word. -/
structure WordStream where
  /-- The word read but not handed out; none at the end of the text. -/
  lookahead : Option String
  /-- The text behind that word. -/
  unread : List Char

namespace WordStream

/-- The stream that has just read the first word of `cs`. -/
def readFrom (cs : List Char) : WordStream :=
  match nextWord? cs with
  | none => ⟨none, []⟩
  | some (w, rest) => ⟨some (String.ofList w), rest⟩

/-- A stream over the words of `s`. -/
def ofString (s : String) : WordStream := readFrom s.toList

/-- The next word, which stays where it is. -/
def peek (s : WordStream) : Option String := s.lookahead

/-- Takes the next word. At the end there is none, however often one is asked for. -/
def next (s : WordStream) : Option String × WordStream :=
  match s.lookahead with
  | none => (none, s)
  | some w => (some w, readFrom s.unread)

/-- The words that the stream still holds. -/
def toList (s : WordStream) : List String :=
  match s.lookahead with
  | none => []
  | some w => w :: (words s.unread).map String.ofList

/-- A bound on the number of words to come. -/
def size (s : WordStream) : Nat :=
  match s.lookahead with
  | none => 0
  | some _ => s.unread.length + 1

theorem size_readFrom_le (cs : List Char) : (readFrom cs).size ≤ cs.length := by
  unfold readFrom
  split
  · exact Nat.zero_le _
  · next h => exact length_lt_of_nextWord? h

theorem size_readFrom_lt {s : WordStream} {w : String} (h : s.lookahead = some w) :
    (readFrom s.unread).size < s.size := by
  have := size_readFrom_le s.unread
  simp only [size, h] at this ⊢
  omega

/-- Takes all words that are left, one after another. -/
def drain (s : WordStream) : List String × WordStream :=
  match h : s.lookahead with
  | none => ([], s)
  | some w =>
    have := size_readFrom_lt h
    let tail := (readFrom s.unread).drain
    (w :: tail.1, tail.2)
termination_by s.size

/-! ### The stream as a queue -/

theorem toList_readFrom (cs : List Char) :
    (readFrom cs).toList = (words cs).map String.ofList := by
  unfold readFrom
  split
  · next h => simp [toList, words_eq_nil_of_nextWord? h]
  · next h => simp [toList, words_eq_cons_of_nextWord? h]

@[simp] theorem toList_ofString (s : String) :
    (ofString s).toList = (words s.toList).map String.ofList :=
  toList_readFrom s.toList

theorem peek_eq_head? (s : WordStream) : s.peek = s.toList.head? := by
  cases h : s.lookahead <;> simp [peek, toList, h]

theorem next_fst (s : WordStream) : s.next.1 = s.toList.head? := by
  cases h : s.lookahead <;> simp [next, toList, h]

theorem toList_next (s : WordStream) : s.next.2.toList = s.toList.tail := by
  cases h : s.lookahead with
  | none => simp [next, toList, h]
  | some w =>
    have tail : s.toList.tail = (words s.unread).map String.ofList := by simp [toList, h]
    rw [tail, ← toList_readFrom]
    simp [next, h]

theorem drain_of_none {s : WordStream} (h : s.lookahead = none) : s.drain = ([], s) := by
  rw [drain]
  split <;> simp_all

theorem drain_of_some {s : WordStream} {w : String} (h : s.lookahead = some w) :
    s.drain = (w :: (readFrom s.unread).drain.1, (readFrom s.unread).drain.2) := by
  rw [drain]
  split <;> simp_all

theorem drain_fst (s : WordStream) : s.drain.1 = s.toList := by
  cases h : s.lookahead with
  | none => simp [drain_of_none h, toList, h]
  | some w =>
    have := size_readFrom_lt h
    rw [drain_of_some h, drain_fst, toList_readFrom]
    simp [toList, h]
termination_by s.size

theorem toList_drain (s : WordStream) : s.drain.2.toList = [] := by
  cases h : s.lookahead with
  | none => simp [drain_of_none h, toList, h]
  | some w =>
    have := size_readFrom_lt h
    rw [drain_of_some h]
    exact toList_drain _
termination_by s.size

end WordStream

/-! ## Reading from a stream

A stream of words can be read in four ways, in any order: by looking at the next word, by taking it, by
taking it as a step of an iteration, which tells the end apart, and by taking all words that are left.
`WordStream.access` is what a stream replies to each of them; `queueAccess` is what a queue replies,
which is no more than the words themselves.
-/

/-- A way to read from a stream. -/
inductive Access where
  | peek
  | next
  | iterate
  | rest
deriving DecidableEq, Repr

/-- What a stream replies. -/
inductive Reply where
  | peeked (w : Option String)
  | taken (w : Option String)
  | yielded (w : String)
  | stopped
  | listed (ws : List String)
deriving DecidableEq, Repr

/-- The words that the reply takes from the stream. -/
def Reply.handedOut : Reply → List String
  | .peeked _ | .stopped => []
  | .taken w => w.toList
  | .yielded w => [w]
  | .listed ws => ws

/-- The reply to a step of an iteration that gets the word `w`, or none. -/
def Reply.ofStep (w : Option String) : Reply :=
  match w with
  | some w => .yielded w
  | none => .stopped

/-- The reply when there are no words. -/
def Access.replyAtEnd : Access → Reply
  | .peek => .peeked none
  | .next => .taken none
  | .iterate => .stopped
  | .rest => .listed []

/-- What a stream replies, and the stream behind it. -/
def WordStream.access : Access → WordStream → Reply × WordStream
  | .peek, s => (.peeked s.peek, s)
  | .next, s => (.taken s.next.1, s.next.2)
  | .iterate, s => (.ofStep s.next.1, s.next.2)
  | .rest, s => (.listed s.drain.1, s.drain.2)

/-- What a queue of words replies, and the queue behind it. -/
def queueAccess : Access → List String → Reply × List String
  | .peek, ws => (.peeked ws.head?, ws)
  | .next, ws => (.taken ws.head?, ws.tail)
  | .iterate, [] => (.stopped, [])
  | .iterate, w :: ws => (.yielded w, ws)
  | .rest, ws => (.listed ws, [])

/-- The replies to a row of accesses, each to what the one before it left, and what the last leaves. -/
def replies {σ : Type} (access : Access → σ → Reply × σ) : List Access → σ → List Reply × σ
  | [], s => ([], s)
  | a :: as, s =>
    let reply := access a s
    let tail := replies access as reply.2
    (reply.1 :: tail.1, tail.2)

end PrefixArith
