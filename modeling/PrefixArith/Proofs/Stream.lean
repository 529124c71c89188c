import PrefixArith.Text.Words

/-!
# A stream is a queue

A stream reads its text as it goes and is always one word ahead. None of that shows: read through
`WordStream.toList`, the word ahead and the words of the unread text are a queue, and every access to
the stream is the access to the queue.

> `runs_iff`: the words of a text are the runs that it is made of.
> `WordStream.access_toList`: one access to a stream, and what it leaves, is one access to the queue.
> `WordStream.replies_toList`: so is a row of accesses.

What a queue replies is a matter of lists: words that were handed out and words that are left are the
words there were (`handedOut_replies`), and a queue replies as if there were no words when there are
none (`replies_eq_replyAtEnd_iff`). `stream_is_queue` puts these together, from the text to the replies.
-/

namespace PrefixArith

/-! ## Runs

How a text falls apart at its blanks, said without a way of going through it: blanks in front, then by
turns a run of characters that are none and blanks again. A run is maximal, as it cannot go on where it
ends, and where it begins there is a blank before it or nothing at all.
-/

/-- The text `cs` is made of blanks and of the runs `ws`, in this order. -/
inductive Runs : (cs : List Char) → (ws : List String) → Prop where
  | nil (gap : List Char) (hgap : ∀ c ∈ gap, isBlank c) : Runs gap []
  /-- Behind the run there is a blank or nothing. -/
  | cons (gap : List Char) (w : String) {cs : List Char} {ws : List String}
      (hgap : ∀ c ∈ gap, isBlank c) (hne : w ≠ "") (hw : ∀ c ∈ w.toList, isBlank c = false)
      (hend : ∀ c ∈ cs.head?, isBlank c) (rest : Runs cs ws) :
      Runs (gap ++ w.toList ++ cs) (w :: ws)

/-! ## Words and runs -/

theorem words_gap {gap : List Char} (hgap : ∀ c ∈ gap, isBlank c) (cs : List Char) :
    words (gap ++ cs) = words cs := by
  induction gap with
  | nil => rfl
  | cons c gap ih =>
    obtain ⟨hc, hgap⟩ := List.forall_mem_cons.mp hgap
    rw [List.cons_append, words_cons_blank hc, ih hgap]

theorem startsWord_eq_false_iff {cs : List Char} :
    startsWord cs = false ↔ ∀ c ∈ cs.head?, isBlank c := by
  cases cs with
  | nil => simp [startsWord]
  | cons c cs => simp [startsWord]

theorem Runs.words_eq {cs : List Char} {ws : List String} (h : Runs cs ws) :
    words cs = ws.map String.toList := by
  induction h with
  | nil gap hgap => exact words_eq_nil_iff.mpr hgap
  | @cons gap w cs ws hgap hne hw hend _ ih =>
    have hrun : w.toList ≠ [] := by simpa using hne
    rw [List.append_assoc, words_gap hgap,
      words_append_of_run hw hrun (startsWord_eq_false_iff.mpr hend), ih, List.map_cons]

/-- In front of the first word there are blanks, and behind it a blank or nothing. -/
theorem exists_gap_of_nextWord? {cs w rest : List Char} (h : nextWord? cs = some (w, rest)) :
    ∃ gap, cs = gap ++ w ++ rest ∧ (∀ c ∈ gap, isBlank c) ∧ ∀ c ∈ rest.head?, isBlank c := by
  unfold nextWord? at h
  split at h
  · cases h
  · next c tail hdrop =>
    cases h
    refine ⟨cs.takeWhile isBlank, ?_, ?_, ?_⟩
    · rw [List.append_assoc, List.cons_append, List.takeWhile_append_dropWhile, ← hdrop,
        List.takeWhile_append_dropWhile]
    · exact List.all_eq_true.mp List.all_takeWhile
    · exact startsWord_eq_false_iff.mp (startsWord_dropWhile tail)

theorem runs_words (cs : List Char) : Runs cs ((words cs).map String.ofList) := by
  cases hnext : nextWord? cs with
  | none =>
    have hnil := words_eq_nil_of_nextWord? hnext
    rw [hnil]
    exact .nil cs (words_eq_nil_iff.mp hnil)
  | some p =>
    obtain ⟨w, rest⟩ := p
    have hwords := words_eq_cons_of_nextWord? hnext
    obtain ⟨hne, hw⟩ := mem_words (hwords ▸ List.mem_cons_self)
    obtain ⟨gap, hcs, hgap, hend⟩ := exists_gap_of_nextWord? hnext
    have := length_lt_of_nextWord? hnext
    have hruns := Runs.cons gap (String.ofList w) hgap (by simpa using hne)
      (by rwa [String.toList_ofList]) hend (runs_words rest)
    rwa [String.toList_ofList, ← hcs, ← List.map_cons, ← hwords] at hruns
termination_by cs.length

/-- The words of a text are the runs that it is made of, so there is one way to cut it. -/
theorem runs_iff {cs : List Char} {ws : List String} :
    Runs cs ws ↔ ws = (words cs).map String.ofList := by
  constructor
  · intro h
    simp [h.words_eq]
  · rintro rfl
    exact runs_words cs

/-! ## One access -/

theorem WordStream.access_toList (a : Access) (s : WordStream) :
    (s.access a).1 = (queueAccess a s.toList).1 ∧
      (s.access a).2.toList = (queueAccess a s.toList).2 := by
  cases a with
  | peek => exact ⟨congrArg Reply.peeked s.peek_eq_head?, rfl⟩
  | next => exact ⟨congrArg Reply.taken s.next_fst, s.toList_next⟩
  | rest => exact ⟨congrArg Reply.listed s.drain_fst, s.toList_drain⟩
  | iterate =>
    have hqueue : ∀ ws : List String, queueAccess .iterate ws = (.ofStep ws.head?, ws.tail) := by
      intro ws
      cases ws with
      | nil => rfl
      | cons w ws => rfl
    rw [hqueue]
    exact ⟨congrArg Reply.ofStep s.next_fst, s.toList_next⟩

/-! ## A row of accesses -/

/-- If every access gets the same reply from a state and from what is seen of it, and leaves states
that are seen alike, then so do accesses in a row. -/
theorem replies_view {σ τ : Type} {view : σ → τ} {access : Access → σ → Reply × σ}
    {access' : Access → τ → Reply × τ}
    (hstep : ∀ a s, (access a s).1 = (access' a (view s)).1 ∧
      view (access a s).2 = (access' a (view s)).2) :
    ∀ (as : List Access) (s : σ), (replies access as s).1 = (replies access' as (view s)).1 ∧
      view (replies access as s).2 = (replies access' as (view s)).2 := by
  intro as
  induction as with
  | nil => exact fun s => ⟨rfl, rfl⟩
  | cons a as ih =>
    intro s
    obtain ⟨hreply, hleft⟩ := hstep a s
    obtain ⟨hreplies, hend⟩ := ih (access a s).2
    rw [hleft] at hreplies hend
    refine ⟨?_, hend⟩
    rw [replies, replies, hreply, hreplies]

theorem WordStream.replies_toList (as : List Access) (s : WordStream) :
    (replies WordStream.access as s).1 = (replies queueAccess as s.toList).1 ∧
      (replies WordStream.access as s).2.toList = (replies queueAccess as s.toList).2 :=
  replies_view WordStream.access_toList as s

/-! ## Queues -/

/-- What an access takes off a queue is what its reply hands out. -/
theorem handedOut_queueAccess (a : Access) (ws : List String) :
    (queueAccess a ws).1.handedOut ++ (queueAccess a ws).2 = ws := by
  cases a with
  | peek => rfl
  | rest => exact List.append_nil ws
  | next =>
    cases ws with
    | nil => rfl
    | cons w ws => rfl
  | iterate =>
    cases ws with
    | nil => rfl
    | cons w ws => rfl

theorem handedOut_replies (as : List Access) (ws : List String) :
    (replies queueAccess as ws).1.flatMap Reply.handedOut ++ (replies queueAccess as ws).2 = ws := by
  induction as generalizing ws with
  | nil => rfl
  | cons a as ih =>
    rw [replies, List.flatMap_cons, List.append_assoc, ih, handedOut_queueAccess]

theorem queueAccess_nil (a : Access) : queueAccess a [] = (a.replyAtEnd, []) := by
  cases a with
  | peek | next | iterate | rest => rfl

theorem replies_nil (as : List Access) :
    replies queueAccess as [] = (as.map Access.replyAtEnd, []) := by
  induction as with
  | nil => rfl
  | cons a as ih => rw [replies, queueAccess_nil, ih, List.map_cons]

/-- Replies as if there were no words are given when there are none, and only then. -/
theorem replies_eq_replyAtEnd_iff {ws : List String} :
    (∀ as, (replies queueAccess as ws).1 = as.map Access.replyAtEnd) ↔ ws = [] := by
  constructor
  · intro h
    have hpeek : [Reply.peeked ws.head?] = [Reply.peeked none] := h [.peek]
    simpa using hpeek
  · rintro rfl as
    rw [replies_nil]

theorem WordStream.replies_at_end_iff {s : WordStream} :
    (∀ as, (replies WordStream.access as s).1 = as.map Access.replyAtEnd) ↔ s.toList = [] := by
  rw [← replies_eq_replyAtEnd_iff]
  refine forall_congr' fun as => ?_
  rw [(s.replies_toList as).1]

/-! ## The statement as a whole -/

/-- **A stream is a queue of the words of its text.** A text is made of runs of characters that are
not blank in one way only. Accesses to a stream over it, in any order, get the replies of a queue that
holds these runs; what they hand out and what is left to be drained are the runs, in order; and once
all are handed out, but not before, all further replies are those of the end. -/
theorem stream_is_queue (text : String) :
    ∃ runs, (∀ ws, Runs text.toList ws ↔ ws = runs) ∧
      ∀ as, ∃ rs s, replies WordStream.access as (.ofString text) = (rs, s) ∧
        rs = (replies queueAccess as runs).1 ∧
        rs.flatMap Reply.handedOut ++ s.drain.1 = runs ∧
        (rs.flatMap Reply.handedOut = runs ↔
          ∀ more, (replies WordStream.access more s).1 = more.map Access.replyAtEnd) := by
  refine ⟨(words text.toList).map String.ofList, fun ws => runs_iff, fun as => ?_⟩
  rw [← WordStream.toList_ofString]
  obtain ⟨hreplies, hleft⟩ := (WordStream.ofString text).replies_toList as
  have hparts := handedOut_replies as (WordStream.ofString text).toList
  rw [← hreplies, ← hleft] at hparts
  refine ⟨_, _, rfl, hreplies, by rw [WordStream.drain_fst, hparts], ?_⟩
  rw [WordStream.replies_at_end_iff, ← List.self_eq_append_right, hparts]

end PrefixArith
