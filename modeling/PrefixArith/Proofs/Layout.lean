import Mathlib.Data.List.Chain
import PrefixArith.Token

/-!
# Layouts and the tokens they read as

A line is read by padding its parens with blanks and cutting the result at the blanks. `LaidOut`
says how tokens may stand in a text without mentioning either step. Each text stands in this relation
to the tokens it reads as, and to no other legal ones:

> `LaidOut.tokensOf_eq`: a layout of legal tokens reads as these tokens.
> `exists_laidOut`: every text is a layout of some legal tokens.

So what a line reads as is always legal (`legal_of_mem_tokenize`). A layout can also be given by its
gaps alone, one in front of the tokens and one behind each (`isLayout_iff`), which makes
`tokenize_eq_iff` a statement on characters: nothing but blanks is lost or added on the way.
-/

namespace PrefixArith

/-- The tokens that a line of the characters `cs` reads as. -/
def tokensOf (cs : List Char) : List Token :=
  (words (cs.flatMap padParen)).map (Token.ofText ∘ String.ofList)

theorem tokenize_eq_tokensOf (line : String) : tokenize line = tokensOf line.toList := by
  rw [tokenize_eq, padParens, String.toList_ofList, tokensOf]

/-! ## Padding -/

theorem padParen_of_isBlank {c : Char} (h : isBlank c) : padParen c = [c] := by
  have hparen : ¬(c = '(' ∨ c = ')') := by
    rintro (rfl | rfl)
    · exact absurd h (by decide)
    · exact absurd h (by decide)
  rw [padParen, if_neg hparen]

theorem flatMap_padParen_of_isWordChar {w : List Char} (h : ∀ c ∈ w, IsWordChar c) :
    w.flatMap padParen = w := by
  induction w with
  | nil => rfl
  | cons c w ih =>
    obtain ⟨⟨_, hparen⟩, hw⟩ := List.forall_mem_cons.mp h
    rw [List.flatMap_cons, ih hw, padParen, if_neg (not_or.mpr hparen)]
    rfl

/-- A padded text begins with a word only if the text itself does, and not with a paren. -/
theorem startsWord_flatMap_padParen {cs : List Char} (h : ∀ c ∈ cs.head?, ¬IsWordChar c) :
    startsWord (cs.flatMap padParen) = false := by
  cases cs with
  | nil => rfl
  | cons c cs =>
    have hc := h c rfl
    rw [List.flatMap_cons, padParen]
    split
    · rfl
    · next hparen =>
      rw [not_or] at hparen
      have hblank : isBlank c = true := by
        cases hb : isBlank c with
        | true => rfl
        | false => exact absurd ⟨hb, hparen⟩ hc
      simp [startsWord, hblank]

/-! ## One token at a time -/

theorem tokensOf_gap {gap : List Char} (hgap : ∀ c ∈ gap, isBlank c) (cs : List Char) :
    tokensOf (gap ++ cs) = tokensOf cs := by
  induction gap with
  | nil => rfl
  | cons c gap ih =>
    obtain ⟨hc, hgap⟩ := List.forall_mem_cons.mp hgap
    rw [← ih hgap, List.cons_append, tokensOf, List.flatMap_cons, padParen_of_isBlank hc,
      List.singleton_append, words_cons_blank hc, tokensOf]

/-- Room on both sides makes a paren a word of its own, whatever stands behind it. -/
theorem tokensOf_paren {c : Char} (h : c = '(' ∨ c = ')') (cs : List Char) :
    tokensOf (c :: cs) = Token.ofText (String.ofList [c]) :: tokensOf cs := by
  have hblank : isBlank c = false := by
    rcases h with rfl | rfl
    · decide
    · decide
  have hpad : (c :: cs).flatMap padParen = ' ' :: ([c] ++ ' ' :: cs.flatMap padParen) := by
    rw [List.flatMap_cons, padParen, if_pos h]
    rfl
  rw [tokensOf, hpad, words_cons_blank (by decide),
    words_append_of_run (by simpa using hblank) (by simp) rfl,
    words_cons_blank (by decide), List.map_cons]
  rfl

theorem tokensOf_word {w : String} (hw : (Token.word w).Legal) {cs : List Char}
    (hcs : ∀ c ∈ cs.head?, ¬IsWordChar c) :
    tokensOf (w.toList ++ cs) = .word w :: tokensOf cs := by
  obtain ⟨hne, hchars⟩ := hw
  have htoken : Token.ofText w = .word w := by
    have hlparen : w ≠ "(" := by
      rintro rfl
      exact (hchars '(' (by simp)).2.1 rfl
    have hrparen : w ≠ ")" := by
      rintro rfl
      exact (hchars ')' (by simp)).2.2 rfl
    rw [Token.ofText, if_neg hlparen, if_neg hrparen]
  rw [tokensOf, List.flatMap_append, flatMap_padParen_of_isWordChar hchars,
    words_append_of_run (fun c hc => (hchars c hc).1) (by simpa using hne)
      (startsWord_flatMap_padParen hcs),
    List.map_cons, Function.comp_apply, String.ofList_toList, htoken]
  rfl

/-! ## Layouts read back -/

/-- Behind a word a layout goes on with a blank or a paren, or ends. -/
theorem LaidOut.head?_of_afterWord {ts : List Token} {cs : List Char} (h : LaidOut true ts cs) :
    ∀ c ∈ cs.head?, ¬IsWordChar c := by
  have hblank : ∀ {gap : List Char}, (∀ c ∈ gap, isBlank c) → ∀ c ∈ gap.head?, ¬IsWordChar c := by
    rintro gap hgap c hc ⟨hfalse, _⟩
    rw [hgap c (List.mem_of_mem_head? hc)] at hfalse
    cases hfalse
  cases h with
  | nil gap hgap => exact hblank hgap
  | cons gap t hgap apart rest =>
    cases gap with
    | cons c gap => exact fun x hx => hblank hgap x (by simpa using hx)
    | nil =>
      -- Without a gap the token is a paren.
      intro c hc hword
      cases t with
      | word w => exact apart rfl rfl rfl
      | lparen =>
        obtain rfl : c = '(' := by simpa [Token.text, eq_comm] using hc
        exact hword.2.1 rfl
      | rparen =>
        obtain rfl : c = ')' := by simpa [Token.text, eq_comm] using hc
        exact hword.2.2 rfl

theorem LaidOut.tokensOf_eq {afterWord : Bool} {ts : List Token} {cs : List Char}
    (h : LaidOut afterWord ts cs) : (∀ t ∈ ts, t.Legal) → tokensOf cs = ts := by
  induction h with
  | nil gap hgap =>
    intro _
    have h := tokensOf_gap hgap []
    rwa [List.append_nil] at h
  | cons gap t hgap _ hrest ih =>
    intro hlegal
    obtain ⟨ht, hts⟩ := List.forall_mem_cons.mp hlegal
    have htail := ih hts
    rw [List.append_assoc, tokensOf_gap hgap]
    cases t with
    | lparen => exact htail ▸ tokensOf_paren (.inl rfl) _
    | rparen => exact htail ▸ tokensOf_paren (.inr rfl) _
    | word w =>
      -- The layout behind the word was made for that place, so the word ends where it begins.
      exact htail ▸ tokensOf_word ht hrest.head?_of_afterWord

theorem tokenize_eq_of_isLayout {ts : List Token} {s : String} (hlegal : ∀ t ∈ ts, t.Legal)
    (h : IsLayout ts s) : tokenize s = ts := by
  rw [tokenize_eq_tokensOf]
  exact LaidOut.tokensOf_eq h hlegal

/-- Any legal tokens can be laid out, and so come of some line. -/
theorem exists_tokenize_eq {ts : List Token} (hlegal : ∀ t ∈ ts, t.Legal) :
    ∃ s, tokenize s = ts := by
  have hlaid : ∀ ts : List Token, ∃ cs, ∀ afterWord, LaidOut afterWord ts cs := by
    intro ts
    induction ts with
    | nil => exact ⟨[], fun _ => .nil [] (by simp)⟩
    | cons t ts ih =>
      obtain ⟨cs, hcs⟩ := ih
      have hblank : isBlank ' ' := by decide
      exact ⟨_, fun _ => .cons [' '] t (by simpa using hblank) (by simp) (hcs _)⟩
  obtain ⟨cs, hcs⟩ := hlaid ts
  refine ⟨String.ofList cs, tokenize_eq_of_isLayout hlegal ?_⟩
  rw [IsLayout, String.toList_ofList]
  exact hcs false

/-! ## Every text is a layout -/

namespace LaidOut

/-- Behind a blank it does not matter what stands before it. -/
theorem blank_cons {afterWord afterWord' : Bool} {ts : List Token} {cs : List Char} {c : Char}
    (hc : isBlank c) (h : LaidOut afterWord ts cs) : LaidOut afterWord' ts (c :: cs) := by
  cases h with
  | nil gap hgap => exact .nil (c :: cs) (List.forall_mem_cons.mpr ⟨hc, hgap⟩)
  | cons gap t hgap _ rest =>
    exact .cons (c :: gap) t (List.forall_mem_cons.mpr ⟨hc, hgap⟩) (fun _ _ => by simp) rest

/-- A layout can also stand behind a word, unless it begins with the characters of a word. -/
theorem afterWord_or {ts : List Token} {cs : List Char} (h : LaidOut false ts cs) :
    LaidOut true ts cs ∨
      ∃ w ts' cs', ts = .word w :: ts' ∧ cs = w.toList ++ cs' ∧ LaidOut true ts' cs' := by
  cases h with
  | nil gap hgap => exact .inl (.nil cs hgap)
  | cons gap t hgap _ rest =>
    cases gap with
    | cons c gap => exact .inl (.cons (c :: gap) t hgap (fun _ _ => by simp) rest)
    | nil =>
      cases t with
      | word w => exact .inr ⟨w, _, _, rfl, rfl, rest⟩
      | lparen => exact .inl (.cons [] .lparen hgap (fun _ h => by cases h) rest)
      | rparen => exact .inl (.cons [] .rparen hgap (fun _ h => by cases h) rest)

/-- A word and what may stand behind it. -/
theorem word_cons {w : String} {ts : List Token} {cs : List Char} (h : LaidOut true ts cs) :
    LaidOut false (.word w :: ts) (w.toList ++ cs) :=
  .cons [] (.word w) (by simp) (by simp) h

end LaidOut

/-- A character of a word, put in front of a layout, begins its first word or is a new one. -/
theorem exists_laidOut_wordChar {c : Char} (hc : IsWordChar c) {ts : List Token} {cs : List Char}
    (hlegal : ∀ t ∈ ts, t.Legal) (h : LaidOut false ts cs) :
    ∃ ts', (∀ t ∈ ts', t.Legal) ∧ LaidOut false ts' (c :: cs) := by
  have hword : ∀ w : List Char, (∀ x ∈ w, IsWordChar x) →
      (Token.word (String.ofList (c :: w))).Legal := by
    intro w hw
    refine ⟨by simp, ?_⟩
    rw [String.toList_ofList]
    exact List.forall_mem_cons.mpr ⟨hc, hw⟩
  rcases h.afterWord_or with hbehind | ⟨w, ts', cs', rfl, rfl, hbehind⟩
  · refine ⟨.word (String.ofList [c]) :: ts, ?_, ?_⟩
    · exact List.forall_mem_cons.mpr ⟨hword [] (by simp), hlegal⟩
    · have hlaid := hbehind.word_cons (w := String.ofList [c])
      rwa [String.toList_ofList] at hlaid
  · obtain ⟨⟨_, hchars⟩, hlegal'⟩ := List.forall_mem_cons.mp hlegal
    refine ⟨.word (String.ofList (c :: w.toList)) :: ts', ?_, ?_⟩
    · exact List.forall_mem_cons.mpr ⟨hword w.toList hchars, hlegal'⟩
    · have hlaid := hbehind.word_cons (w := String.ofList (c :: w.toList))
      rwa [String.toList_ofList] at hlaid

theorem exists_laidOut (cs : List Char) :
    ∃ ts, (∀ t ∈ ts, t.Legal) ∧ LaidOut false ts cs := by
  induction cs with
  | nil => exact ⟨[], by simp, .nil [] (by simp)⟩
  | cons c cs ih =>
    obtain ⟨ts, hlegal, h⟩ := ih
    by_cases hblank : isBlank c = true
    · exact ⟨ts, hlegal, h.blank_cons hblank⟩
    · by_cases hparen : c = '(' ∨ c = ')'
      · rcases hparen with rfl | rfl
        · exact ⟨.lparen :: ts, List.forall_mem_cons.mpr ⟨trivial, hlegal⟩,
            .cons [] .lparen (by simp) (by simp) h⟩
        · exact ⟨.rparen :: ts, List.forall_mem_cons.mpr ⟨trivial, hlegal⟩,
            .cons [] .rparen (by simp) (by simp) h⟩
      · have hchar : IsWordChar c := ⟨by simpa using hblank, not_or.mp hparen⟩
        exact exists_laidOut_wordChar hchar hlegal h

theorem legal_of_mem_tokenize {line : String} {t : Token} (h : t ∈ tokenize line) : t.Legal := by
  obtain ⟨ts, hlegal, hlaid⟩ := exists_laidOut line.toList
  rw [tokenize_eq_tokensOf, hlaid.tokensOf_eq hlegal] at h
  exact hlegal t h

/-! ## Gaps and tokens by turns -/

/-- The tokens of `parts`, each with the gap behind it, put behind the gap `gap`. -/
def interleave (gap : List Char) (parts : List (Token × List Char)) : List Char :=
  gap ++ parts.flatMap fun p => p.1.text.toList ++ p.2

/-- Between two words there is a gap. -/
def Apart (p q : Token × List Char) : Prop :=
  p.1.isParen = false → q.1.isParen = false → p.2 ≠ []

/-- All gaps are blank, and they keep the words apart. -/
structure WellSpaced (gap : List Char) (parts : List (Token × List Char)) : Prop where
  front : ∀ c ∈ gap, isBlank c
  behind : ∀ p ∈ parts, ∀ c ∈ p.2, isBlank c
  apart : parts.IsChain Apart

/-- What is well spaced is a layout, also behind a word if a first word would have a gap before it. -/
theorem WellSpaced.laidOut {parts : List (Token × List Char)} :
    ∀ {afterWord : Bool} {gap : List Char}, WellSpaced gap parts →
      (afterWord → ∀ p ∈ parts.head?, p.1.isParen = false → gap ≠ []) →
      LaidOut afterWord (parts.map Prod.fst) (interleave gap parts) := by
  induction parts with
  | nil =>
    intro afterWord gap h _
    rw [interleave, List.flatMap_nil, List.append_nil]
    exact .nil gap h.front
  | cons p parts ih =>
    intro afterWord gap h hfirst
    obtain ⟨hp, hparts⟩ := List.forall_mem_cons.mp h.behind
    obtain ⟨hnext, hchain⟩ := List.isChain_cons.mp h.apart
    -- The gap behind the first token is the one in front of the others.
    have hrest : LaidOut (!p.1.isParen) (parts.map Prod.fst) (interleave p.2 parts) :=
      ih ⟨hp, hparts, hchain⟩ fun hword q hq => hnext q hq (by simpa using hword)
    have hlaid := LaidOut.cons gap p.1 h.front (fun ha => hfirst ha p rfl) hrest
    simpa [interleave] using hlaid

theorem LaidOut.exists_wellSpaced {afterWord : Bool} {ts : List Token} {cs : List Char}
    (h : LaidOut afterWord ts cs) :
    ∃ gap parts, WellSpaced gap parts ∧
      (afterWord → ∀ p ∈ parts.head?, p.1.isParen = false → gap ≠ []) ∧
      parts.map Prod.fst = ts ∧ interleave gap parts = cs := by
  induction h with
  | nil gap hgap =>
    exact ⟨gap, [], ⟨hgap, by simp, .nil⟩, by simp, rfl, by simp [interleave]⟩
  | cons gap t hgap apart _ ih =>
    obtain ⟨behind, parts, hspaced, hfirst, rfl, rfl⟩ := ih
    refine ⟨gap, (t, behind) :: parts, ⟨hgap, ?_, ?_⟩, ?_, rfl, ?_⟩
    · exact List.forall_mem_cons.mpr ⟨hspaced.front, hspaced.behind⟩
    · refine List.isChain_cons.mpr ⟨?_, hspaced.apart⟩
      intro q hq hword
      exact hfirst (by simpa using hword) q hq
    · intro hafter p hp
      obtain rfl : (t, behind) = p := by simpa using hp
      exact apart hafter
    · simp [interleave]

/-- A layout is made of tokens and gaps by turns. -/
theorem isLayout_iff {ts : List Token} {s : String} :
    IsLayout ts s ↔ ∃ gap parts, WellSpaced gap parts ∧ parts.map Prod.fst = ts ∧
      interleave gap parts = s.toList := by
  constructor
  · intro h
    obtain ⟨gap, parts, hspaced, _, hts, hchars⟩ := h.exists_wellSpaced
    exact ⟨gap, parts, hspaced, hts, hchars⟩
  · rintro ⟨gap, parts, hspaced, rfl, hchars⟩
    rw [IsLayout, ← hchars]
    exact hspaced.laidOut (by simp)

/-! ## Nothing else -/

theorem Token.Legal.isBlank_eq_false {t : Token} (h : t.Legal) :
    ∀ c ∈ t.text.toList, isBlank c = false := by
  cases t with
  | lparen =>
    show ∀ c ∈ ['('], isBlank c = false
    rw [List.forall_mem_singleton]
    decide
  | rparen =>
    show ∀ c ∈ [')'], isBlank c = false
    rw [List.forall_mem_singleton]
    decide
  | word w => exact fun c hc => (h.2 c hc).1

/-- Without its blanks a layout is the text of its tokens. -/
theorem LaidOut.filter_eq {afterWord : Bool} {ts : List Token} {cs : List Char}
    (h : LaidOut afterWord ts cs) : (∀ t ∈ ts, t.Legal) →
      (cs.filter fun c => !isBlank c) = ts.flatMap fun t => t.text.toList := by
  have hgaps : ∀ {gap : List Char}, (∀ c ∈ gap, isBlank c) →
      (gap.filter fun c => !isBlank c) = [] := by
    intro gap hgap
    rw [List.filter_eq_nil_iff]
    intro c hc
    simp [hgap c hc]
  induction h with
  | nil gap hgap =>
    intro _
    exact hgaps hgap
  | cons gap t hgap _ _ ih =>
    intro hlegal
    obtain ⟨ht, hts⟩ := List.forall_mem_cons.mp hlegal
    have htext : (t.text.toList.filter fun c => !isBlank c) = t.text.toList := by
      rw [List.filter_eq_self]
      intro c hc
      simp [ht.isBlank_eq_false c hc]
    rw [List.filter_append, List.filter_append, hgaps hgap, htext, ih hts, List.flatMap_cons,
      List.nil_append]

/-- **A text reads as the tokens that it is a layout of.** What it reads as are legal tokens, and of
all rows of legal tokens it is the one that stands in the text with nothing but blanks around the
tokens, and some between two words. So two texts that differ in spacing alone read alike, and the
characters of a text that are no blanks are those of its tokens, in the same order. -/
theorem tokenize_eq_iff (s : String) :
    (∀ ts, tokenize s = ts ↔ (∀ t ∈ ts, t.Legal) ∧
      ∃ gap parts, WellSpaced gap parts ∧ parts.map Prod.fst = ts ∧
        interleave gap parts = s.toList) ∧
    ((tokenize s).flatMap fun t => t.text.toList) = s.toList.filter fun c => !isBlank c := by
  obtain ⟨ts, hlegal, hlaid⟩ := exists_laidOut s.toList
  have hts := tokenize_eq_of_isLayout hlegal hlaid
  constructor
  · intro ts'
    rw [← isLayout_iff]
    constructor
    · rintro rfl
      rw [hts]
      exact ⟨hlegal, hlaid⟩
    · rintro ⟨hlegal', hlaid'⟩
      exact tokenize_eq_of_isLayout hlegal' hlaid'
  · rw [hts, hlaid.filter_eq hlegal]

end PrefixArith
