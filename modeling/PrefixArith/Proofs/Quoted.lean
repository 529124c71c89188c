import PrefixArith.Proofs.Residue

/-!
# Quoted text is read back

What `quote` writes can be read again, one character of the text at a time and without looking ahead:
an escape tells by its second character how long it is, and neither an escape nor a character that
stands for itself begins with the delimiter. Nothing of this depends on which characters are printable.

> `readCode?_hexDigits`: a number that has room in its digits is read from them.
> `readUnit?_escape`: what a character is written as reads as that character, whatever follows.
> `quote_append_inj`: quoted texts are told apart even in front of other text, so a quoted text ends
> where it can be seen.
-/

namespace PrefixArith

/-! ## One character -/

/-- The character whose code point the first `width` characters of `cs` are, and what is behind
them. -/
def readCode? (width : Nat) (cs : List Char) : Option (Char × List Char) :=
  (digits? 16 (cs.take width)).map fun ds => (Char.ofNat (positional 16 ds), cs.drop width)

/-- The character that an escape stands for, read behind its backslash, and what is behind it. -/
def readEscape? : (cs : List Char) → Option (Char × List Char)
  | [] => none
  | 'x' :: cs => readCode? 2 cs
  | 'u' :: cs => readCode? 4 cs
  | 'U' :: cs => readCode? 8 cs
  | 'n' :: cs => some ('\n', cs)
  | 'r' :: cs => some ('\r', cs)
  | 't' :: cs => some ('\t', cs)
  | c :: cs => some (c, cs)

/-- What a text between delimiters `d` goes on with: a character, or none if it ends. -/
def readUnit? (d : Char) : (cs : List Char) → Option (Option Char × List Char)
  | [] => none
  | c :: cs =>
    if c = d then some (none, cs)
    else if c = '\\' then (readEscape? cs).map fun p => (some p.1, p.2)
    else some (some c, cs)

theorem exists_digits?_hexDigits (width n : Nat) :
    ∃ ds, digits? 16 (hexDigits width n) = some ds ∧ positional 16 ds = n % 16 ^ width := by
  have hdigit : ∀ k < 16, digits? 16 [Nat.digitChar k] = some [k] := by decide
  induction width generalizing n with
  | zero => exact ⟨[], rfl, by rw [Nat.pow_zero, Nat.mod_one]; rfl⟩
  | succ width ih =>
    obtain ⟨ds, hds, hvalue⟩ := ih (n / 16)
    have hlast := hdigit (n % 16) (Nat.mod_lt _ (by decide))
    refine ⟨ds ++ [n % 16], ?_, ?_⟩
    · rw [hexDigits, digits?_append, hds, hlast]
      rfl
    · rw [positional_append, hvalue, Nat.pow_succ, Nat.mul_comm (16 ^ width), Nat.mod_mul]
      show n / 16 % 16 ^ width * 16 ^ 1 + (0 * 16 + n % 16) = _
      omega

/-- A code point that has room in its digits is read from them. -/
theorem readCode?_hexDigits {width : Nat} {c : Char} (h : c.toNat < 16 ^ width) (cs : List Char) :
    readCode? width (hexDigits width c.toNat ++ cs) = some (c, cs) := by
  obtain ⟨ds, hds, hvalue⟩ := exists_digits?_hexDigits width c.toNat
  rw [Nat.mod_eq_of_lt h] at hvalue
  rw [readCode?, List.take_left' (length_hexDigits _ _), List.drop_left' (length_hexDigits _ _), hds,
    Option.map_some, hvalue, Char.ofNat_toNat]

theorem exists_escapeCode (c : Char) :
    ∃ letters, escapeCode c.toNat = '\\' :: letters ∧
      ∀ cs, readEscape? (letters ++ cs) = some (c, cs) := by
  unfold escapeCode
  split
  · exact ⟨_, rfl, readCode?_hexDigits (by omega)⟩
  · split
    · exact ⟨_, rfl, readCode?_hexDigits (by omega)⟩
    · exact ⟨_, rfl, readCode?_hexDigits c.val.toNat_lt⟩

/-- Both delimiters are read behind a backslash as they are. -/
theorem readUnit?_escape {d : Char} (hd : d = apostrophe ∨ d = doubleQuote) (c : Char)
    (cs : List Char) : readUnit? d (escape d c ++ cs) = some (some c, cs) := by
  have hbackslash : '\\' ≠ d := by
    rcases hd with rfl | rfl
    · decide
    · decide
  -- An escape is a backslash, which is no delimiter, and letters that read as the character.
  have hescape : ∀ letters, readEscape? (letters ++ cs) = some (c, cs) →
      readUnit? d ('\\' :: letters ++ cs) = some (some c, cs) := by
    intro letters h
    rw [List.cons_append, readUnit?, if_neg hbackslash, if_pos rfl, h]
    rfl
  unfold escape
  split
  · next hc =>
    refine hescape [c] ?_
    rcases hc with rfl | rfl
    · rfl
    · rcases hd with rfl | rfl
      · rfl
      · rfl
  · next hc =>
    rw [not_or] at hc
    split
    · next letter hletter =>
      refine hescape [letter] ?_
      unfold escapeLetter? at hletter
      split at hletter <;> cases hletter <;> rfl
    · split
      · rw [List.singleton_append, readUnit?, if_neg hc.2, if_neg hc.1]
      · obtain ⟨letters, hletters, hread⟩ := exists_escapeCode c
        rw [hletters]
        exact hescape letters (hread cs)

theorem readUnit?_delimiter (d : Char) (cs : List Char) : readUnit? d (d :: cs) = some (none, cs) := by
  rw [readUnit?, if_pos rfl]

/-! ## Whole texts -/

/-- The characters between two delimiters, and what is behind the second, are determined by what is
behind the first. -/
theorem flatMap_escape_inj {d : Char} (hd : d = apostrophe ∨ d = doubleQuote)
    {s t xs ys : List Char}
    (h : s.flatMap (escape d) ++ d :: xs = t.flatMap (escape d) ++ d :: ys) : s = t ∧ xs = ys := by
  have hread := congrArg (readUnit? d) h
  induction s generalizing t with
  | nil =>
    rw [List.flatMap_nil, List.nil_append, readUnit?_delimiter] at hread
    cases t with
    | nil =>
      injection h with _ hrest
      exact ⟨rfl, hrest⟩
    | cons c t =>
      rw [List.flatMap_cons, List.append_assoc, readUnit?_escape hd] at hread
      cases hread
  | cons c s ih =>
    rw [List.flatMap_cons, List.append_assoc, readUnit?_escape hd] at hread
    cases t with
    | nil =>
      rw [List.flatMap_nil, List.nil_append, readUnit?_delimiter] at hread
      cases hread
    | cons c' t =>
      rw [List.flatMap_cons, List.append_assoc, readUnit?_escape hd] at hread
      injection hread with hread
      injection hread with hc hrest
      injection hc with hc
      obtain ⟨rfl, hbehind⟩ := ih hrest (congrArg (readUnit? d) hrest)
      exact ⟨by rw [hc], hbehind⟩

/-- **A quoted text ends where it can be seen**: it can be told from any other, and from what is behind
it. -/
theorem quote_append_inj {s t : String} {xs ys : List Char}
    (h : (quote s).toList ++ xs = (quote t).toList ++ ys) : s = t ∧ xs = ys := by
  rw [quote_toList, quote_toList, List.cons_append, List.cons_append, List.cons_append,
    List.cons_append, List.append_assoc, List.append_assoc, List.singleton_append,
    List.singleton_append] at h
  injection h with hd hrest
  rw [hd] at hrest
  obtain ⟨hchars, hbehind⟩ := flatMap_escape_inj (delimiter_eq _) hrest
  exact ⟨String.toList_injective hchars, hbehind⟩

theorem quote_inj {s t : String} : quote s = quote t ↔ s = t := by
  constructor
  · intro h
    exact (@quote_append_inj s t [] [] (by rw [h])).1
  · rintro rfl
    rfl

end PrefixArith
