import Mathlib.Data.List.Forall2
import Mathlib.Tactic.Ring
import PrefixArith.Proofs.Literal
import PrefixArith.Proofs.WellFormed

/-!
# Decimal numbers of any length

A row of decimal digits is read in blocks, and the number is reduced after each of them, so where the
blocks begin and end could show in the result, in particular the last one, which may be short. It does
not: what comes out is the residue of the number that all digits together stand for.

> `digits?_ten_eq_some_iff`: rows of digits and what they are read as.
> `residue_append`: the residue of two rows, one behind the other, from the residues of both.
> `decimalResidue?_eq_some_iff`: the number is the one that the standard library reads from the digits.

The number can also be left to a reader of whole texts that may refuse one, for its form or for its
length. If it is good for what literals are made of, and takes a block of decimal digits at once, it
never refuses, and it gives out what the digits are worth:

> `NatReader.Reads.value?_eq`: the value of a word does not depend on who reads its number.
> `NatReader.reads_limited`: a limit on the length of decimal numbers does no harm if a block is below.
> `NatReader.blocks?_limited`: reading the blocks as texts, and moving what was read before by as many
> places as a block has, comes to the same.
-/

namespace PrefixArith

/-! ## Rows of digits -/

/-- A row is read digit by digit. -/
theorem digits?_eq_some_iff {base : Nat} {cs : List Char} :
    ∀ {ds : List Nat}, digits? base cs = some ds ↔
      List.Forall₂ (fun c d => digitValue? base c = some d) cs ds := by
  unfold digits?
  induction cs with
  | nil =>
    intro ds
    simp [eq_comm]
  | cons c cs ih =>
    intro ds
    simp only [List.mapM_cons, Option.bind_eq_bind, Option.bind_eq_some_iff, Option.pure_def,
      Option.some.injEq, List.forall₂_cons_left_iff, ih]
    constructor
    · intro h
      obtain ⟨d, hd, ds', hds, rfl⟩ := h
      exact ⟨d, ds', hd, hds, rfl⟩
    · intro h
      obtain ⟨d, ds', hd, hds, rfl⟩ := h
      exact ⟨d, hd, ds', hds, rfl⟩

theorem digitValue?_ten_eq_some_iff {c : Char} {d : Nat} :
    digitValue? 10 c = some d ↔ c.isDigit ∧ digitOf c = d := by
  constructor
  · intro h
    have hdigit : c.isDigit := by
      rw [digitValue?_eq_some_iff_toNat] at h
      rw [Char.isDigit_iff_toNat]
      show 48 ≤ c.toNat ∧ c.toNat ≤ 57
      omega
    rw [digitValue?_of_isDigit hdigit] at h
    exact ⟨hdigit, Option.some.inj h⟩
  · rintro ⟨hdigit, rfl⟩
    exact digitValue?_of_isDigit hdigit

/-- A row is read if it is made of digits, each of them by itself. -/
theorem digits?_ten_eq_some_iff {cs : List Char} {ds : List Nat} :
    digits? 10 cs = some ds ↔ (∀ c ∈ cs, c.isDigit) ∧ cs.map digitOf = ds := by
  rw [digits?_eq_some_iff]
  simp only [digitValue?_ten_eq_some_iff]
  rw [List.forall₂_and_left, ← List.forall₂_eq_eq_eq, List.forall₂_map_left_iff]

theorem digits?_append (base : Nat) (xs ys : List Char) :
    digits? base (xs ++ ys) =
      (digits? base xs).bind fun ds => (digits? base ys).map fun es => ds ++ es := by
  rw [digits?, List.mapM_append, ← digits?, ← digits?]
  cases digits? base xs with
  | none => rfl
  | some ds => cases digits? base ys <;> rfl

/-! ## Residues -/

/-- A number in front of a row of digits counts as many places more as there are digits. -/
theorem foldl_eq_add_positional (base : Nat) (ds : List Nat) :
    ∀ acc, ds.foldl (· * base + ·) acc = acc * base ^ ds.length + positional base ds := by
  unfold positional
  induction ds with
  | nil => intro acc; simp
  | cons d ds ih =>
    intro acc
    rw [List.foldl_cons, List.foldl_cons, ih, ih (0 * base + d), List.length_cons, Nat.pow_succ]
    ring

theorem positional_append (base : Nat) (ds es : List Nat) :
    positional base (ds ++ es) = positional base ds * base ^ es.length + positional base es := by
  rw [positional, List.foldl_append, foldl_eq_add_positional]
  rfl

/-- Blocks are counted from the first digit of a row, so the second row is cut differently here and
there. -/
theorem residue_append (base : Nat) (ds es : List Nat) :
    residue base (ds ++ es) =
      (residue base ds * base ^ es.length + residue base es) % wordCount := by
  rw [residue_eq, residue_eq, residue_eq, positional_append]
  simp [Nat.add_mod, Nat.mul_mod]

/-- A text has a residue if it is made of digits, and that is the one of its number. -/
theorem decimalResidue?_eq_some_iff {s : String} {n : Nat} :
    decimalResidue? s = some n ↔
      (∀ c ∈ s.toList, c.isDigit) ∧ n = Nat.ofDigitChars 10 s.toList 0 % wordCount := by
  unfold decimalResidue?
  simp only [Option.map_eq_some_iff, digits?_ten_eq_some_iff]
  constructor
  · rintro ⟨ds, ⟨hdigits, rfl⟩, rfl⟩
    rw [residue_eq, positional_map_digitOf]
    exact ⟨hdigits, rfl⟩
  · rintro ⟨hdigits, rfl⟩
    refine ⟨_, ⟨hdigits, rfl⟩, ?_⟩
    rw [residue_eq, positional_map_digitOf]

theorem decimalResidue?_append (s t : String) :
    decimalResidue? (s ++ t) =
      (decimalResidue? s).bind fun m => (decimalResidue? t).map fun n =>
        (m * 10 ^ t.length + n) % wordCount := by
  unfold decimalResidue?
  rw [String.toList_append, digits?_append]
  cases digits? 10 s.toList with
  | none => rfl
  | some ds =>
    cases ht : digits? 10 t.toList with
    | none => rfl
    | some es =>
      have hlength : t.length = es.length := by
        rw [← (digits?_eq_some_iff.mp ht).length_eq, String.length_toList]
      show some (residue 10 (ds ++ es)) = some _
      rw [residue_append, hlength]

/-! ## Numbers read in pieces

A reader of whole texts is given what stands behind the sign: a number that announces its base as it is
written, and decimal digits block by block. `NatReader.limited` is such a reader, with a limit on the
length of decimal numbers only.
-/

/-- Reads numbers without a sign, and may refuse to. -/
structure NatReader where
  /-- Reads decimal digits. -/
  decimal? : List Char → Option Nat
  /-- Reads a number in the base that it announces. -/
  announced? : List Char → Option Nat

namespace NatReader

/-- Reads decimal digits behind the number `acc`, block by block, reducing it after every block. -/
def blocks? (r : NatReader) (acc : Nat) (cs : List Char) : Option Nat :=
  match cs with
  | [] => some acc
  | c :: cs =>
    let block := c :: cs.take (blockLength - 1)
    match r.decimal? block with
    | some n => blocks? r ((acc * 10 ^ block.length + n) % wordCount) (cs.drop (blockLength - 1))
    | none => none
termination_by cs.length
decreasing_by
  rw [List.length_drop, List.length_cons]
  omega

/-- The number behind the sign of a literal in the given base, modulo `2 ^ 32`. The digits of a decimal
number are read without the underscores between them. -/
def number? (r : NatReader) (base : Nat) (body : List Char) : Option Nat :=
  if base = 10 then r.blocks? 0 (body.filter (· ≠ '_')) else r.announced? body

/-- The value that a word stands for, its number read behind its sign. -/
def value? (r : NatReader) (w : String) : Option Value :=
  match Literal.ofString? w with
  | some l =>
    (r.number? l.base (w.toList.dropWhile fun c => c = '+' ∨ c = '-')).map fun n =>
      .num (wrap (l.signed n))
  | none => some (.ref w)

/-- The number of decimal digits that `limited` takes at once. -/
def digitLimit : Nat := 4300

/-- Takes numbers of any length that announce their base, and decimal numbers up to `digitLimit`. -/
def limited : NatReader where
  decimal? cs :=
    match digits? 10 cs with
    | some (d :: ds) => if cs.length ≤ digitLimit then some (positional 10 (d :: ds)) else none
    | _ => none
  announced? cs :=
    match Literal.announcedBase? cs with
    | some (base, cs) =>
      match Literal.spacedDigits? base cs with
      | some (d :: ds) => some (positional base (d :: ds))
      | _ => none
    | none => none

end NatReader

/-! ## What a reader is relied on for -/

/-- Without its underscores a row of digits is the digits alone. -/
theorem Spaced.digits?_filter {base : Nat} {cs : List Char} {ds : List Nat}
    (h : Spaced base cs ds) : digits? base (cs.filter (· ≠ '_')) = some ds := by
  have hkept : ∀ {c d} {cs : List Char}, digitValue? base c = some d →
      (c :: cs).filter (· ≠ '_') = c :: cs.filter (· ≠ '_') := by
    intro c d cs hd
    refine List.filter_cons_of_pos ?_
    rw [decide_eq_true_eq]
    intro hc
    rw [hc, digitValue?_underscore] at hd
    cases hd
  rw [digits?_eq_some_iff]
  induction h with
  | nil => exact .nil
  | digit hd _ ih =>
    rw [hkept hd]
    exact .cons hd ih
  | underscore hd _ ih =>
    rw [List.filter_cons_of_neg (by simp), hkept hd]
    exact .cons hd ih

/-- A number begins with a digit, so the sign in front of it ends where it begins. -/
theorem Literal.Written.number_dropWhile {l : Literal} {cs : List Char} (h : l.Written cs) :
    Number l.base (cs.dropWhile fun c => c = '+' ∨ c = '-') l.digits := by
  obtain ⟨negative, base, ds⟩ := l
  obtain ⟨sign, body, rfl, hsign, hbody⟩ := h
  dsimp only at hsign hbody ⊢
  have hdrop : body.dropWhile (fun c => c = '+' ∨ c = '-') = body := by
    have hhead := hbody.head?_ne_sign
    cases body with
    | nil => rfl
    | cons c cs => exact List.dropWhile_cons_of_neg (by simpa using hhead c rfl)
  cases hsign with
  | none => rwa [List.nil_append, hdrop]
  | plus => rwa [List.singleton_append, List.dropWhile_cons_of_pos (by decide), hdrop]
  | minus => rwa [List.singleton_append, List.dropWhile_cons_of_pos (by decide), hdrop]

/-- What is relied on: decimal digits are read, at least one and no more than make a block, and so are
numbers that announce their base. -/
structure NatReader.Reads (r : NatReader) : Prop where
  decimal : ∀ cs ds, cs ≠ [] → cs.length ≤ blockLength → digits? 10 cs = some ds →
    r.decimal? cs = some (positional 10 ds)
  announced : ∀ base letter cs ds, Literal.Announces base letter → Spaced base cs ds → ds ≠ [] →
    r.announced? ('0' :: letter :: cs) = some (positional base ds)

namespace NatReader.Reads

variable {r : NatReader} (hr : r.Reads)
include hr

/-- Decimal digits are read, as no block is empty and none is too long. -/
theorem blocks?_eq {acc : Nat} {cs : List Char} :
    ∀ ds, digits? 10 cs = some ds → r.blocks? acc cs = some (residueFrom 10 acc ds) := by
  -- A block of characters and the block of their digits.
  have hblock : ∀ {c d cs ds}, digits? 10 (c :: cs) = some (d :: ds) →
      r.decimal? (c :: cs.take (blockLength - 1))
          = some (positional 10 (d :: ds.take (blockLength - 1))) ∧
        (c :: cs.take (blockLength - 1)).length = (d :: ds.take (blockLength - 1)).length ∧
        digits? 10 (cs.drop (blockLength - 1)) = some (ds.drop (blockLength - 1)) := by
    intro c d cs ds h
    cases digits?_eq_some_iff.mp h with
    | cons hd hds =>
      have htake : List.Forall₂ (fun c d => digitValue? 10 c = some d)
          (c :: cs.take (blockLength - 1)) (d :: ds.take (blockLength - 1)) :=
        .cons hd (List.forall₂_take _ hds)
      refine ⟨hr.decimal _ _ (by simp) ?_ (digits?_eq_some_iff.mpr htake), htake.length_eq, ?_⟩
      · rw [List.length_cons, List.length_take]
        unfold blockLength
        omega
      · exact digits?_eq_some_iff.mpr (List.forall₂_drop _ hds)
  fun_induction NatReader.blocks? r acc cs with
  | case1 acc =>
    intro ds h
    obtain rfl : ds = [] := by simpa using digits?_eq_some_iff.mp h
    rw [residueFrom]
  | case2 acc c cs block n hn ih =>
    intro ds h
    obtain ⟨d, ds, hd, hds, rfl⟩ := List.forall₂_cons_left_iff.mp (digits?_eq_some_iff.mp h)
    obtain ⟨hread, hlength, hrest⟩ := hblock h
    rw [hread] at hn
    injection hn with hn
    rw [ih _ hrest, residueFrom, foldl_eq_add_positional, hn, hlength]
  | case3 acc c cs block hn =>
    intro ds h
    obtain ⟨d, ds, hd, hds, rfl⟩ := List.forall₂_cons_left_iff.mp (digits?_eq_some_iff.mp h)
    rw [(hblock h).1] at hn
    cases hn

theorem exists_number? {base : Nat} {body : List Char} {ds : List Nat}
    (h : Literal.Number base body ds) :
    ∃ n, r.number? base body = some n ∧ n % wordCount = residue base ds := by
  unfold NatReader.number?
  cases h with
  | decimal hd rest =>
    rw [if_pos rfl, hr.blocks?_eq _ (Spaced.digit hd rest).digits?_filter]
    exact ⟨_, rfl, Nat.mod_eq_of_lt (residueFrom_lt (by decide) 10 _)⟩
  | announced hletter digits hne =>
    have hbase : base ≠ 10 := by
      intro hten
      subst hten
      cases hletter
    rw [if_neg hbase, hr.announced _ _ _ _ hletter digits hne]
    exact ⟨_, rfl, (residue_eq base ds).symm⟩

/-- **A literal never asks for more than the reader is relied on for**, and what it gives out stands
for the value of the word. -/
theorem value?_eq (w : String) : r.value? w = some (Value.ofWord w) := by
  unfold NatReader.value? Value.ofWord
  cases hl : Literal.ofString? w with
  | none => rfl
  | some l =>
    have hnumber := (Literal.written_of_ofString? hl).number_dropWhile
    obtain ⟨n, hn, hresidue⟩ := hr.exists_number? hnumber
    have hword : wrap (l.signed n) = l.word := by
      rw [Literal.word, wrap_eq_wrap_iff, Literal.signed, Literal.signed, ← hresidue]
      split
      · simp only [wordCount]
        omega
      · simp only [wordCount]
        omega
    show (r.number? l.base _).map (fun n => Value.num (wrap (l.signed n))) = some (.num l.word)
    rw [hn, Option.map_some, hword]

end NatReader.Reads

/-- A block is short enough for a reader that takes no more than `digitLimit` digits. -/
theorem NatReader.reads_limited : limited.Reads where
  decimal := by
    intro cs ds hne hlength hds
    have hfits : cs.length ≤ digitLimit := Nat.le_trans hlength (by decide)
    have hcount := (digits?_eq_some_iff.mp hds).length_eq
    cases ds with
    | nil => exact absurd (List.length_eq_zero_iff.mp hcount) hne
    | cons d ds =>
      unfold limited
      simp only [hds, if_pos hfits]
  announced := by
    intro base letter cs ds hletter hspaced hne
    obtain ⟨d, ds, rfl⟩ := List.exists_cons_of_ne_nil hne
    unfold limited
    simp only [Literal.announcedBase?_of_announces hletter,
      Literal.spacedDigits?_of_spaced hspaced]

/-! ## Blocks read as texts -/

namespace NatReader

/-- If the blocks that a reader takes consist of digits, so do the rows that it takes in blocks. -/
theorem exists_digits?_of_blocks? {r : NatReader}
    (hblock : ∀ cs n, r.decimal? cs = some n → ∃ ds, digits? 10 cs = some ds)
    {acc : Nat} {cs : List Char} :
    ∀ n, r.blocks? acc cs = some n → ∃ ds, digits? 10 cs = some ds := by
  fun_induction NatReader.blocks? r acc cs with
  | case1 => exact fun _ _ => ⟨[], rfl⟩
  | case2 acc c cs block n hn ih =>
    intro m h
    obtain ⟨ds, hds⟩ := hblock _ _ hn
    obtain ⟨es, hes⟩ := ih m h
    have whole : c :: cs = block ++ cs.drop (blockLength - 1) := by simp [block]
    rw [whole, digits?_append, hds, hes]
    exact ⟨ds ++ es, rfl⟩
  | case3 =>
    intro n h
    cases h

theorem exists_digits?_of_limited (cs : List Char) (n : Nat) (h : limited.decimal? cs = some n) :
    ∃ ds, digits? 10 cs = some ds := by
  unfold limited at h
  dsimp only at h
  split at h
  · next hds => exact ⟨_, hds⟩
  · cases h

theorem blocks?_limited (cs : List Char) :
    limited.blocks? 0 cs = (digits? 10 cs).map (residue 10) := by
  cases hds : digits? 10 cs with
  | some ds => exact reads_limited.blocks?_eq ds hds
  | none =>
    rw [Option.map_none, Option.eq_none_iff_forall_ne_some]
    intro n hn
    obtain ⟨ds, hsome⟩ := exists_digits?_of_blocks? exists_digits?_of_limited n hn
    rw [hds] at hsome
    cases hsome

end NatReader

/-! ## The statement as a whole -/

/-- **Reading by blocks gives the residue of the number**, for decimal digits in any number and for
nothing else; it makes no difference whether the blocks are read as texts, behind what was read before
them. So the residue of a row and another behind it comes of their residues and the length of the
second, wherever blocks end in the two and in both together. -/
theorem decimalResidue?_exact :
    (∀ s n, decimalResidue? s = some n ↔
      (∀ c ∈ s.toList, c.isDigit) ∧ n = Nat.ofDigitChars 10 s.toList 0 % 2 ^ 32) ∧
    (∀ s, NatReader.limited.blocks? 0 s.toList = decimalResidue? s) ∧
    ∀ s t, decimalResidue? (s ++ t) =
      (decimalResidue? s).bind fun m => (decimalResidue? t).map fun n =>
        (m * 10 ^ t.length + n) % 2 ^ 32 := by
  refine ⟨?_, ?_, decimalResidue?_append⟩
  · intro s n
    exact decimalResidue?_eq_some_iff
  · intro s
    exact NatReader.blocks?_limited s.toList

end PrefixArith
