/-!
# Numbers

Numbers are written as integers of any size and computed with as two's complement words of 32
bits. A word is not a type of its own here but an integer in the *signed range*
`-2 ^ 31 ≤ n < 2 ^ 31`: literals and intermediate results leave the range, and `wrap` brings them
back.

> `wrap_inRange`: a wrapped integer lies in the signed range.
> `wrap_eq_self_iff`: exactly the integers of the signed range stay as they are.
> `wrap_eq_wrap_iff`: two integers wrap alike exactly when they agree modulo `2 ^ 32`.
> `eq_wrap_iff`: there is one integer in the signed range that agrees with a given one.
> `residue_eq`: reading digits by blocks gives the residue of their exact value.
> `Literal.word_eq`: the word of a literal is its value, wrapped.
> `ofDigitChars_decimalDigits`: the digits that a number is written with read back as the number.
-/

namespace PrefixArith

/-! ## Words of 32 bits

Wrapping respects `+`, `-` and `*` (`wrap_add_wrap`, `wrap_sub_wrap`, `wrap_mul_wrap`), which is why
it does not matter how early an intermediate result is wrapped.
-/

/-- The number of values a word can hold, `2 ^ 32`. -/
def wordCount : Nat := 4294967296

/-- The integer of the signed range that agrees with `n` modulo `2 ^ 32`. -/
def wrap (n : Int) : Int := n.bmod wordCount

/-- The signed range, from `-2 ^ 31` up to but not including `2 ^ 31`. -/
def InRange (n : Int) : Prop := -2147483648 ≤ n ∧ n < 2147483648

instance (n : Int) : Decidable (InRange n) := inferInstanceAs (Decidable (_ ∧ _))

theorem wrap_inRange (n : Int) : InRange (wrap n) := by
  have lo := Int.le_bmod (x := n) (m := wordCount) (by decide)
  have hi := Int.bmod_lt (x := n) (m := wordCount) (by decide)
  simp only [InRange, wrap, wordCount] at *
  omega

theorem wrap_eq_self_iff {n : Int} : wrap n = n ↔ InRange n := by
  constructor
  · intro h
    exact h ▸ wrap_inRange n
  · rintro ⟨lo, hi⟩
    exact Int.bmod_eq_of_le (by simp only [wordCount]; omega) (by simp only [wordCount]; omega)

/-- A word agrees with the integer it came from modulo `2 ^ 32`. -/
theorem wrap_emod (n : Int) : wrap n % wordCount = n % wordCount := Int.bmod_emod

theorem wrap_eq_wrap_iff {m n : Int} : wrap m = wrap n ↔ m % wordCount = n % wordCount := by
  constructor
  · intro h
    rw [← wrap_emod m, h, wrap_emod]
  · intro h
    have agree (k : Int) : wrap (k % wordCount) = wrap k := Int.emod_bmod k wordCount
    rw [← agree m, h, agree]

theorem eq_wrap_iff {m n : Int} : m = wrap n ↔ InRange m ∧ m % wordCount = n % wordCount := by
  constructor
  · rintro rfl
    exact ⟨wrap_inRange n, wrap_emod n⟩
  · rintro ⟨hrange, hagree⟩
    rw [← wrap_eq_wrap_iff.mpr hagree, wrap_eq_self_iff.mpr hrange]

@[simp] theorem wrap_wrap (n : Int) : wrap (wrap n) = wrap n := Int.bmod_bmod

theorem wrap_add_wrap (m n : Int) : wrap (wrap m + wrap n) = wrap (m + n) := by
  simp only [wrap, Int.add_bmod_bmod, Int.bmod_add_bmod]

theorem wrap_sub_wrap (m n : Int) : wrap (wrap m - wrap n) = wrap (m - n) := by
  simp only [wrap, Int.sub_bmod_bmod, Int.bmod_sub_bmod]

theorem wrap_mul_wrap (m n : Int) : wrap (wrap m * wrap n) = wrap (m * n) := by
  simp only [wrap, Int.mul_bmod_bmod, Int.bmod_mul_bmod]

/-! ## Digits

What a row of digits stands for. `positional` is its exact value, however long the row is.
`residue` is that value modulo `2 ^ 32`, which is all that a word can keep; it reads the row in
blocks of `blockLength` digits and reduces after each, so that the numbers it computes with stay
small while the row grows.
-/

/-- The value of `c` as a digit of a base of at most sixteen. Only ASCII digits and letters
count. -/
def digitValue? (base : Nat) (c : Char) : Option Nat :=
  let value :=
    if '0' ≤ c ∧ c ≤ '9' then c.toNat - '0'.toNat
    else if 'a' ≤ c ∧ c ≤ 'f' then c.toNat - 'a'.toNat + 10
    else if 'A' ≤ c ∧ c ≤ 'F' then c.toNat - 'A'.toNat + 10
    else base
  if value < base then some value else none

/-- The digits that `cs` consists of, if it consists of digits. -/
def digits? (base : Nat) (cs : List Char) : Option (List Nat) := cs.mapM (digitValue? base)

/-- The number that the digits `ds` stand for, the most significant digit first. -/
def positional (base : Nat) (ds : List Nat) : Nat := ds.foldl (· * base + ·) 0

/-- How many digits are read before the number is reduced. -/
def blockLength : Nat := 1000

/-- Reads the digits `ds` behind the number `acc`, reducing it after every block. -/
def residueFrom (base acc : Nat) (ds : List Nat) : Nat :=
  match ds with
  | [] => acc
  | d :: ds =>
    let block := d :: ds.take (blockLength - 1)
    residueFrom base (block.foldl (· * base + ·) acc % wordCount) (ds.drop (blockLength - 1))
termination_by ds.length
decreasing_by
  rw [List.length_drop, List.length_cons]
  omega

/-- The number that `ds` stands for, modulo `2 ^ 32`. -/
def residue (base : Nat) (ds : List Nat) : Nat := residueFrom base 0 ds

/-- The number that the decimal digits `s` stand for, modulo `2 ^ 32`; none if a character is no
digit. -/
def decimalResidue? (s : String) : Option Nat := (digits? 10 s.toList).map (residue 10)

/-! ### Reading by blocks -/

/-- Reducing the number in front of a row of digits does not change what it reads as. -/
theorem foldl_emod (base acc : Nat) (ds : List Nat) :
    ds.foldl (· * base + ·) (acc % wordCount) % wordCount =
      ds.foldl (· * base + ·) acc % wordCount := by
  have agree {m n : Nat} (h : m % wordCount = n % wordCount) :
      ds.foldl (· * base + ·) m % wordCount = ds.foldl (· * base + ·) n % wordCount := by
    induction ds generalizing m n with
    | nil => exact h
    | cons d ds ih =>
      refine ih ?_
      show (m * base + d) % wordCount = (n * base + d) % wordCount
      rw [Nat.add_mod, Nat.mul_mod, h, ← Nat.mul_mod, ← Nat.add_mod]
  exact agree (Nat.mod_mod _ _)

theorem residueFrom_emod (base acc : Nat) (ds : List Nat) :
    residueFrom base acc ds % wordCount = ds.foldl (· * base + ·) acc % wordCount := by
  fun_induction residueFrom base acc ds with
  | case1 => rfl
  | case2 acc d ds block ih =>
    have whole : d :: ds = block ++ ds.drop (blockLength - 1) := by simp [block]
    rw [ih, foldl_emod, whole, List.foldl_append]

theorem residueFrom_lt {acc : Nat} (h : acc < wordCount) (base : Nat) (ds : List Nat) :
    residueFrom base acc ds < wordCount := by
  fun_induction residueFrom base acc ds with
  | case1 => exact h
  | case2 acc d ds block ih => exact ih (Nat.mod_lt _ (by decide))

theorem residue_eq (base : Nat) (ds : List Nat) :
    residue base ds = positional base ds % wordCount := by
  have h := residueFrom_emod base 0 ds
  rwa [Nat.mod_eq_of_lt (residueFrom_lt (by decide) base ds)] at h

/-! ## Integer literals

A literal is an optional sign and a number, written in decimal or, behind `0x`, `0o` or `0b`, in
base sixteen, eight or two. An underscore may stand between two decimal digits, and in front of any
digit behind one of the letters; leading zeros mean nothing. A literal is the whole of its text.

The text gives sign, base and digits, and those give the number in two ways: `value` is exact,
`word` is what fits in 32 bits and is read without ever computing the value.
-/

/-- An integer as it is written. -/
structure Literal where
  /-- Whether there is a minus sign. -/
  negative : Bool
  /-- Two, eight, ten or sixteen. -/
  base : Nat
  /-- The values of the digits, the most significant first. -/
  digits : List Nat
deriving DecidableEq, Repr

namespace Literal

/-- The digits of `cs`, each of which may have an underscore in front of it. -/
def spacedDigits? (base : Nat) : (cs : List Char) → Option (List Nat)
  | [] => some []
  | '_' :: c :: cs =>
    match digitValue? base c, spacedDigits? base cs with
    | some d, some ds => some (d :: ds)
    | _, _ => none
  | c :: cs =>
    match digitValue? base c, spacedDigits? base cs with
    | some d, some ds => some (d :: ds)
    | _, _ => none

/-- The base that a zero and a letter announce, and the text behind them. -/
def announcedBase? : (cs : List Char) → Option (Nat × List Char)
  | '0' :: letter :: cs =>
    if letter = 'x' ∨ letter = 'X' then some (16, cs)
    else if letter = 'o' ∨ letter = 'O' then some (8, cs)
    else if letter = 'b' ∨ letter = 'B' then some (2, cs)
    else none
  | _ => none

/-- The literal of a text without its sign. -/
def unsigned? (negative : Bool) (cs : List Char) : Option Literal :=
  match announcedBase? cs with
  | some (base, cs) =>
    match spacedDigits? base cs with
    | some (d :: ds) => some ⟨negative, base, d :: ds⟩
    | _ => none
  | none =>
    match cs with
    | '_' :: _ => none
    | cs =>
      match spacedDigits? 10 cs with
      | some (d :: ds) => some ⟨negative, 10, d :: ds⟩
      | _ => none

/-- The literal that `cs` is, if it is one. -/
def ofChars? : (cs : List Char) → Option Literal
  | '+' :: cs => unsigned? false cs
  | '-' :: cs => unsigned? true cs
  | cs => unsigned? false cs

/-- The literal that `s` is, if it is one. -/
def ofString? (s : String) : Option Literal := ofChars? s.toList

/-- Gives `n` the sign of the literal. -/
def signed (l : Literal) (n : Nat) : Int := if l.negative then -(n : Int) else n

/-- The number that the literal stands for. -/
def value (l : Literal) : Int := l.signed (positional l.base l.digits)

/-- The number that the literal stands for, as a word of 32 bits. -/
def word (l : Literal) : Int := wrap (l.signed (residue l.base l.digits))

theorem word_eq (l : Literal) : l.word = wrap l.value := by
  have h := residue_eq l.base l.digits
  rw [word, value, wrap_eq_wrap_iff, signed, signed]
  split <;> simp only [wordCount] at * <;> omega

theorem word_inRange (l : Literal) : InRange l.word := wrap_inRange _

end Literal

/-! ## Decimal notation

How an integer is written: decimal digits without leading zeros, with a minus sign in front of a
negative number and nothing in front of any other.
-/

/-- The digits of a natural number, the most significant first. -/
def decimalDigits (n : Nat) : List Char := Nat.toDigits 10 n

/-- The notation of an integer. -/
def decimal : Int → String
  | .ofNat n => String.ofList (decimalDigits n)
  | .negSucc n => String.ofList ('-' :: decimalDigits (n + 1))

theorem isDigit_of_mem_decimalDigits {n : Nat} {c : Char} (h : c ∈ decimalDigits n) : c.isDigit :=
  Nat.isDigit_of_mem_toDigits (by decide) (by decide) h

theorem decimalDigits_ne_nil (n : Nat) : decimalDigits n ≠ [] := Nat.toDigits_ne_nil

/-- The digits of a number tell the number. -/
theorem ofDigitChars_decimalDigits (n : Nat) : Nat.ofDigitChars 10 (decimalDigits n) 0 = n :=
  Nat.ofDigitChars_toDigits (by decide) (by decide)

end PrefixArith
