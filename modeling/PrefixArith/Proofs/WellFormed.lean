import PrefixArith.Expr
import PrefixArith.Token

/-!
# Well-formed trees and their values

The trees that a line can be read as: their numbers are words of 32 bits, their names can be told
from numbers and from parens, every list has an operand, and lists lie inside one another at most
`maxDepth` deep. `Expr.subst` is such a tree with its names replaced by what they are bound to, just
where `Expr.text` shows the values; so a shown tree reads as the substituted one.

The values in such a tree are those that words stand for. A number is written in decimal notation,
without underscores and with a sign only if it is negative: one of the many forms of a literal. The
literal reader gives the number back:

> `Literal.ofString?_decimal`: the notation of an integer is a literal with that value.
> `Value.ofWord_text`: the text of a value that words stand for is a word that stands for it.

In the other direction a word that can come of a line always stands for such a value
(`Value.wellFormed_ofWord`).
-/

namespace PrefixArith

/-! ## Well-formed trees -/

/-- A word that reads as a name. -/
def IsName (w : String) : Prop := (Token.word w).Legal ∧ Literal.ofString? w = none

instance (w : String) : Decidable (IsName w) := inferInstanceAs (Decidable (_ ∧ _))

/-- A value that a word stands for. -/
def Value.WellFormed : Value → Prop
  | .num n => InRange n
  | .ref name => IsName name

/-- Every value bound is one that a word stands for. -/
def Env.WellFormed (env : Env) : Prop := ∀ name v, env.get? name = some v → v.WellFormed

namespace Expr

/-- A tree of values that words stand for and of lists with operands. -/
inductive WellFormed : Expr → Prop where
  | atom {v : Value} (hv : v.WellFormed) : WellFormed (.atom v)
  | list {op : Operator} {es : List Expr} (hne : es ≠ []) (hes : ∀ e ∈ es, WellFormed e) :
      WellFormed (.list op es)

mutual

/-- The tree with bound names replaced by their values, those that `define` binds excepted. -/
def subst (env : Env) : Expr → Expr
  | .atom v => .atom (v.resolve env)
  | .foreignAtom s => .foreignAtom s
  | .foreign s => .foreign s
  | .list .define (.atom (.ref name) :: es) => .list .define (.atom (.ref name) :: substAll env es)
  | .list op es => .list op (substAll env es)

/-- Each of `es` with its bound names replaced. -/
def substAll (env : Env) : List Expr → List Expr
  | [] => []
  | e :: es => e.subst env :: substAll env es

end

theorem substAll_eq_map (env : Env) (es : List Expr) : substAll env es = es.map (subst env) := by
  induction es with
  | nil => rfl
  | cons e es ih => rw [substAll, ih, List.map_cons]

theorem subst_list {op : Operator} {es : List Expr} (h : ¬DefinesName op es) (env : Env) :
    (list op es).subst env = .list op (substAll env es) := by
  rw [subst]
  exact fun name es' hop hes => h ⟨name, es', hop, hes⟩

/-- A well-formed tree can be shown. -/
theorem WellFormed.fault?_eq_none {e : Expr} (h : e.WellFormed) : e.fault? = none := by
  induction h with
  | atom => rfl
  | list hne _ ih =>
    unfold fault?
    split
    · rfl
    · rfl
    · next heq => cases heq
    · next heq =>
      cases heq
      exact absurd rfl hne
    · next heq =>
      cases heq
      exact firstFault?_eq_none_iff.2 ih

end Expr

/-! ## Digits -/

/-- What a digit counts for. -/
def digitOf (c : Char) : Nat := c.toNat - '0'.toNat

theorem toNat_of_isDigit {c : Char} (h : c.isDigit) : 48 ≤ c.toNat ∧ c.toNat ≤ 57 := by
  simp only [Char.isDigit, Bool.and_eq_true, decide_eq_true_eq, ge_iff_le,
    UInt32.le_iff_toNat_le] at h
  exact h

theorem digitValue?_of_isDigit {c : Char} (h : c.isDigit) :
    digitValue? 10 c = some (digitOf c) := by
  obtain ⟨hlow, hhigh⟩ := toNat_of_isDigit h
  have hrange : '0' ≤ c ∧ c ≤ '9' := by
    simpa [Char.le_def, UInt32.le_iff_toNat_le] using ⟨hlow, hhigh⟩
  have hlt : c.toNat - '0'.toNat < 10 := by
    show c.toNat - 48 < 10
    omega
  rw [digitValue?, if_pos hrange]
  simp only [hlt, if_true, digitOf]

/-- What digits stand for is what any reader of decimal notation makes of them. -/
theorem positional_map_digitOf (cs : List Char) :
    positional 10 (cs.map digitOf) = Nat.ofDigitChars 10 cs 0 := by
  rw [positional, List.foldl_map, Nat.ofDigitChars]
  congr 1
  funext m c
  rw [Nat.mul_comm]
  rfl

namespace Literal

theorem spacedDigits?_of_isDigit {cs : List Char} (h : ∀ c ∈ cs, c.isDigit) :
    spacedDigits? 10 cs = some (cs.map digitOf) := by
  induction cs with
  | nil => rfl
  | cons c cs ih =>
    obtain ⟨hc, hcs⟩ := List.forall_mem_cons.mp h
    rw [spacedDigits?, digitValue?_of_isDigit hc, ih hcs]
    · rfl
    · -- An underscore is no digit, so it is the last rule that applies.
      rintro _ _ rfl
      exact absurd hc (by decide)

/-- Digits announce no base: that takes a letter. -/
theorem announcedBase?_of_isDigit {cs : List Char} (h : ∀ c ∈ cs, c.isDigit) :
    announcedBase? cs = none := by
  unfold announcedBase?
  split
  · next letter rest =>
    have hletter : letter.isDigit := h letter (by simp)
    have hne : ∀ c : Char, c.isDigit = false → letter ≠ c := by
      rintro c hc rfl
      rw [hletter] at hc
      cases hc
    simp [hne 'x' (by decide), hne 'X' (by decide), hne 'o' (by decide), hne 'O' (by decide),
      hne 'b' (by decide), hne 'B' (by decide)]
  · rfl

theorem unsigned?_of_isDigit (negative : Bool) {cs : List Char} (hne : cs ≠ [])
    (h : ∀ c ∈ cs, c.isDigit) :
    unsigned? negative cs = some ⟨negative, 10, cs.map digitOf⟩ := by
  obtain ⟨c, cs, rfl⟩ := List.exists_cons_of_ne_nil hne
  rw [unsigned?, announcedBase?_of_isDigit h]
  · simp only [spacedDigits?_of_isDigit h, List.map_cons]
  · -- The first digit is no underscore.
    rintro tail ⟨⟩
    exact absurd (h '_' List.mem_cons_self) (by decide)

theorem positional_decimalDigits (n : Nat) :
    positional 10 ((decimalDigits n).map digitOf) = n := by
  rw [positional_map_digitOf, ofDigitChars_decimalDigits]

/-- Digits without a sign in front are read as a number without one. -/
theorem ofChars?_of_isDigit {cs : List Char} (h : ∀ c ∈ cs, c.isDigit) :
    ofChars? cs = unsigned? false cs := by
  unfold ofChars?
  split
  · exact absurd (h '+' List.mem_cons_self) (by decide)
  · exact absurd (h '-' List.mem_cons_self) (by decide)
  · rfl

/-- **The notation of an integer is a literal**, and its value is that integer. -/
theorem ofString?_decimal (n : Int) : ∃ l, ofString? (decimal n) = some l ∧ l.value = n := by
  have hdigit : ∀ m, ∀ c ∈ decimalDigits m, c.isDigit := fun m c => isDigit_of_mem_decimalDigits
  cases n with
  | ofNat m =>
    refine ⟨⟨false, 10, (decimalDigits m).map digitOf⟩, ?_, ?_⟩
    · rw [ofString?, decimal, String.toList_ofList, ofChars?_of_isDigit (hdigit m),
        unsigned?_of_isDigit false (decimalDigits_ne_nil m) (hdigit m)]
    · show ((positional 10 ((decimalDigits m).map digitOf) : Nat) : Int) = m
      rw [positional_decimalDigits]
  | negSucc m =>
    refine ⟨⟨true, 10, (decimalDigits (m + 1)).map digitOf⟩, ?_, ?_⟩
    · rw [ofString?, decimal, String.toList_ofList]
      exact unsigned?_of_isDigit true (decimalDigits_ne_nil _) (hdigit _)
    · show -((positional 10 ((decimalDigits (m + 1)).map digitOf) : Nat) : Int) = Int.negSucc m
      rw [positional_decimalDigits]
      rfl

end Literal

/-! ## Values -/

theorem isWordChar_of_isDigit {c : Char} (h : c.isDigit) : IsWordChar c := by
  obtain ⟨hlow, hhigh⟩ := toNat_of_isDigit h
  refine ⟨?_, ?_, ?_⟩
  · simp only [isBlank, blankRanges, List.any_cons, List.any_nil, Bool.or_false,
      Bool.or_eq_false_iff, Bool.and_eq_false_iff, decide_eq_false_iff_not]
    omega
  · rintro rfl
    exact absurd h (by decide)
  · rintro rfl
    exact absurd h (by decide)

theorem legal_decimal (n : Int) : (Token.word (decimal n)).Legal := by
  have hchar : ∀ m, ∀ c ∈ decimalDigits m, IsWordChar c :=
    fun m c hc => isWordChar_of_isDigit (isDigit_of_mem_decimalDigits hc)
  cases n with
  | ofNat m =>
    refine ⟨by simpa [decimal] using decimalDigits_ne_nil m, ?_⟩
    rw [decimal, String.toList_ofList]
    exact hchar m
  | negSucc m =>
    refine ⟨by simp [decimal], ?_⟩
    rw [decimal, String.toList_ofList]
    exact List.forall_mem_cons.mpr ⟨⟨by decide, by decide, by decide⟩, hchar (m + 1)⟩

namespace Value

/-- A number in range is read back as it is, and a name is no number. -/
theorem ofWord_text {v : Value} (h : v.WellFormed) : ofWord v.text = v := by
  cases v with
  | num n =>
    obtain ⟨l, hl, hvalue⟩ := Literal.ofString?_decimal n
    rw [text, ofWord, hl]
    show num l.word = num n
    rw [l.word_eq, hvalue, wrap_eq_self_iff.mpr h]
  | ref name => exact ofWord_eq_ref_iff.mpr ⟨h.2, rfl⟩

theorem legal_text {v : Value} (h : v.WellFormed) : (Token.word v.text).Legal := by
  cases v with
  | num n => exact legal_decimal n
  | ref name => exact h.1

theorem wellFormed_ofWord {w : String} (h : (Token.word w).Legal) : (ofWord w).WellFormed := by
  cases hv : ofWord w with
  | num n => exact inRange_of_ofWord hv
  | ref name =>
    obtain ⟨hnone, rfl⟩ := ofWord_eq_ref_iff.mp hv
    exact ⟨h, hnone⟩

end Value

end PrefixArith
