import PrefixArith.Env

/-!
# Literals as they are written

What `Literal.ofString?` accepts is what is written as `Literal.Written` says, and nothing else. So
the number of a literal is a row of digits, with single underscores between them, that may announce
its base, and a word stands for a number exactly if it is written so:

> `digitValue?_eq_some_iff`: the digits of a base are the numerals below it, in either case.
> `Literal.ofString?_eq_some_iff`: a literal is a text that is written as one.
> `Value.ofWord_exact`: a word is the number that it is written as, wrapped, or else a name.
-/

namespace PrefixArith

/-! ## The forms of a literal

The grammar of integer literals as a relation: which texts are a given literal. A literal has many
forms, as letters have two cases and underscores come and go.
-/

/-- The text `cs` is the digits `ds`, each with or without an underscore in front of it. -/
inductive Spaced (base : Nat) : (cs : List Char) → (ds : List Nat) → Prop where
  | nil : Spaced base [] []
  | digit {c : Char} {d : Nat} {cs : List Char} {ds : List Nat}
      (hd : digitValue? base c = some d) (rest : Spaced base cs ds) : Spaced base (c :: cs) (d :: ds)
  | underscore {c : Char} {d : Nat} {cs : List Char} {ds : List Nat}
      (hd : digitValue? base c = some d) (rest : Spaced base cs ds) :
      Spaced base ('_' :: c :: cs) (d :: ds)

namespace Literal

/-- The signs that a literal can be written with. -/
inductive Sign : (negative : Bool) → (cs : List Char) → Prop where
  | none : Sign false []
  | plus : Sign false ['+']
  | minus : Sign true ['-']

/-- The letters that announce a base behind a zero. -/
inductive Announces : (base : Nat) → (letter : Char) → Prop where
  | x : Announces 16 'x'
  | X : Announces 16 'X'
  | o : Announces 8 'o'
  | O : Announces 8 'O'
  | b : Announces 2 'b'
  | B : Announces 2 'B'

/-- The text `cs` is the number with the digits `ds`. -/
inductive Number : (base : Nat) → (cs : List Char) → (ds : List Nat) → Prop where
  /-- In decimal the first digit stands without an underscore. -/
  | decimal {c : Char} {d : Nat} {cs : List Char} {ds : List Nat}
      (hd : digitValue? 10 c = some d) (rest : Spaced 10 cs ds) : Number 10 (c :: cs) (d :: ds)
  | announced {base : Nat} {letter : Char} {cs : List Char} {ds : List Nat}
      (hletter : Announces base letter) (digits : Spaced base cs ds) (hne : ds ≠ []) :
      Number base ('0' :: letter :: cs) ds

/-- The text `cs` is a form of the literal. -/
def Written (l : Literal) (cs : List Char) : Prop :=
  ∃ sign body, cs = sign ++ body ∧ Sign l.negative sign ∧ Number l.base body l.digits

end Literal

/-! ## Digits -/

/-- The numerals from zero to fifteen. -/
def numerals : List Char := "0123456789abcdef".toList

/-- The digits lie in three runs of code points. -/
theorem digitValue?_eq_some_iff_toNat {base d : Nat} {c : Char} :
    digitValue? base c = some d ↔ d < base ∧
      (d < 10 ∧ c.toNat = d + 48 ∨ 10 ≤ d ∧ d < 16 ∧ (c.toNat = d + 87 ∨ c.toNat = d + 55)) := by
  unfold digitValue?
  simp only [Option.ite_none_right_eq_some, Option.some.injEq, Char.le_def, UInt32.le_iff_toNat_le,
    Char.toNat_val, Char.reduceToNat]
  split
  · omega
  · split
    · omega
    · split
      · omega
      · omega

/-- The digits of a base are the numerals below it, in either case, and nothing else. -/
theorem digitValue?_eq_some_iff {base d : Nat} {c : Char} :
    digitValue? base c = some d ↔
      d < base ∧ ∃ x, numerals[d]? = some x ∧ (c = x ∨ c = x.toUpper) := by
  have table : ∀ p ∈ numerals.zipIdx,
      if p.2 < 10 then p.1.toNat = p.2 + 48 ∧ p.1.toUpper = p.1
      else p.1.toNat = p.2 + 87 ∧ p.1.toUpper.toNat = p.2 + 55 := by
    decide
  rw [digitValue?_eq_some_iff_toNat, and_congr_right_iff]
  intro _
  by_cases hd : d < 16
  · have hx : numerals[d]? = some numerals[d] := List.getElem?_eq_getElem hd
    have hcodes := table (numerals[d], d) (List.mem_zipIdx_iff_getElem?.mpr hx)
    dsimp only at hcodes
    simp only [hx, Option.some.injEq, exists_eq_left']
    rw [← Char.toNat_inj, ← Char.toNat_inj]
    split at hcodes
    · rw [hcodes.2]
      omega
    · omega
  · have hnone : numerals[d]? = none := List.getElem?_eq_none (Nat.le_of_not_lt hd)
    simp only [hnone, reduceCtorEq, false_and, exists_false, iff_false]
    omega

/-! ## Literals as they are written -/

theorem digitValue?_underscore (base : Nat) : digitValue? base '_' = none := by
  simp [digitValue?]

namespace Literal

theorem spaced_of_spacedDigits? {base : Nat} {cs : List Char} :
    ∀ ds, spacedDigits? base cs = some ds → Spaced base cs ds := by
  fun_induction spacedDigits? base cs with
  | case1 =>
    intro ds h
    cases h
    exact .nil
  | case2 c cs d ds' hds hd ih =>
    intro ds h
    cases h
    exact .underscore hd (ih ds' hds)
  | case4 c cs _ d ds' hds hd ih =>
    intro ds h
    cases h
    exact .digit hd (ih ds' hds)
  | case3 | case5 =>
    intro ds h
    cases h

theorem spacedDigits?_of_spaced {base : Nat} {cs : List Char} {ds : List Nat}
    (h : Spaced base cs ds) : spacedDigits? base cs = some ds := by
  induction h with
  | nil => rfl
  | digit hd _ ih =>
    rw [spacedDigits?, hd, ih]
    rintro _ _ rfl
    rw [digitValue?_underscore] at hd
    cases hd
  | underscore hd _ ih => rw [spacedDigits?, hd, ih]

theorem announces_of_announcedBase? {base : Nat} {cs rest : List Char}
    (h : announcedBase? cs = some (base, rest)) :
    ∃ letter, cs = '0' :: letter :: rest ∧ Announces base letter := by
  unfold announcedBase? at h
  split at h
  · next letter tail =>
    split at h
    · next hx =>
      cases h
      rcases hx with rfl | rfl
      · exact ⟨_, rfl, .x⟩
      · exact ⟨_, rfl, .X⟩
    · split at h
      · next ho =>
        cases h
        rcases ho with rfl | rfl
        · exact ⟨_, rfl, .o⟩
        · exact ⟨_, rfl, .O⟩
      · split at h
        · next hb =>
          cases h
          rcases hb with rfl | rfl
          · exact ⟨_, rfl, .b⟩
          · exact ⟨_, rfl, .B⟩
        · cases h
  · cases h

theorem number_of_unsigned? {negative : Bool} {cs : List Char} {l : Literal}
    (h : unsigned? negative cs = some l) : l.negative = negative ∧ Number l.base cs l.digits := by
  unfold unsigned? at h
  split at h
  · next base rest hbase =>
    obtain ⟨letter, rfl, hletter⟩ := announces_of_announcedBase? hbase
    split at h
    · next d ds hds =>
      cases h
      exact ⟨rfl, .announced hletter (spaced_of_spacedDigits? _ hds) (by simp)⟩
    · cases h
  · split at h
    · cases h
    · next hhead =>
      split at h
      · next d ds hds =>
        cases h
        refine ⟨rfl, ?_⟩
        have hspaced := spaced_of_spacedDigits? _ hds
        cases hspaced with
        | digit hd rest => exact .decimal hd rest
        | underscore hd rest => exact absurd rfl (hhead _)
      · cases h

theorem written_of_ofString? {w : String} {l : Literal} (h : ofString? w = some l) :
    l.Written w.toList := by
  unfold ofString? ofChars? at h
  split at h
  · next cs hcs =>
    obtain ⟨hsign, hnumber⟩ := number_of_unsigned? h
    exact ⟨['+'], cs, hcs, hsign ▸ .plus, hnumber⟩
  · next cs hcs =>
    obtain ⟨hsign, hnumber⟩ := number_of_unsigned? h
    exact ⟨['-'], cs, hcs, hsign ▸ .minus, hnumber⟩
  · obtain ⟨hsign, hnumber⟩ := number_of_unsigned? h
    exact ⟨[], _, rfl, hsign ▸ .none, hnumber⟩

/-! ## What is written is read -/

theorem announcedBase?_of_announces {base : Nat} {letter : Char}
    (h : Announces base letter) (cs : List Char) :
    announcedBase? ('0' :: letter :: cs) = some (base, cs) := by
  cases h with
  | x | X | o | O | b | B => rfl

/-- A letter that announces a base is no decimal digit, so a number in decimal does not look like one
in another base, although both may begin with a zero. -/
theorem announcedBase?_of_spaced {c : Char} {cs : List Char} {ds : List Nat}
    (h : Spaced 10 cs ds) : announcedBase? (c :: cs) = none := by
  cases hbase : announcedBase? (c :: cs) with
  | none => rfl
  | some announced =>
    obtain ⟨base, rest⟩ := announced
    obtain ⟨letter, hcs, hletter⟩ := announces_of_announcedBase? hbase
    injection hcs with _ hcs
    subst hcs
    have hnone : digitValue? 10 letter = none := by
      cases hletter with
      | x | X | o | O | b | B => decide
    cases h with
    | digit hd _ =>
      rw [hnone] at hd
      cases hd
    | underscore _ _ => cases hletter

theorem unsigned?_of_number {base : Nat} {cs : List Char} {ds : List Nat}
    (h : Number base cs ds) (negative : Bool) :
    unsigned? negative cs = some ⟨negative, base, ds⟩ := by
  unfold unsigned?
  cases h with
  | announced hletter digits hne =>
    obtain ⟨d, ds, rfl⟩ := List.exists_cons_of_ne_nil hne
    simp only [announcedBase?_of_announces hletter, spacedDigits?_of_spaced digits]
  | decimal hd rest =>
    rw [announcedBase?_of_spaced rest]
    dsimp only
    split
    · next hhead =>
      injection hhead with hc _
      rw [hc, digitValue?_underscore] at hd
      cases hd
    · rw [spacedDigits?_of_spaced (.digit hd rest)]

/-- A number begins with a digit. -/
theorem Number.head?_ne_sign {base : Nat} {cs : List Char} {ds : List Nat}
    (h : Number base cs ds) : ∀ c ∈ cs.head?, ¬(c = '+' ∨ c = '-') := by
  intro c hc
  cases h with
  | decimal hd rest =>
    injection hc with hc
    subst hc
    rintro (rfl | rfl)
    · exact absurd hd (by simp [digitValue?])
    · exact absurd hd (by simp [digitValue?])
  | announced hletter digits hne =>
    injection hc with hc
    subst hc
    decide

/-- **A literal is a text that is written as one**, and no text is written as two. -/
theorem ofString?_eq_some_iff {w : String} {l : Literal} :
    ofString? w = some l ↔ l.Written w.toList := by
  constructor
  · exact written_of_ofString?
  · obtain ⟨negative, base, ds⟩ := l
    rintro ⟨sign, body, hw, hsign, hbody⟩
    dsimp only at hsign hbody
    rw [ofString?, hw]
    cases hsign with
    | plus => exact unsigned?_of_number hbody false
    | minus => exact unsigned?_of_number hbody true
    | none =>
      have hhead := hbody.head?_ne_sign
      rw [List.nil_append, ← unsigned?_of_number hbody false]
      unfold ofChars?
      split
      · exact absurd (.inl rfl) (hhead '+' rfl)
      · exact absurd (.inr rfl) (hhead '-' rfl)
      · rfl

end Literal

/-- **A word that is written as a literal is a number, and every other word is a name.** Digits are the
numerals of the base, in either case. The number is the one in the signed range that agrees with the
value of the literal modulo `2 ^ 32`, however long the literal is; the name is the word as it is. -/
theorem Value.ofWord_exact :
    (∀ base d c, digitValue? base c = some d ↔
      d < base ∧ ∃ x, numerals[d]? = some x ∧ (c = x ∨ c = x.toUpper)) ∧
    (∀ w n, ofWord w = .num n ↔
      ∃ l : Literal, l.Written w.toList ∧ InRange n ∧ n % wordCount = l.value % wordCount) ∧
    ∀ w name, ofWord w = .ref name ↔ (∀ l : Literal, ¬l.Written w.toList) ∧ name = w := by
  refine ⟨fun base d c => digitValue?_eq_some_iff, ?_, ?_⟩
  · intro w n
    simp only [← eq_wrap_iff, ← Literal.ofString?_eq_some_iff]
    rw [ofWord]
    cases Literal.ofString? w with
    | none => simp
    | some l => simp [l.word_eq, eq_comm]
  · intro w name
    simp only [← Literal.ofString?_eq_some_iff]
    rw [ofWord_eq_ref_iff, Option.eq_none_iff_forall_ne_some]

end PrefixArith
