import PrefixArith.Number

/-!
# Values and environments

A value is a number or a name. A word that is an integer literal stands for a number, which is
always in the signed range (`Value.inRange_of_ofWord`); every other word is a name, and is kept as
it is written (`Value.ofWord_eq_ref_iff`).

An environment is what names are bound to. It is kept as a list of bindings in ascending order of their
names, one for each name, so that two environments that bind alike are equal:

> `get?_insert`: a binding is seen under its own name and nowhere else.
> `Env.ext`: an environment is determined by what `get?` finds in it.
-/

namespace PrefixArith

/-! ## Values -/

/-- What a name can be bound to, and what evaluation gives. -/
inductive Value where
  | num (n : Int)
  | ref (name : String)
deriving DecidableEq, Repr

namespace Value

/-- The value that a word stands for. -/
def ofWord (w : String) : Value :=
  match Literal.ofString? w with
  | some l => .num l.word
  | none => .ref w

/-- The text of a value: a number in decimal notation, a name as it is. -/
def text : Value → String
  | .num n => decimal n
  | .ref name => name

theorem inRange_of_ofWord {w : String} {n : Int} (h : ofWord w = .num n) : InRange n := by
  unfold ofWord at h
  split at h <;> cases h
  exact Literal.word_inRange _

theorem ofWord_eq_ref_iff {w name : String} :
    ofWord w = .ref name ↔ Literal.ofString? w = none ∧ name = w := by
  unfold ofWord
  split
  · next h => simp [h]
  · next h => simp [h, eq_comm]

end Value

/-! ## Environments -/

/-- Bindings of names to values. -/
structure Env where
  entries : List (String × Value)
  sorted : entries.Pairwise (·.1 < ·.1)

namespace Env

/-- The value of the first binding of `name`. -/
def findEntry (name : String) : List (String × Value) → Option Value
  | [] => none
  | e :: es => if name = e.1 then some e.2 else findEntry name es

/-- The bindings `es` with `name` bound to `v`, in its place in the order. -/
def insertEntry (name : String) (v : Value) : List (String × Value) → List (String × Value)
  | [] => [(name, v)]
  | e :: es =>
    if name < e.1 then (name, v) :: e :: es
    else if e.1 < name then e :: insertEntry name v es
    else (name, v) :: es

theorem eq_of_not_lt {a b : String} (hab : ¬a < b) (hba : ¬b < a) : a = b :=
  String.le_antisymm (String.not_lt.1 hba) (String.not_lt.1 hab)

theorem mem_insertEntry {name : String} {v : Value} {es : List (String × Value)}
    {e : String × Value} (h : e ∈ insertEntry name v es) : e = (name, v) ∨ e ∈ es := by
  induction es with
  | nil => simpa [insertEntry] using h
  | cons x es ih =>
    rw [insertEntry] at h
    split at h
    · simpa using h
    · split at h
      · rcases List.mem_cons.1 h with rfl | h
        · simp
        · rcases ih h with h | h <;> simp [h]
      · rcases List.mem_cons.1 h with rfl | h <;> simp [*]

theorem sorted_insertEntry {name : String} {v : Value} {es : List (String × Value)}
    (h : es.Pairwise (·.1 < ·.1)) : (insertEntry name v es).Pairwise (·.1 < ·.1) := by
  induction es with
  | nil => simp [insertEntry]
  | cons x es ih =>
    obtain ⟨hx, hes⟩ := List.pairwise_cons.1 h
    rw [insertEntry]
    split
    · next hlt =>
      refine List.pairwise_cons.2 ⟨fun e he => ?_, h⟩
      rcases List.mem_cons.1 he with rfl | he
      · exact hlt
      · exact String.lt_trans hlt (hx e he)
    · split
      · next hgt =>
        refine List.pairwise_cons.2 ⟨fun e he => ?_, ih hes⟩
        rcases mem_insertEntry he with rfl | he
        · exact hgt
        · exact hx e he
      · next hlt hgt =>
        have hname : name = x.1 := eq_of_not_lt hlt hgt
        exact List.pairwise_cons.2 ⟨fun e he => hname ▸ hx e he, hes⟩

/-- No bindings. -/
def empty : Env := ⟨[], .nil⟩

instance : EmptyCollection Env := ⟨empty⟩
instance : Inhabited Env := ⟨empty⟩

/-- What `name` is bound to. -/
def get? (env : Env) (name : String) : Option Value := findEntry name env.entries

/-- Binds `name` to `v`, whatever it was bound to before. -/
def insert (env : Env) (name : String) (v : Value) : Env :=
  ⟨insertEntry name v env.entries, sorted_insertEntry env.sorted⟩

/-- Makes the bindings of `es` one after another. -/
def insertAll (env : Env) (es : List (String × Value)) : Env :=
  es.foldl (fun env e => env.insert e.1 e.2) env

/-- The environment of the bindings `es`; of two for one name the later counts. -/
def ofList (es : List (String × Value)) : Env := empty.insertAll es

/-! ### Finding what was bound -/

theorem findEntry_insertEntry (name x : String) (v : Value) (es : List (String × Value)) :
    findEntry x (insertEntry name v es) = if x = name then some v else findEntry x es := by
  induction es with
  | nil => rfl
  | cons e es ih =>
    rw [insertEntry]
    split
    · rfl
    · split
      · next hgt =>
        by_cases h : x = e.1
        · have hne : e.1 ≠ name := fun hx => String.lt_irrefl name (by rwa [hx] at hgt)
          simp [findEntry, h, hne]
        · simp [findEntry, h, ih]
      · next hlt hgt =>
        have hname : name = e.1 := eq_of_not_lt hlt hgt
        by_cases h : x = name
        · simp [findEntry, h]
        · simp [findEntry, h, ← hname]

theorem get?_insert (env : Env) (name x : String) (v : Value) :
    (env.insert name v).get? x = if x = name then some v else env.get? x :=
  findEntry_insertEntry name x v env.entries

@[simp] theorem get?_insert_self (env : Env) (name : String) (v : Value) :
    (env.insert name v).get? name = some v := by
  simp [get?_insert]

theorem get?_insert_of_ne {name x : String} (h : x ≠ name) (env : Env) (v : Value) :
    (env.insert name v).get? x = env.get? x := by
  simp [get?_insert, h]

/-! ### Environments that bind alike -/

theorem findEntry_eq_none {name : String} {es : List (String × Value)}
    (h : ∀ e ∈ es, name < e.1) : findEntry name es = none := by
  induction es with
  | nil => rfl
  | cons e es ih =>
    have hne : name ≠ e.1 := fun heq => String.lt_irrefl name (by simpa [← heq] using h e)
    rw [findEntry, if_neg hne, ih fun x hx => h x (List.mem_cons_of_mem _ hx)]

/-- No name before the first one is bound. -/
theorem findEntry_eq_none_of_lt_head {name : String} {e : String × Value}
    {es : List (String × Value)} (he : ∀ x ∈ es, e.1 < x.1) (h : name < e.1) :
    findEntry name (e :: es) = none := by
  refine findEntry_eq_none fun x hx => ?_
  rcases List.mem_cons.1 hx with rfl | hx
  · exact h
  · exact String.lt_trans h (he x hx)

theorem entries_eq_of_findEntry_eq {es fs : List (String × Value)} (hes : es.Pairwise (·.1 < ·.1))
    (hfs : fs.Pairwise (·.1 < ·.1)) (h : ∀ name, findEntry name es = findEntry name fs) :
    es = fs := by
  induction es generalizing fs with
  | nil =>
    cases fs with
    | nil => rfl
    | cons f fs => simpa [findEntry] using h f.1
  | cons e es ih =>
    cases fs with
    | nil => simpa [findEntry] using h e.1
    | cons f fs =>
      obtain ⟨he, hes⟩ := List.pairwise_cons.1 hes
      obtain ⟨hf, hfs⟩ := List.pairwise_cons.1 hfs
      have hkey : e.1 = f.1 := by
        refine eq_of_not_lt (fun hlt => ?_) (fun hgt => ?_)
        · have := h e.1
          rw [findEntry_eq_none_of_lt_head hf hlt] at this
          simp [findEntry] at this
        · have := h f.1
          rw [findEntry_eq_none_of_lt_head he hgt] at this
          simp [findEntry] at this
      have hvalue : e.2 = f.2 := by simpa [findEntry, hkey] using h e.1
      have hrest : es = fs := by
        refine ih hes hfs fun name => ?_
        by_cases hname : name = e.1
        · rw [hname, findEntry_eq_none he, hkey, findEntry_eq_none hf]
        · simpa [findEntry, hname, hkey ▸ hname] using h name
      rw [hrest, Prod.ext hkey hvalue]

@[ext] theorem ext {env env' : Env} (h : ∀ name, env.get? name = env'.get? name) : env = env' := by
  obtain ⟨es, hes⟩ := env
  obtain ⟨fs, hfs⟩ := env'
  have : es = fs := entries_eq_of_findEntry_eq hes hfs h
  subst this
  rfl

theorem insert_insert_self (env : Env) (name : String) (v w : Value) :
    (env.insert name v).insert name w = env.insert name w := by
  ext x
  simp only [get?_insert]
  split <;> rfl

theorem insert_comm {name name' : String} (h : name ≠ name') (env : Env) (v w : Value) :
    (env.insert name v).insert name' w = (env.insert name' w).insert name v := by
  ext x
  simp only [get?_insert]
  by_cases hx : x = name
  · simp [hx, h]
  · simp [hx]

end Env

end PrefixArith
