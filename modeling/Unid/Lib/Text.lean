import Mathlib.Data.List.TakeWhile
import Mathlib.Data.Int.Basic

/-!
# Reading text the C way

C and C++ read a piece of text up to a point that the text itself decides: a C
string up to its first NUL, an integer from the first character that is not white
space through the digits after an optional sign, a word up to the next white
space.  Each reader comes with the shape of the texts it reads.

## Main definitions

* `cString` — the characters before the first NUL.
* `extractWord`, `IsWord` — a word, as stream extraction reads it.
* `decimal`, `IsNumeral` — decimal numerals.
* `readInt`, `ReadsInt` — an integer, as `strtol` reads it, and the texts that begin with one.
-/

namespace Unid.Lib

/-- The terminating character. -/
def nul : Char := Char.ofNat 0

/-- `isspace` in the C locale. -/
def isSpace (c : Char) : Bool := c.toNat == 32 || (9 ≤ c.toNat && c.toNat ≤ 13)

section Stop
variable {α : Type} {p : α → Bool} {l r : List α}

/-- What is read while `p` holds is what comes before the first stop. -/
theorem takeWhile_append_of_stop (hl : ∀ x ∈ l, p x = true)
    (hr : ∀ x, r.head? = some x → p x = false) : (l ++ r).takeWhile p = l := by
  rw [List.takeWhile_append_of_pos hl]
  cases r with
  | nil => simp
  | cons x r => simp [hr x rfl]

/-- What is left is what comes from the first stop on. -/
theorem dropWhile_append_of_stop (hl : ∀ x ∈ l, p x = true)
    (hr : ∀ x, r.head? = some x → p x = false) : (l ++ r).dropWhile p = r := by
  rw [List.dropWhile_append_of_pos hl]
  cases r with
  | nil => rfl
  | cons x r => simp [hr x rfl]

/-- What is left begins with a stop. -/
theorem stop_of_head?_dropWhile {x : α} (hx : (l.dropWhile p).head? = some x) : p x = false := by
  have hnot := List.head?_dropWhile_not p l
  rw [hx] at hnot
  simpa using hnot

end Stop

/-! ## C strings -/

/-- The C string at the start of these characters, if it ends among them. -/
def cString (cs : List Char) : Option (List Char) :=
  if nul ∈ cs then some (cs.takeWhile (· != nul)) else none

/-- A C string is what stands before a first NUL. -/
theorem cString_eq_some_iff {cs name : List Char} :
    cString cs = some name ↔ nul ∉ name ∧ ∃ after, cs = name ++ nul :: after := by
  constructor
  · intro h
    unfold cString at h
    split at h
    · next hnul =>
        obtain rfl := Option.some.inj h
        have hbefore : nul ∉ cs.takeWhile (· != nul) := by
          intro hmem
          simpa using List.mem_takeWhile_imp hmem
        refine ⟨hbefore, ?_⟩
        have hsplit := List.takeWhile_append_dropWhile (p := (· != nul)) (l := cs)
        cases hafter : cs.dropWhile (· != nul) with
        | nil =>
            rw [hafter, List.append_nil] at hsplit
            exact absurd (hsplit.symm ▸ hnul) hbefore
        | cons c after =>
            have hc := stop_of_head?_dropWhile (p := (· != nul)) (l := cs) (x := c)
              (by rw [hafter]; rfl)
            obtain rfl : c = nul := by simpa using hc
            rw [hafter] at hsplit
            exact ⟨after, hsplit.symm⟩
    · cases h
  · rintro ⟨hname, after, rfl⟩
    rw [cString, if_pos (by simp), takeWhile_append_of_stop]
    · intro c hc
      have hne : c ≠ nul := fun h => hname (h ▸ hc)
      simpa using hne
    · simp

/-! ## Words -/

/-- The first word, as `>>` extracts it. -/
def extractWord (cs : List Char) : Option (List Char) :=
  let word := (cs.dropWhile isSpace).takeWhile (!isSpace ·)
  if word.isEmpty then none else some word

/-- A word: something without white space. -/
def IsWord (cs : List Char) : Prop := cs ≠ [] ∧ ∀ c ∈ cs, isSpace c = false

theorem isWord_of_extractWord {cs word : List Char} (h : extractWord cs = some word) :
    IsWord word := by
  simp only [extractWord] at h
  split at h
  · cases h
  · next hne =>
      obtain rfl := Option.some.inj h
      refine ⟨by simpa using hne, ?_⟩
      intro c hc
      simpa using List.mem_takeWhile_imp hc

theorem length_le_of_extractWord {cs word : List Char} (h : extractWord cs = some word) :
    word.length ≤ cs.length := by
  simp only [extractWord] at h
  split at h
  · cases h
  · obtain rfl := Option.some.inj h
    exact (List.takeWhile_sublist _).length_le.trans (List.dropWhile_sublist _).length_le

theorem extractWord_of_isWord {cs : List Char} (h : IsWord cs) : extractWord cs = some cs := by
  obtain ⟨hne, hword⟩ := h
  have hdrop : cs.dropWhile isSpace = cs :=
    dropWhile_append_of_stop (l := []) (by simp) (fun c hc => hword c (List.mem_of_head? hc))
  have htake : cs.takeWhile (!isSpace ·) = cs :=
    List.takeWhile_eq_self_iff.mpr (by simpa using hword)
  simp only [extractWord, hdrop, htake]
  rw [if_neg (by simpa using hne)]

/-! ## Integers -/

/-- The value of a string of decimal digits. -/
def decimal (cs : List Char) : ℕ := cs.foldl (fun n c => 10 * n + (c.toNat - 48)) 0

/-- The decimal numerals of `n`. -/
structure IsNumeral (cs : List Char) (n : ℕ) : Prop where
  ne_nil : cs ≠ []
  digits : ∀ c ∈ cs, c.isDigit = true
  value : decimal cs = n

/-- An optional sign, and what follows it. -/
def splitSign : List Char → Bool × List Char
  | '-' :: cs => (true, cs)
  | '+' :: cs => (false, cs)
  | cs => (false, cs)

/-- The integer with this sign and these digits. -/
def signed (negative : Bool) (digits : List Char) : ℤ :=
  if negative then -(decimal digits : ℤ) else decimal digits

/-- The integer at the start of a text, after any white space; what follows is not looked at. -/
def readInt (cs : List Char) : Option ℤ :=
  let (negative, cs) := splitSign (cs.dropWhile isSpace)
  let digits := cs.takeWhile Char.isDigit
  if digits.isEmpty then none else some (signed negative digits)

/-- A text that begins with an integer: white space, a sign, digits, and something else. -/
def ReadsInt (cs : List Char) (v : ℤ) : Prop :=
  ∃ blanks sign digits rest, cs = blanks ++ (sign ++ (digits ++ rest)) ∧
    (∀ c ∈ blanks, isSpace c = true) ∧ (sign = [] ∨ sign = ['+'] ∨ sign = ['-']) ∧
    digits ≠ [] ∧ (∀ c ∈ digits, c.isDigit = true) ∧
    (∀ c, rest.head? = some c → c.isDigit = false) ∧ v = signed (sign == ['-']) digits

theorem isSpace_of_isDigit {c : Char} (h : c.isDigit = true) : isSpace c = false := by
  simp only [Char.isDigit, Bool.and_eq_true, decide_eq_true_eq, ge_iff_le, UInt32.le_iff_toNat_le]
    at h
  have hlow : 48 ≤ c.toNat := h.1
  simp only [isSpace, Bool.or_eq_false_iff, Bool.and_eq_false_iff, beq_eq_false_iff_ne,
    decide_eq_false_iff_not]
  omega

/-- What `splitSign` takes off is a sign, or nothing. -/
theorem splitSign_eq (cs : List Char) :
    ∃ sign, (sign = [] ∨ sign = ['+'] ∨ sign = ['-']) ∧
      cs = sign ++ (splitSign cs).2 ∧ (splitSign cs).1 = (sign == ['-']) := by
  unfold splitSign
  split
  · exact ⟨['-'], by simp, rfl, by simp⟩
  · exact ⟨['+'], by simp, rfl, by simp⟩
  · exact ⟨[], by simp, rfl, by simp⟩

/-- A sign before a digit is taken off whole. -/
theorem splitSign_append {sign : List Char} (hsign : sign = [] ∨ sign = ['+'] ∨ sign = ['-'])
    {d : Char} (hd : d.isDigit = true) (cs : List Char) :
    splitSign (sign ++ d :: cs) = (sign == ['-'], d :: cs) := by
  rcases hsign with rfl | rfl | rfl
  · have hminus : d ≠ '-' := by rintro rfl; cases hd
    have hplus : d ≠ '+' := by rintro rfl; cases hd
    simp [splitSign, hminus, hplus]
  · rfl
  · rfl

theorem readsInt_of_readInt {cs : List Char} {v : ℤ} (h : readInt cs = some v) :
    ReadsInt cs v := by
  obtain ⟨sign, hsign, hsplit, hneg⟩ := splitSign_eq (cs.dropWhile isSpace)
  simp only [readInt] at h
  generalize splitSign (cs.dropWhile isSpace) = after at h hsplit hneg
  split at h
  · cases h
  · next hne =>
      refine ⟨cs.takeWhile isSpace, sign, after.2.takeWhile Char.isDigit,
        after.2.dropWhile Char.isDigit, ?_, fun c => List.mem_takeWhile_imp, hsign,
        fun heq => hne (List.isEmpty_iff.mpr heq), fun c => List.mem_takeWhile_imp,
        fun c => stop_of_head?_dropWhile, ?_⟩
      · rw [List.takeWhile_append_dropWhile, ← hsplit, List.takeWhile_append_dropWhile]
      · rw [← hneg]
        exact (Option.some.inj h).symm

theorem readInt_of_readsInt {cs : List Char} {v : ℤ} (h : ReadsInt cs v) :
    readInt cs = some v := by
  obtain ⟨blanks, sign, digits, rest, rfl, hblanks, hsign, hne, hdigits, hrest, rfl⟩ := h
  obtain ⟨d, ds, rfl⟩ := List.exists_cons_of_ne_nil hne
  have hd : d.isDigit = true := hdigits d List.mem_cons_self
  have hdrop : (blanks ++ (sign ++ (d :: ds ++ rest))).dropWhile isSpace =
      sign ++ (d :: ds ++ rest) := by
    refine dropWhile_append_of_stop hblanks ?_
    -- the text after the white space begins with a sign or with a digit
    rcases hsign with rfl | rfl | rfl
    · rintro _ ⟨⟩
      exact isSpace_of_isDigit hd
    · rintro _ ⟨⟩
      rfl
    · rintro _ ⟨⟩
      rfl
  have hsplit := splitSign_append hsign hd (ds ++ rest)
  have htake : (d :: ds ++ rest).takeWhile Char.isDigit = d :: ds :=
    takeWhile_append_of_stop hdigits hrest
  simp only [readInt, hdrop]
  rw [List.cons_append, hsplit, ← List.cons_append, htake]
  rfl

theorem readInt_eq_some_iff {cs : List Char} {v : ℤ} : readInt cs = some v ↔ ReadsInt cs v :=
  ⟨readsInt_of_readInt, readInt_of_readsInt⟩

/-- A numeral reads as its value. -/
theorem IsNumeral.readsInt {cs : List Char} {n : ℕ} (h : IsNumeral cs n) : ReadsInt cs n := by
  refine ⟨[], [], cs, [], by simp, by simp, .inl rfl, h.ne_nil, h.digits, by simp, ?_⟩
  rw [← h.value]
  rfl

/-- A numeral reads as its own value only. -/
theorem IsNumeral.eq_of_readsInt {cs : List Char} {n : ℕ} {v : ℤ} (h : IsNumeral cs n)
    (hv : ReadsInt cs v) : v = n := by
  have hread := readInt_of_readsInt hv
  rw [readInt_of_readsInt h.readsInt] at hread
  exact (Option.some.inj hread).symm

end Unid.Lib
