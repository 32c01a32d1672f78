/-
Decimal text in C: the `%d` conversion of printf, `atoi`, and the `%d` and literal directives of
scanf, on the characters of a string. A long that `strtol` cannot represent is clamped and an int
takes its low 32 bits, as in glibc; what is printed is read back, whatever follows it.
-/
import Mathlib.Data.List.DropRight
import Mathlib.Tactic

namespace Sysopy.CText

/-! ## Printing and reading -/

/-- The white space of the C locale. -/
def isSpace (c : Char) : Bool := c == ' ' || ('\t' ≤ c && c ≤ '\r')

/-- The conversion `%d`. -/
def printInt (z : ℤ) : List Char :=
  if z < 0 then '-' :: Nat.toDigits 10 z.natAbs else Nat.toDigits 10 z.natAbs

/-- The optional sign of a number: whether it is a minus, and what follows. -/
def splitSign : List Char → Bool × List Char
  | '-' :: s => (true, s)
  | '+' :: s => (false, s)
  | s => (false, s)

/-- A number of type long is clamped to its range. -/
def toLong (z : ℤ) : ℤ := max (-2 ^ 63) (min z (2 ^ 63 - 1))

/-- The low 32 bits of a number, as an int. -/
def toInt (z : ℤ) : ℤ := z.bmod (2 ^ 32)

/-- `strtol` in base 10: the number at the head of a string, after white space, and what follows it. -/
def strtol (s : List Char) : Option (ℤ × List Char) :=
  let r := splitSign (s.dropWhile isSpace)
  let ds := r.2.takeWhile Char.isDigit
  let n : ℤ := Nat.ofDigitChars 10 ds 0
  if ds = [] then none else some (toLong (if r.1 then -n else n), r.2.dropWhile Char.isDigit)

def atoi (s : List Char) : ℤ := ((strtol s).map fun r => toInt r.1).getD 0

/-- The directive `%d` of scanf. -/
def scanInt (s : List Char) : Option (ℤ × List Char) := (strtol s).map fun r => (toInt r.1, r.2)

/-- A directive of scanf that is a character: white space matches any amount of it. -/
def scanChar (c : Char) (s : List Char) : Option (List Char) :=
  if isSpace c then some (s.dropWhile isSpace)
  else match s with
    | x :: xs => if x = c then some xs else none
    | [] => none

/-- `sscanf(s, "%d<c>%d<c>%d", &x, &y, &z)`: a variable whose directive is not reached keeps its value. -/
def scanTriple (c : Char) (s : List Char) (v : ℤ × ℤ × ℤ) : ℤ × ℤ × ℤ :=
  match scanInt s with
  | none => v
  | some (x, s) =>
    match (scanChar c s).bind scanInt with
    | none => (x, v.2)
    | some (y, s) =>
      match (scanChar c s).bind scanInt with
      | none => (x, y, v.2.2)
      | some (z, _) => (x, y, z)

/-- `sprintf(s, "%d<c>%d<c>%d", x, y, z)`. -/
def printTriple (c : Char) (x y z : ℤ) : List Char := printInt x ++ c :: (printInt y ++ c :: printInt z)

/-! ## Ranges -/

/-- The range of an int. -/
def InInt (z : ℤ) : Prop := -2 ^ 31 ≤ z ∧ z < 2 ^ 31

instance (z : ℤ) : Decidable (InInt z) := inferInstanceAs (Decidable (_ ∧ _))

theorem toLong_of_inInt {z : ℤ} (h : InInt z) : toLong z = z := by
  obtain ⟨h1, h2⟩ := h
  unfold toLong
  rw [min_eq_left (by omega), max_eq_right (by omega)]

theorem toInt_of_inInt {z : ℤ} (h : InInt z) : toInt z = z := by
  obtain ⟨h1, h2⟩ := h
  exact Int.bmod_eq_of_le (by omega) (by omega)

/-- `atoi` returns an int. -/
theorem inInt_atoi (s : List Char) : InInt (atoi s) := by
  unfold atoi
  cases strtol s with
  | none => exact ⟨by decide, by decide⟩
  | some r => exact ⟨Int.le_bmod (by decide), Int.bmod_lt (by decide)⟩

theorem toInt_add (a b : ℤ) : toInt (toInt a + b) = toInt (a + b) := Int.bmod_add_bmod

theorem toInt_add_toInt (a b : ℤ) : toInt (toInt a + toInt b) = toInt (a + b) := by
  rw [toInt_add]
  exact Int.add_bmod_bmod

/-- An int keeps its low byte. -/
theorem toInt_emod (a : ℤ) : toInt a % 256 = a % 256 := by
  have h := Int.bmod_add_bdiv a (2 ^ 32)
  unfold toInt
  omega

theorem toInt_eq_iff {a b : ℕ} (h : a ≤ b) : toInt a = b ↔ b < 2 ^ 31 ∧ a = b := by
  constructor
  · intro heq
    have hlt : toInt a < 2 ^ 31 := Int.bmod_lt (by decide)
    have hself : toInt a = a := toInt_of_inInt ⟨by omega, by omega⟩
    omega
  · rintro ⟨hlt, rfl⟩
    exact toInt_of_inInt ⟨by omega, by omega⟩

/-! ## Round trips -/

/-- What may follow a number: a string that does not go on with a digit. -/
def AfterNumber (s : List Char) : Prop := ∀ c ∈ s.head?, c.isDigit = false

theorem afterNumber_nil : AfterNumber [] := by simp [AfterNumber]

theorem afterNumber_cons {c : Char} (s : List Char) (h : c.isDigit = false) : AfterNumber (c :: s) := by
  simpa [AfterNumber] using h

theorem isDigit_of_mem_digits {n : ℕ} {c : Char} (h : c ∈ Nat.toDigits 10 n) : c.isDigit = true :=
  Nat.isDigit_of_mem_toDigits (by decide) (by decide) h

theorem isSpace_of_isDigit {c : Char} (h : c.isDigit = true) : isSpace c = false := by
  have h0 : 48 ≤ c.toNat := (Char.isDigit_iff_toNat.1 h).1
  have hne : ∀ x : Char, x.toNat < 48 → c ≠ x := by rintro x hx rfl; omega
  have hgt : ¬ c ≤ '\r' := by
    intro hc
    have : c.toNat ≤ 13 := hc
    omega
  simp [isSpace, hne ' ' (by decide), hgt]

/-- The digits of a number are read up to the first character that is none. -/
theorem takeWhile_digits (n : ℕ) {s : List Char} (h : AfterNumber s) :
    (Nat.toDigits 10 n ++ s).takeWhile Char.isDigit = Nat.toDigits 10 n ∧
      (Nat.toDigits 10 n ++ s).dropWhile Char.isDigit = s := by
  rw [List.takeWhile_append_of_pos fun _ => isDigit_of_mem_digits,
    List.dropWhile_append_of_pos fun _ => isDigit_of_mem_digits]
  cases s with
  | nil => simp
  | cons c s =>
    have hc : c.isDigit = false := h c rfl
    simp [hc]

/-- What `%d` prints starts with a sign or a digit, and `splitSign` takes it apart again. -/
theorem splitSign_printInt (z : ℤ) (s : List Char) :
    splitSign ((printInt z ++ s).dropWhile isSpace) = (decide (z < 0), Nat.toDigits 10 z.natAbs ++ s) := by
  unfold printInt
  split
  · simp [isSpace, splitSign, *]
  · cases hd : Nat.toDigits 10 z.natAbs with
    | nil => exact absurd hd Nat.toDigits_ne_nil
    | cons c ds =>
      have hc : c.isDigit = true := isDigit_of_mem_digits (n := z.natAbs) (by rw [hd]; exact List.mem_cons_self)
      have hsign : splitSign (c :: (ds ++ s)) = (false, c :: (ds ++ s)) := by
        unfold splitSign
        split
        · rename_i h; cases h; exact absurd hc (by decide)
        · rename_i h; cases h; exact absurd hc (by decide)
        · rfl
      simp [isSpace_of_isDigit hc, *]

/-- `strtol` reads back what `%d` printed, and stops behind it. -/
theorem strtol_printInt {z : ℤ} (hz : InInt z) {s : List Char} (hs : AfterNumber s) :
    strtol (printInt z ++ s) = some (z, s) := by
  obtain ⟨htake, hdrop⟩ := takeWhile_digits z.natAbs hs
  have hsigned : (if z < 0 then -(z.natAbs : ℤ) else z.natAbs) = z := by split <;> omega
  unfold strtol
  simp only [splitSign_printInt, htake, hdrop, Nat.toDigits_ne_nil, if_false, decide_eq_true_eq,
    Nat.ofDigitChars_ten_toDigits, hsigned, toLong_of_inInt hz]

theorem atoi_printInt_append {z : ℤ} (hz : InInt z) {s : List Char} (hs : AfterNumber s) :
    atoi (printInt z ++ s) = z := by
  simp [atoi, strtol_printInt hz hs, toInt_of_inInt hz]

theorem atoi_printInt {z : ℤ} (hz : InInt z) : atoi (printInt z) = z := by
  simpa using atoi_printInt_append hz afterNumber_nil

theorem scanInt_printInt {z : ℤ} (hz : InInt z) {s : List Char} (hs : AfterNumber s) :
    scanInt (printInt z ++ s) = some (z, s) := by
  simp [scanInt, strtol_printInt hz hs, toInt_of_inInt hz]

theorem scanInt_dropWhile (s : List Char) : scanInt (s.dropWhile isSpace) = scanInt s := by
  unfold scanInt strtol
  rw [List.dropWhile_idempotent]

/-- A separator that is no digit is skipped before a printed number, even when it is white space. -/
theorem scanChar_printInt (c : Char) (z : ℤ) (s : List Char) :
    (scanChar c (c :: (printInt z ++ s))).bind scanInt = scanInt (printInt z ++ s) := by
  unfold scanChar
  split
  · rename_i hc
    rw [Option.bind_some, List.dropWhile_cons_of_pos hc, scanInt_dropWhile]
  · simp

/-- `sscanf` reads back the three ints that `sprintf` wrote with the same format. -/
theorem scanTriple_printTriple {c : Char} (hc : c.isDigit = false) {x y z : ℤ} (hx : InInt x) (hy : InInt y)
    (hz : InInt z) (v : ℤ × ℤ × ℤ) : scanTriple c (printTriple c x y z) v = (x, y, z) := by
  have hlast : scanInt (printInt z) = some (z, []) := by simpa using scanInt_printInt hz afterNumber_nil
  have hsep := scanChar_printInt c z []
  simp only [List.append_nil, hlast] at hsep
  unfold scanTriple printTriple
  simp only [scanInt_printInt hx (afterNumber_cons _ hc), scanChar_printInt,
    scanInt_printInt hy (afterNumber_cons _ hc),
    hsep]

/-! ## Numbers that end inside a text -/

/-- The number at the head of a text ends inside it: a character of the text is behind the digits. -/
def NumberEnds (s : List Char) : Prop := (splitSign (s.dropWhile isSpace)).2.dropWhile Char.isDigit ≠ []

instance (s : List Char) : Decidable (NumberEnds s) := inferInstanceAs (Decidable (_ ≠ _))

theorem splitSign_append {s : List Char} (h : s ≠ []) (t : List Char) :
    splitSign (s ++ t) = ((splitSign s).1, (splitSign s).2 ++ t) := by
  cases s with
  | nil => exact absurd rfl h
  | cons c s =>
    by_cases hm : c = '-'
    · subst hm
      rfl
    · by_cases hp : c = '+'
      · subst hp
        rfl
      · have hcons : ∀ r, splitSign (c :: r) = (false, c :: r) := by
          intro r
          unfold splitSign
          split
          · rename_i hc
            exact absurd (List.cons.inj hc).1 hm
          · rename_i hc
            exact absurd (List.cons.inj hc).1 hp
          · rfl
        rw [List.cons_append, hcons, hcons]
        rfl

theorem takeWhile_append_of_dropWhile {α : Type*} {p : α → Bool} {s : List α} (h : s.dropWhile p ≠ []) (t : List α) :
    (s ++ t).takeWhile p = s.takeWhile p := by
  induction s with
  | nil => exact absurd rfl h
  | cons c s ih =>
    by_cases hc : p c
    · rw [List.dropWhile_cons_of_pos hc] at h
      rw [List.cons_append, List.takeWhile_cons_of_pos hc, List.takeWhile_cons_of_pos hc, ih h]
    · rw [List.cons_append, List.takeWhile_cons_of_neg hc, List.takeWhile_cons_of_neg hc]

/-- `atoi` does not see what follows a text in which its number ends. -/
theorem atoi_append {s : List Char} (h : NumberEnds s) (t : List Char) : atoi (s ++ t) = atoi s := by
  have hspace : s.dropWhile isSpace ≠ [] := by
    intro hs
    unfold NumberEnds at h
    rw [hs] at h
    exact h rfl
  have hdrop : (s ++ t).dropWhile isSpace = s.dropWhile isSpace ++ t := by
    rw [List.dropWhile_append, if_neg (by simpa using hspace)]
  have hdigits := takeWhile_append_of_dropWhile h t
  unfold atoi strtol
  simp only [hdrop, splitSign_append hspace, hdigits]
  split <;> simp

/-- A sign is one character, so what is behind the first one stays. -/
theorem mem_splitSign {s : List Char} {c : Char} (h : c ∈ s.tail) : c ∈ (splitSign s).2 := by
  unfold splitSign
  split
  · exact h
  · exact h
  · exact List.mem_of_mem_tail h

/-- The number ends in a text that has a space behind a character that is none. -/
theorem numberEnds_of_space {a b : List Char} {c : Char} (hc : isSpace c = false) (hb : ' ' ∈ b) :
    NumberEnds (a ++ c :: b) := by
  have hsuffix : ∃ a', (a ++ c :: b).dropWhile isSpace = a' ++ c :: b := by
    rw [List.dropWhile_append]
    split
    · exact ⟨[], List.dropWhile_cons_of_neg (by simp [hc])⟩
    · exact ⟨a.dropWhile isSpace, rfl⟩
  obtain ⟨a', ha'⟩ := hsuffix
  have hmem : ' ' ∈ (splitSign ((a ++ c :: b).dropWhile isSpace)).2 := by
    refine mem_splitSign ?_
    rw [ha']
    cases a' with
    | nil => exact hb
    | cons x a' => exact List.mem_append_right _ (List.mem_cons_of_mem _ hb)
  intro hdigits
  exact absurd (List.dropWhile_eq_nil_iff.1 hdigits _ hmem) (by decide)

end Sysopy.CText
