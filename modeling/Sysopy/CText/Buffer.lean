/-
Character buffers in C: the bytes of a buffer up to a point behind which all are zero, the string a
buffer holds, and the functions that write into it. What is printed contains no NUL and has a bounded
length, so it comes back out of a buffer whole.
-/
import Sysopy.CText.Decimal

namespace Sysopy.CText

/-- The bytes of a buffer; those behind the list are zero. -/
abbrev Buffer := List Char

/-- The string at the start of a buffer. -/
def cString (b : Buffer) : List Char := b.takeWhile fun c => c != '\x00'

/-- Bytes written over the start of a buffer. -/
def overwrite (m b : Buffer) : Buffer := m ++ b.drop m.length

/-- `buf[0]`. -/
def byte0 (b : Buffer) : Char := b.headD '\x00'

/-- `buf[0] = c`. -/
def setByte0 (c : Char) (b : Buffer) : Buffer := c :: b.tail

/-- `strcpy(buf + 1, s)`. -/
def strcpy1 (s : List Char) (b : Buffer) : Buffer := byte0 b :: overwrite (s ++ ['\x00']) b.tail

@[simp] theorem byte0_cons (c : Char) (b : Buffer) : byte0 (c :: b) = c := rfl

/-! ## Strings in buffers -/

theorem cString_append_nul {s : List Char} (h : '\x00' ∉ s) (r : List Char) : cString (s ++ '\x00' :: r) = s := by
  unfold cString
  rw [List.takeWhile_append_of_pos fun c hc => by rw [bne_iff_ne]; rintro rfl; exact h hc]
  simp

theorem cString_eq_self {s : List Char} (h : '\x00' ∉ s) : cString s = s := by
  refine List.takeWhile_eq_self_iff.2 fun c hc => ?_
  rw [bne_iff_ne]
  rintro rfl
  exact h hc

theorem cString_cons {c : Char} (h : c ≠ '\x00') (b : Buffer) : cString (c :: b) = c :: cString b :=
  List.takeWhile_cons_of_pos (bne_iff_ne.2 h)

theorem not_mem_cString (b : Buffer) : '\x00' ∉ cString b := fun h => by
  simpa using List.mem_takeWhile_imp h

/-- After `strcpy(buf + 1, s)` the string at `buf + 1` is `s`, whatever was there before. -/
theorem cString_tail_strcpy1 {s : List Char} (h : '\x00' ∉ s) (b : Buffer) : cString (strcpy1 s b).tail = s := by
  simp only [strcpy1, overwrite, List.tail_cons, List.append_assoc, List.singleton_append]
  exact cString_append_nul h _

theorem cString_setByte0 {c : Char} (h : c ≠ '\x00') (b : Buffer) : cString (setByte0 c b) = c :: cString b.tail :=
  cString_cons h _

/-- A byte set and a string copied behind it, in either order. -/
theorem cString_setByte0_strcpy1 {c : Char} (hc : c ≠ '\x00') {s : List Char} (h : '\x00' ∉ s) (b : Buffer) :
    cString (setByte0 c (strcpy1 s b)) = c :: s := by
  rw [cString_setByte0 hc, cString_tail_strcpy1 h]

theorem cString_strcpy1_setByte0 {c : Char} (hc : c ≠ '\x00') {s : List Char} (h : '\x00' ∉ s) (b : Buffer) :
    cString (strcpy1 s (setByte0 c b)) = c :: s :=
  cString_setByte0_strcpy1 hc h b

/-- A message that ends in a NUL leaves its own string in the buffer: the first byte and the string behind it. -/
theorem split_overwrite {c : Char} {s : List Char} (h : '\x00' ∉ s) (b : Buffer) :
    byte0 (overwrite (c :: s ++ ['\x00']) b) :: cString (overwrite (c :: s ++ ['\x00']) b).tail = c :: s := by
  simp only [overwrite, List.cons_append, byte0_cons, List.tail_cons, List.append_assoc]
  rw [cString_append_nul h]

theorem overwrite_nil (m : Buffer) : overwrite m [] = m := by simp [overwrite]

/-! ## What earlier messages leave behind -/

theorem getD_overwrite (m b : Buffer) (i : ℕ) :
    (overwrite m b).getD i '\x00' = if i < m.length then m.getD i '\x00' else b.getD i '\x00' := by
  unfold overwrite
  simp only [List.getD_eq_getElem?_getD]
  split
  · rename_i h
    rw [List.getElem?_append_left h]
  · rename_i h
    rw [List.getElem?_append_right (Nat.le_of_not_lt h), List.getElem?_drop,
      Nat.add_sub_cancel' (Nat.le_of_not_lt h)]

/-- The byte at an index of the last message that reaches it. -/
def lastByteAt (ms : List (List Char)) (i : ℕ) : Char :=
  ((ms.filter fun m => decide (i < m.length)).getLastD []).getD i '\x00'

theorem lastByteAt_append (ms : List (List Char)) (m : List Char) (i : ℕ) :
    lastByteAt (ms ++ [m]) i = if i < m.length then m.getD i '\x00' else lastByteAt ms i := by
  unfold lastByteAt
  rw [List.filter_append]
  split
  · rename_i h
    rw [List.filter_cons_of_pos (by simpa using h), List.filter_nil, List.getLastD_concat]
  · rename_i h
    rw [List.filter_cons_of_neg (by simpa using h), List.filter_nil, List.append_nil]

/-- Messages written over each other into a zeroed buffer leave, at every index, the byte of the last one
that reaches it. -/
theorem getD_foldl_overwrite (ms : List (List Char)) (i : ℕ) :
    (ms.foldl (fun b m => overwrite m b) []).getD i '\x00' = lastByteAt ms i := by
  induction ms using List.reverseRecOn with
  | nil => rfl
  | append_singleton ms m ih =>
    rw [List.foldl_append, List.foldl_cons, List.foldl_nil, getD_overwrite, lastByteAt_append, ih]

theorem cString_eq_nil {b : Buffer} : cString b = [] ↔ b.getD 0 '\x00' = '\x00' := by
  unfold cString
  cases b with
  | nil => simp
  | cons c b => by_cases h : c = '\x00' <;> simp [h]

/-- A message without a NUL comes back out of a buffer iff the byte behind it is zero. -/
theorem cString_tail_overwrite {c : Char} {s : List Char} (h : '\x00' ∉ s) (b : Buffer) :
    cString (overwrite (c :: s) b).tail = s ↔ b.getD (c :: s).length '\x00' = '\x00' := by
  have htail : (overwrite (c :: s) b).tail = s ++ b.drop (c :: s).length := rfl
  have hstring : cString (s ++ b.drop (c :: s).length) = s ++ cString (b.drop (c :: s).length) := by
    unfold cString
    rw [List.takeWhile_append_of_pos fun d hd => by rw [bne_iff_ne]; rintro rfl; exact h hd]
  have hbyte : (b.drop (c :: s).length).getD 0 '\x00' = b.getD (c :: s).length '\x00' := by
    simp [List.getD_eq_getElem?_getD]
  rw [htail, hstring, List.append_right_eq_self, cString_eq_nil, hbyte]

/-! ## Printed numbers in buffers -/

theorem printInt_chars {z : ℤ} {c : Char} (h : c ∈ printInt z) : c = '-' ∨ c.isDigit = true := by
  unfold printInt at h
  split at h
  · rcases List.mem_cons.1 h with rfl | h
    · exact .inl rfl
    · exact .inr (isDigit_of_mem_digits h)
  · exact .inr (isDigit_of_mem_digits h)

theorem nul_not_mem_printInt (z : ℤ) : '\x00' ∉ printInt z := fun h => by
  rcases printInt_chars h with h | h <;> exact absurd h (by decide)

theorem nul_not_mem_printTriple {c : Char} (hc : c ≠ '\x00') (x y z : ℤ) : '\x00' ∉ printTriple c x y z := by
  simp [printTriple, nul_not_mem_printInt, hc.symm]

/-- An int takes at most eleven characters. -/
theorem length_printInt_le {z : ℤ} (hz : InInt z) : (printInt z).length ≤ 11 := by
  obtain ⟨h1, h2⟩ := hz
  have hd : (Nat.toDigits 10 z.natAbs).length ≤ 10 := (Nat.length_toDigits_le_iff (by decide) (by decide)).2 (by omega)
  unfold printInt
  split
  · rw [List.length_cons]; omega
  · omega

theorem length_printTriple_le (c : Char) {x y z : ℤ} (hx : InInt x) (hy : InInt y) (hz : z = 0 ∨ z = 1) :
    (printTriple c x y z).length ≤ 25 := by
  have h1 := length_printInt_le hx
  have h2 := length_printInt_le hy
  have h3 : (printInt z).length = 1 := by rcases hz with rfl | rfl <;> rfl
  simp only [printTriple, List.length_append, List.length_cons]
  omega

/-! ## Arrays of a fixed size -/

/-- A string in an array of `size` characters, with its NUL. -/
structure CharArray (size : ℕ) where
  string : List Char
  nul_not_mem : '\x00' ∉ string
  fits : string.length + 1 ≤ size

/-- `sprintf` and `strcpy` into an array; no result when the string and its NUL do not fit. -/
def CharArray.put (size : ℕ) (s : List Char) : Option (CharArray size) :=
  if h : '\x00' ∉ s ∧ s.length + 1 ≤ size then some ⟨s, h.1, h.2⟩ else none

theorem CharArray.exists_put {size : ℕ} {s : List Char} (hs : '\x00' ∉ s) (hfits : s.length + 1 ≤ size) :
    ∃ a, CharArray.put size s = some a ∧ a.string = s := ⟨⟨s, hs, hfits⟩, dif_pos ⟨hs, hfits⟩, rfl⟩

end Sysopy.CText
